import Muduo.Buffer.Queue

/-!
# What `readFd` delivers

`readFd` prepares two `iovec`s, the writable tail of the vector and `extraBuffer`, but hands the
array of the `iovec`s to `::recv` instead of the regions it describes. The received bytes land in
the array and are lost; the indices move over as many bytes that were already there. `exposed` is
what these bytes are, `readFd_spec` says that a call appends them to the contents, and
`delivers_iff` that the received bytes are delivered exactly when they were already lying there.
-/

namespace Muduo.Buffer

open Memory Run

/-- A call of `readFd`: the answer of the kernel, and what the uninitialised `extraBuffer` holds. -/
structure ReadCall where
  recv : Recv
  extraBuffer : List UInt8
  length_extra : extraBuffer.length = kExtraBuffer

/-- The number of bytes `readFd` asks `::recv` for, which it means as a number of `iovec`s. -/
def iovcnt (b : Buffer) : ℕ := if b.writableBytes < kExtraBuffer then 2 else 1

/-- The bytes the call consumes from the socket. -/
def ReadCall.received (c : ReadCall) (b : Buffer) : List UInt8 :=
  match c.recv b.iovcnt with
  | .received bytes _ => bytes
  | .failed _ => []

/-- What the `n` bytes behind the contents hold before a call: the writable tail of the vector and,
past its end, `extraBuffer`. -/
def exposed (b : Buffer) (extraBuffer : List UInt8) (n : ℕ) : List UInt8 :=
  slice b.buffer_ b.writerIndex_ (min n b.writableBytes) ++ extraBuffer.take (n - b.writableBytes)

variable {b : Buffer}

/-- Moving the writer index over `n` writable bytes adds what they hold to the contents. -/
theorem readable_advance (hb : b.Valid) {n : ℕ} (hn : n ≤ b.writableBytes) :
    ({ b with writerIndex_ := b.writerIndex_ + n } : Buffer).Valid ∧
      ({ b with writerIndex_ := b.writerIndex_ + n } : Buffer).readable =
        b.readable ++ slice b.buffer_ b.writerIndex_ n := by
  rw [hb.writableBytes_eq] at hn
  have hr := hb.reader_le
  have hw := hb.writer_le
  refine ⟨⟨hb.prepend_le, by simp only; omega, by simp only; omega, hb.size_le⟩, ?_⟩
  have hsplit : b.writerIndex_ + n - b.readerIndex_ = b.writerIndex_ - b.readerIndex_ + n := by omega
  have hadd : b.readerIndex_ + (b.writerIndex_ - b.readerIndex_) = b.writerIndex_ := by omega
  simp only [readable]
  rw [hsplit, slice_add, hadd]

/-- **`readFd`** keeps the index invariant and adds to the contents what lay behind them, as many
bytes as were received. -/
theorem readFd_spec (hb : b.Valid) {c : ReadCall} {n : ℤ} {b' : Buffer}
    (h : b.readFd c.recv c.extraBuffer = .ok (n, b')) :
    b'.Valid ∧ b'.readable = b.readable ++ b.exposed c.extraBuffer (c.received b).length ∧
      (0 < n ↔ c.received b ≠ []) := by
  have hsize := hb.size_lt
  have hwriter := hb.writer_le
  have hwritable := hb.writableBytes_eq
  simp only [readFd] at h
  rw [show (if b.writableBytes < kExtraBuffer then 2 else 1) = b.iovcnt from rfl] at h
  unfold ReadCall.received
  split at h
  next errno hrecv =>
    obtain ⟨rfl, rfl⟩ := Prod.mk.inj (Except.ok.inj h)
    refine ⟨hb, ?_, ?_⟩ <;> simp [hrecv, exposed]
  next bytes hle hrecv =>
    have hshort : bytes.length ≤ 2 := by
      refine Nat.le_trans hle ?_
      unfold iovcnt
      split <;> omega
    simp only [hrecv]
    split at h
    next hfit =>
      obtain ⟨rfl, rfl⟩ := Prod.mk.inj (Except.ok.inj h)
      obtain ⟨hv, hr⟩ := readable_advance hb hfit
      rw [sizeWrap_of_lt (by omega)]
      refine ⟨hv, ?_, by simp [List.length_pos_iff]⟩
      rw [hr, exposed, Nat.min_eq_left hfit, Nat.sub_eq_zero_of_le hfit, List.take_zero,
        List.append_nil]
    next hspill =>
      obtain ⟨b'', happend, hret⟩ := bind_eq_ok.1 h
      obtain ⟨rfl, rfl⟩ := Prod.mk.inj (Except.ok.inj hret)
      obtain ⟨hv, hr⟩ := readable_advance hb (Nat.le_refl b.writableBytes)
      have hend : b.writerIndex_ + b.writableBytes = b.buffer_.length := by omega
      rw [hend] at hv hr
      have hextra : c.extraBuffer.length ≤ maxSize := by
        rw [c.length_extra]
        decide
      obtain ⟨-, hv', hr'⟩ := append_ok hv hextra happend
      refine ⟨hv', ?_, by simp [List.length_pos_iff]⟩
      rw [hr', hr, exposed, Nat.min_eq_right (by omega), sizeSub_of_le (by omega) (by omega),
        List.append_assoc]

/-! ## Runs -/

/-- The states a buffer can reach by calls whose sizes stay below `2 ^ 63`. -/
inductive Reachable : Buffer → Prop
  | construct (initialSize : ℕ) : Reachable (construct initialSize)
  | exec {b b' : Buffer} {op : Op} {s : List UInt8} (hb : Reachable b) (hfits : op.Fits b)
      (h : op.exec b = .ok (s, b')) : Reachable b'
  | readFd {b b' : Buffer} {c : ReadCall} {n : ℤ} (hb : Reachable b)
      (h : b.readFd c.recv c.extraBuffer = .ok (n, b')) : Reachable b'

theorem Reachable.valid (hb : b.Reachable) : b.Valid := by
  induction hb with
  | construct initialSize => exact construct_valid initialSize
  | exec _ hfits h ih =>
    obtain ⟨_, hexec, hv, -⟩ := Op.exec_spec ih hfits
    obtain ⟨-, rfl⟩ := Prod.mk.inj (Except.ok.inj (hexec.symm.trans h))
    exact hv
  | readFd _ h ih => exact (readFd_spec ih h).1

/-- A step of an inbound stream: `readFd`, and what the user takes out. -/
inductive StreamOp
  | readFd (c : ReadCall)
  | retrieve (len : ℕ)
  | retrieveAll

/-- A call on the buffer; what `readFd` returns is dropped. -/
def StreamOp.exec (b : Buffer) : StreamOp → Except Fault Buffer
  | .readFd c => do return (← b.readFd c.recv c.extraBuffer).2
  | .retrieve len => .ok (b.retrieve len)
  | .retrieveAll => .ok b.retrieveAll

/-- The step, when it is a `readFd` that returns, leaves the old contents followed by the bytes it
consumed from the socket, or the old contents when it returns a count of zero or `-1`. -/
def StreamOp.Delivers (b : Buffer) : StreamOp → Prop
  | .readFd c => ∀ n b', b.readFd c.recv c.extraBuffer = .ok (n, b') →
      (0 < n → b'.readable = b.readable ++ c.received b) ∧ (n ≤ 0 → b'.readable = b.readable)
  | _ => True

/-- The step, when it is a `readFd`, receives nothing, or just the bytes that the memory behind the
contents held before the call. -/
def StreamOp.AlreadyThere (b : Buffer) : StreamOp → Prop
  | .readFd c => b.exposed c.extraBuffer (c.received b).length = c.received b
  | _ => True

theorem StreamOp.exec_valid (hb : b.Valid) {op : StreamOp} {b' : Buffer}
    (h : op.exec b = .ok b') : b'.Valid := by
  cases op with
  | readFd c =>
    obtain ⟨⟨n, b''⟩, hread, hret⟩ := bind_eq_ok.1 h
    obtain rfl := Except.ok.inj hret
    exact (readFd_spec hb hread).1
  | retrieve len =>
    obtain rfl := Except.ok.inj h
    exact retrieve_valid hb len
  | retrieveAll =>
    obtain rfl := Except.ok.inj h
    exact retrieveAll_valid hb

theorem StreamOp.delivers_iff_alreadyThere (hb : b.Valid) {op : StreamOp} {b' : Buffer}
    (h : op.exec b = .ok b') : op.Delivers b ↔ op.AlreadyThere b := by
  cases op with
  | retrieve | retrieveAll => exact Iff.rfl
  | readFd c =>
    obtain ⟨⟨n, b''⟩, hread, -⟩ := bind_eq_ok.1 h
    obtain ⟨-, hr, hpos⟩ := readFd_spec hb hread
    constructor
    · intro hd
      by_cases hrecv : c.received b = []
      · simp [AlreadyThere, hrecv, exposed]
      · have := (hd n b'' hread).1 (hpos.2 hrecv)
        rw [hr, List.append_cancel_left_eq] at this
        exact this
    · rintro hthere m b₁ hread'
      obtain ⟨rfl, rfl⟩ := Prod.mk.inj (Except.ok.inj (hread.symm.trans hread'))
      refine ⟨fun _ => by rw [hr, hthere], fun hn => ?_⟩
      have hnil : c.received b = [] := by
        by_contra hne
        exact absurd (hpos.2 hne) (by omega)
      simp [hr, hnil, exposed]

/-- **Inbound integrity, exactly**: over a run from a reachable buffer, every `readFd` delivers what
it received if and only if every `readFd` received what already lay behind the contents. -/
theorem delivers_iff {b b' : Buffer} (hb : b.Reachable) {ops : List StreamOp}
    (h : run StreamOp.exec b ops = .ok b') :
    Along StreamOp.exec StreamOp.Delivers b ops ↔ Along StreamOp.exec StreamOp.AlreadyThere b ops :=
  along_congr (fun _ _ _ hv h => StreamOp.exec_valid hv h)
    (fun _ _ _ hv h => StreamOp.delivers_iff_alreadyThere hv h) hb.valid h

/-- The kernel has the bytes `bytes` to deliver, and `extraBuffer` is zero. -/
def readCall (bytes : List UInt8) : ReadCall where
  recv n := .received (bytes.take n) (List.length_take_le n bytes)
  extraBuffer := List.replicate kExtraBuffer 0
  length_extra := List.length_replicate

/-- In a fresh buffer, whose tail is zero, a zero byte is delivered. -/
theorem delivers_iff_zero :
    Along StreamOp.exec StreamOp.Delivers (construct 0) [.readFd (readCall [0]), .retrieve 1] ↔
      Along StreamOp.exec StreamOp.AlreadyThere (construct 0)
        [.readFd (readCall [0]), .retrieve 1] := by
  have hrun : run StreamOp.exec (construct 0) [.readFd (readCall [0]), .retrieve 1] =
      .ok { construct 0 with readerIndex_ := 9, writerIndex_ := 9 } := by decide +kernel
  exact delivers_iff (.construct 0) hrun

/-- A fresh buffer that receives the byte `65` ends up with the byte `0` of its tail. -/
theorem not_delivers_letter :
    ¬∀ (b b' : Buffer) (ops : List StreamOp), b.Reachable → run StreamOp.exec b ops = .ok b' →
      Along StreamOp.exec StreamOp.Delivers b ops := by
  intro h
  have hread : (construct 0).readFd (readCall [65]).recv (readCall [65]).extraBuffer =
      .ok (1, { construct 0 with writerIndex_ := 9 }) := by decide +kernel
  obtain ⟨hdelivers, -⟩ := h (construct 0) { construct 0 with writerIndex_ := 9 }
    [.readFd (readCall [65])] (.construct 0) (by decide +kernel)
  have := (hdelivers _ _ hread).1 (by decide)
  exact absurd this (by decide +kernel)

end Muduo.Buffer
