import Muduo.Buffer.ReadFd

/-!
# Room for any size

`ensureWritableBytes` promises room, or an exception and an unchanged buffer, for every `size_t`.
`InPlace` has the functions of `Buffer.h` as programs on the object, one statement after the other,
so that an exception leaves what the statements before it made; each is compared with the function
of `Muduo.Buffer` it stands for. A `Call` is any use of a buffer, and `Call.next` goes on after a
`std::length_error`, which the caller may catch.

`room_iff`: over every run of calls from construction the promise is kept if and only if the sum
`writerIndex_ + len` of `makeSpace` stays below `2 ^ 64` at every `ensureWritableBytes`.
-/

namespace Muduo.Buffer

open Memory Run

/-! ## Statement by statement -/

namespace InPlace

variable {α : Type}

/-- A call of the standard library: it does not change the object itself. -/
def call (x : Except Fault α) : EStateM Fault Buffer α := fun b =>
  match x with
  | .ok a => .ok a b
  | .error e => .error e b

/-- The statements of `makeSpace`, one after the other. -/
def makeSpace (len : ℕ) : EStateM Fault Buffer Unit := do
  let b ← get
  if sizeWrap (b.writableBytes + b.prependableBytes) < sizeWrap (len + kCheapPrepend) then
    let v ← call (vectorResize b.buffer_ (sizeWrap (b.writerIndex_ + len)))
    modify fun b => { b with buffer_ := v }
  else
    let readable := b.readableBytes
    let v ← call (stdCopy b.buffer_ b.readerIndex_ b.writerIndex_ kCheapPrepend)
    modify fun b => { b with buffer_ := v }
    modify fun b => { b with readerIndex_ := kCheapPrepend }
    modify fun b => { b with writerIndex_ := sizeWrap (b.readerIndex_ + readable) }

/-- The statements of `ensureWritableBytes`. -/
def ensureWritableBytes (len : ℕ) : EStateM Fault Buffer Unit := do
  let b ← get
  if b.writableBytes < len then makeSpace len

/-- The statements of `append`; `data` is the memory its first argument points to. -/
def append (data : List UInt8) (len : ℕ) : EStateM Fault Buffer Unit := do
  ensureWritableBytes len
  let b ← get
  let bytes ← call (readBytes data 0 len)
  let v ← call (storeBytes b.buffer_ b.writerIndex_ bytes)
  modify fun b => { b with buffer_ := v }
  modify fun b => { b with writerIndex_ := sizeWrap (b.writerIndex_ + len) }

/-- The statements of `retrieveAsString`. -/
def retrieveAsString (len : ℕ) : EStateM Fault Buffer (List UInt8) := do
  let b ← get
  let result ← call (makeString b.buffer_ b.readerIndex_ len)
  modify fun b => b.retrieve len
  return result

/-- The statements of `readFd`, where the kernel writes over the array of the `iovec`s and not into
the buffers. -/
def readFd (recv : Recv) (extraBuffer : List UInt8) : EStateM Fault Buffer ℤ := do
  let b ← get
  let writable := b.writableBytes
  let iovcnt := if writable < kExtraBuffer then 2 else 1
  match recv iovcnt with
  | .failed _ => return -1
  | .received bytes _ =>
    let n := bytes.length
    if n ≤ writable then
      modify fun b => { b with writerIndex_ := sizeWrap (b.writerIndex_ + n) }
    else
      modify fun b => { b with writerIndex_ := b.buffer_.length }
      append extraBuffer (sizeSub n writable)
    return n

end InPlace

/-- What an in-place call ends with when it returns as `x` does; where `x` is an error, it leaves
the buffer `left`. -/
def outcome {α : Type} (left : Buffer) : Except Fault (α × Buffer) → EStateM.Result Fault Buffer α
  | .ok (a, b) => .ok a b
  | .error e => .error e left

section

variable {α β : Type} {b : Buffer}

theorem InPlace.run_get_bind (f : Buffer → EStateM Fault Buffer α) :
    (get >>= f).run b = (f b).run b := rfl

theorem InPlace.run_modify_bind (g : Buffer → Buffer) (f : PUnit → EStateM Fault Buffer α) :
    (modify g >>= f).run b = (f ⟨⟩).run (g b) := rfl

theorem InPlace.run_call_bind {x : Except Fault α} {a : α} (h : x = .ok a)
    (f : α → EStateM Fault Buffer β) : (InPlace.call x >>= f).run b = (f a).run b := by
  subst h
  rfl

theorem InPlace.run_call_bind_error {x : Except Fault α} {e : Fault} (h : x = .error e)
    (f : α → EStateM Fault Buffer β) : (InPlace.call x >>= f).run b = .error e b := by
  subst h
  rfl

theorem InPlace.run_bind_ok {x : EStateM Fault Buffer α} {a : α} {b' : Buffer}
    (h : x.run b = .ok a b') (f : α → EStateM Fault Buffer β) :
    (x >>= f).run b = (f a).run b' := by
  rw [EStateM.run_bind, h]

theorem InPlace.run_bind_error {x : EStateM Fault Buffer α} {e : Fault} {b' : Buffer}
    (h : x.run b = .error e b') (f : α → EStateM Fault Buffer β) :
    (x >>= f).run b = .error e b' := by
  rw [EStateM.run_bind, h]

end

theorem InPlace.run_makeSpace (b : Buffer) (len : ℕ) :
    (InPlace.makeSpace len).run b = outcome b ((b.makeSpace len).map (Prod.mk ())) := by
  rw [InPlace.makeSpace, run_get_bind, Buffer.makeSpace]
  by_cases hgrow : sizeWrap (b.writableBytes + b.prependableBytes) < sizeWrap (len + kCheapPrepend)
  · rw [if_pos hgrow, if_pos hgrow]
    cases hv : vectorResize b.buffer_ (sizeWrap (b.writerIndex_ + len)) with
    | ok v =>
      rw [run_call_bind rfl, EStateM.run_modify]
      rfl
    | error e =>
      rw [run_call_bind_error rfl]
      rfl
  · rw [if_neg hgrow, if_neg hgrow]
    cases hv : stdCopy b.buffer_ b.readerIndex_ b.writerIndex_ kCheapPrepend with
    | ok v =>
      rw [run_call_bind rfl, run_modify_bind, run_modify_bind, EStateM.run_modify]
      rfl
    | error e =>
      rw [run_call_bind_error rfl]
      rfl

/-- An `ensureWritableBytes` that throws leaves the buffer as it was. -/
theorem InPlace.run_ensureWritableBytes (b : Buffer) (len : ℕ) :
    (InPlace.ensureWritableBytes len).run b =
      outcome b ((b.ensureWritableBytes len).map (Prod.mk ())) := by
  rw [InPlace.ensureWritableBytes, run_get_bind, Buffer.ensureWritableBytes]
  by_cases hfit : b.writableBytes < len
  · rw [if_pos hfit, if_pos hfit, run_makeSpace]
  · rw [if_neg hfit, if_neg hfit]
    rfl

/-- What a call that returned made of the buffer; the buffer itself where it threw. -/
def settle (b : Buffer) : Except Fault Buffer → Buffer
  | .ok b' => b'
  | .error _ => b

/-- The buffer after the `ensureWritableBytes` of an `append`. -/
def roomMade (b : Buffer) (len : ℕ) : Buffer := b.settle (b.ensureWritableBytes len)

theorem InPlace.run_append (b : Buffer) (data : List UInt8) (len : ℕ) :
    (InPlace.append data len).run b =
      outcome (b.roomMade len) ((b.append data len).map (Prod.mk ())) := by
  have hrun := run_ensureWritableBytes b len
  rw [InPlace.append, Buffer.append, roomMade]
  cases hens : b.ensureWritableBytes len with
  | error e =>
    rw [hens] at hrun
    rw [run_bind_error hrun]
    rfl
  | ok b' =>
    rw [hens] at hrun
    rw [run_bind_ok hrun, run_get_bind, ok_bind]
    cases hread : readBytes data 0 len with
    | error e =>
      rw [run_call_bind_error rfl]
      rfl
    | ok bytes =>
      rw [run_call_bind rfl, ok_bind]
      cases hstore : storeBytes b'.buffer_ b'.writerIndex_ bytes with
      | error e =>
        rw [run_call_bind_error rfl]
        rfl
      | ok v =>
        rw [run_call_bind rfl, run_modify_bind, EStateM.run_modify]
        rfl

theorem InPlace.run_retrieveAsString (b : Buffer) (len : ℕ) :
    (InPlace.retrieveAsString len).run b = outcome b (b.retrieveAsString len) := by
  rw [InPlace.retrieveAsString, run_get_bind, Buffer.retrieveAsString]
  cases hread : makeString b.buffer_ b.readerIndex_ len with
  | error e =>
    rw [run_call_bind_error rfl]
    rfl
  | ok result =>
    rw [run_call_bind rfl, run_modify_bind, EStateM.run_pure]
    rfl

/-- The buffer when `readFd` has moved the writer index and calls `append`. -/
def full (b : Buffer) : Buffer := { b with writerIndex_ := b.buffer_.length }

/-- What a `readFd` that throws leaves: its `append` threw, with the writer index moved. -/
def readFdLeft (b : Buffer) (c : ReadCall) : Buffer :=
  b.full.roomMade ((c.received b).length - b.writableBytes)

theorem iovcnt_le (b : Buffer) : b.iovcnt ≤ 2 := by
  unfold iovcnt
  split <;> omega

theorem InPlace.run_readFd (b : Buffer) (c : ReadCall) :
    (InPlace.readFd c.recv c.extraBuffer).run b =
      outcome (b.readFdLeft c) (b.readFd c.recv c.extraBuffer) := by
  rw [InPlace.readFd, run_get_bind, Buffer.readFd, readFdLeft, ReadCall.received]
  simp only
  rw [show (if b.writableBytes < kExtraBuffer then 2 else 1) = b.iovcnt from rfl]
  cases hrecv : c.recv b.iovcnt with
  | failed errno => rfl
  | received bytes le =>
    simp only
    by_cases hfit : bytes.length ≤ b.writableBytes
    · rw [if_pos hfit, if_pos hfit]
      rfl
    · have := b.iovcnt_le
      rw [if_neg hfit, if_neg hfit, run_modify_bind, sizeSub_of_le (by omega) (by omega)]
      have hrun := run_append b.full c.extraBuffer (bytes.length - b.writableBytes)
      rw [show ({ b with writerIndex_ := b.buffer_.length } : Buffer) = b.full from rfl]
      cases happend : b.full.append c.extraBuffer (bytes.length - b.writableBytes) with
      | error e =>
        rw [happend] at hrun
        rw [run_bind_error hrun]
        rfl
      | ok b' =>
        rw [happend] at hrun
        rw [run_bind_ok hrun]
        rfl

/-! ## Calls and runs of calls -/

/-- A use of a buffer. The lengths are `size_t` values, and the memory `append` reads is an
object. -/
inductive Call
  | append (data : List UInt8) (le : data.length ≤ maxSize)
  | ensureWritableBytes (len : ℕ) (lt : len < 2 ^ 64)
  | retrieve (len : ℕ) (lt : len < 2 ^ 64)
  | retrieveAll
  | retrieveAllAsString
  | retrieveAsString (len : ℕ) (lt : len < 2 ^ 64)
  | readFd (c : ReadCall)

/-- The buffer the program goes on with: it may catch a `std::length_error`; any other fault ends
it. -/
def resume {α : Type} : EStateM.Result Fault Buffer α → Except Fault Buffer
  | .ok _ b => .ok b
  | .error .lengthError b => .ok b
  | .error e _ => .error e

/-- The buffer after the call, when it returns. -/
def Call.next (b : Buffer) : Call → Except Fault Buffer
  | .append data _ => resume ((InPlace.append data data.length).run b)
  | .ensureWritableBytes len _ => resume ((InPlace.ensureWritableBytes len).run b)
  | .retrieve len _ => .ok (b.retrieve len)
  | .retrieveAll => .ok b.retrieveAll
  | .retrieveAllAsString => resume ((InPlace.retrieveAsString b.readableBytes).run b)
  | .retrieveAsString len _ => resume ((InPlace.retrieveAsString len).run b)
  | .readFd c => resume ((InPlace.readFd c.recv c.extraBuffer).run b)

variable {b b' : Buffer}

theorem resume_outcome {α : Type} {left : Buffer} {x : Except Fault (α × Buffer)}
    (h : resume (outcome left x) = .ok b') : (∃ a, x = .ok (a, b')) ∨ b' = left := by
  cases x with
  | ok p => exact .inl ⟨p.1, by rw [← Except.ok.inj h]⟩
  | error e =>
    cases e with
    | lengthError => exact .inr (Except.ok.inj h).symm
    | _ => cases h

/-- The same for a function that returns nothing but the buffer. -/
theorem resume_outcome_map {left : Buffer} {x : Except Fault Buffer}
    (h : resume (outcome left (x.map (Prod.mk ()))) = .ok b') : x = .ok b' ∨ b' = left := by
  rcases resume_outcome h with ⟨a, ha⟩ | hleft
  · obtain ⟨b'', hx, hb''⟩ := exists_of_map ha
    obtain ⟨-, rfl⟩ := Prod.mk.inj hb''
    exact .inl hx
  · exact .inr hleft

theorem retrieveAsString_ok {len : ℕ} {result : List UInt8}
    (h : b.retrieveAsString len = .ok (result, b')) :
    makeString b.buffer_ b.readerIndex_ len = .ok result ∧ b' = b.retrieve len := by
  obtain ⟨_, hread, hret⟩ := bind_eq_ok.1 h
  obtain ⟨rfl, rfl⟩ := Prod.mk.inj (Except.ok.inj hret)
  exact ⟨hread, rfl⟩

/-- What a call that the program goes on from has made of the buffer. -/
def Call.Made (b b' : Buffer) : Call → Prop
  | .append data _ => b.append data data.length = .ok b' ∨ b' = b.roomMade data.length
  | .ensureWritableBytes len _ => b.ensureWritableBytes len = .ok b' ∨ b' = b
  | .retrieve len _ => b' = b.retrieve len
  | .retrieveAll => b' = b.retrieveAll
  | .retrieveAllAsString => b' = b.retrieve b.readableBytes ∨ b' = b
  | .retrieveAsString len _ => b' = b.retrieve len ∨ b' = b
  | .readFd c => (∃ n, b.readFd c.recv c.extraBuffer = .ok (n, b')) ∨ b' = b.readFdLeft c

theorem Call.next_ok {c : Call} (h : c.next b = .ok b') : c.Made b b' := by
  cases c with
  | append data le =>
    rw [next, InPlace.run_append] at h
    exact resume_outcome_map h
  | ensureWritableBytes len lt =>
    rw [next, InPlace.run_ensureWritableBytes] at h
    exact resume_outcome_map h
  | retrieve | retrieveAll => exact (Except.ok.inj h).symm
  | retrieveAllAsString | retrieveAsString =>
    rw [next, InPlace.run_retrieveAsString] at h
    exact (resume_outcome h).imp_left fun ⟨_, hok⟩ => (retrieveAsString_ok hok).2
  | readFd c =>
    rw [next, InPlace.run_readFd] at h
    exact resume_outcome h

/-! ## Making room with sums that wrap -/

/-- The vector is within `max_size()`, and the writer index is a `size_t`. This holds also after a
sum has wrapped. -/
structure Bounded (b : Buffer) : Prop where
  size_le : b.buffer_.length ≤ maxSize
  writer_lt : b.writerIndex_ < 2 ^ 64

theorem Valid.bounded (hb : b.Valid) : b.Bounded := by
  have := hb.size_lt
  have := hb.writer_le
  exact ⟨hb.size_le, by omega⟩

theorem vectorResize_ok {v v' : List UInt8} {n : ℕ} (h : vectorResize v n = .ok v') :
    v'.length = n ∧ n ≤ maxSize := by
  unfold vectorResize at h
  split at h
  next hn =>
    rw [← Except.ok.inj h, List.length_append, List.length_take, List.length_replicate]
    omega
  next => cases h

theorem stdCopy_ok {m m' : List UInt8} {first last dFirst : ℕ}
    (h : stdCopy m first last dFirst = .ok m') : m'.length = m.length := by
  unfold stdCopy at h
  split at h
  · rw [← Except.ok.inj h, length_copyForward]
  · cases h

/-- `ensureWritableBytes(len)` calls `resize`. -/
def Grows (b : Buffer) (len : ℕ) : Prop :=
  b.writableBytes < len ∧
    sizeWrap (b.writableBytes + b.prependableBytes) < sizeWrap (len + kCheapPrepend)

/-- What a successful `ensureWritableBytes(len)` did, whatever its sums: nothing, a `resize`, or the
slide. -/
theorem ensureWritableBytes_cases {len : ℕ} (h : b.ensureWritableBytes len = .ok b') :
    (len ≤ b.writableBytes ∧ b' = b) ∨
      (b.Grows len ∧ b'.buffer_.length = sizeWrap (b.writerIndex_ + len) ∧
        b'.buffer_.length ≤ maxSize ∧ b'.readerIndex_ = b.readerIndex_ ∧
          b'.writerIndex_ = b.writerIndex_) ∨
      (b.Compacts len ∧ b'.buffer_.length = b.buffer_.length ∧ b'.readerIndex_ = kCheapPrepend ∧
        b'.writerIndex_ = sizeWrap (kCheapPrepend + b.readableBytes)) := by
  rw [ensureWritableBytes] at h
  by_cases hfit : b.writableBytes < len
  · rw [if_pos hfit, makeSpace] at h
    by_cases hgrow : sizeWrap (b.writableBytes + b.prependableBytes) < sizeWrap (len + kCheapPrepend)
    · rw [if_pos hgrow] at h
      obtain ⟨v, hv, hret⟩ := bind_eq_ok.1 h
      obtain rfl := Except.ok.inj hret
      obtain ⟨hlen, hmax⟩ := vectorResize_ok hv
      exact .inr (.inl ⟨⟨hfit, hgrow⟩, hlen, hlen ▸ hmax, rfl, rfl⟩)
    · rw [if_neg hgrow] at h
      obtain ⟨v, hv, hret⟩ := bind_eq_ok.1 h
      obtain rfl := Except.ok.inj hret
      exact .inr (.inr ⟨⟨hfit, hgrow⟩, stdCopy_ok hv, rfl, rfl⟩)
  · rw [if_neg hfit] at h
    exact .inl ⟨by omega, (Except.ok.inj h).symm⟩

theorem storeBytes_ok {m m' bytes : List UInt8} {i : ℕ} (h : storeBytes m i bytes = .ok m') :
    i + bytes.length ≤ m.length ∧ m'.length = m.length := by
  unfold storeBytes at h
  split at h
  next hle => exact ⟨hle, by rw [← Except.ok.inj h, length_overwrite hle]⟩
  next => cases h

/-- What a successful `append` did to the indices and the size, whatever its sums. -/
theorem append_cases {data : List UInt8} {len : ℕ} (h : b.append data len = .ok b') :
    ∃ b₁, b.ensureWritableBytes len = .ok b₁ ∧ b₁.writerIndex_ + len ≤ b₁.buffer_.length ∧
      b'.buffer_.length = b₁.buffer_.length ∧ b'.writerIndex_ = sizeWrap (b₁.writerIndex_ + len) := by
  obtain ⟨b₁, hens, h⟩ := bind_eq_ok.1 h
  obtain ⟨bytes, hread, h⟩ := bind_eq_ok.1 h
  obtain ⟨v, hstore, hret⟩ := bind_eq_ok.1 h
  obtain rfl := Except.ok.inj hret
  obtain ⟨hle, rfl⟩ := readBytes_ok.1 hread
  obtain ⟨hroom, hlen⟩ := storeBytes_ok hstore
  rw [length_slice hle] at hroom
  exact ⟨b₁, hens, hroom, hlen, rfl⟩

/-- `ensureWritableBytes(len)` throws only when the vector would pass `max_size()`. -/
theorem ensureWritableBytes_lengthError {len : ℕ}
    (h : b.ensureWritableBytes len = .error .lengthError) :
    b.Grows len ∧ maxSize < sizeWrap (b.writerIndex_ + len) := by
  rw [ensureWritableBytes] at h
  by_cases hfit : b.writableBytes < len
  · rw [if_pos hfit, makeSpace] at h
    by_cases hgrow : sizeWrap (b.writableBytes + b.prependableBytes) < sizeWrap (len + kCheapPrepend)
    · rw [if_pos hgrow] at h
      refine ⟨⟨hfit, hgrow⟩, ?_⟩
      by_contra hmax
      rw [vectorResize, if_pos (by omega)] at h
      cases h
    · rw [if_neg hgrow, stdCopy] at h
      split at h <;> cases h
  · rw [if_neg hfit] at h
    cases h

theorem Bounded.ensureWritableBytes (hb : b.Bounded) {len : ℕ}
    (h : b.ensureWritableBytes len = .ok b') : b'.Bounded := by
  rcases ensureWritableBytes_cases h with ⟨-, rfl⟩ | ⟨-, -, hmax, -, hw⟩ | ⟨-, hlen, -, hw⟩
  · exact hb
  · exact ⟨hmax, hw ▸ hb.writer_lt⟩
  · refine ⟨hlen ▸ hb.size_le, ?_⟩
    rw [hw]
    exact Nat.mod_lt _ (by decide)

/-! ## The promise -/

/-- What `ensureWritableBytes(len)` promises of its end: it throws and leaves the buffer as it was,
or it returns with room for `len` bytes, the readable bytes unchanged and the indices in order. -/
def Promised (b : Buffer) (len : ℕ) : EStateM.Result Fault Buffer Unit → Prop
  | .error e b' => e = .lengthError ∧ b' = b
  | .ok () b' => len ≤ b'.writableBytes ∧ b'.readable = b.readable ∧
      kCheapPrepend ≤ b'.readerIndex_ ∧ b'.readerIndex_ ≤ b'.writerIndex_ ∧
        b'.writerIndex_ ≤ b'.buffer_.length

/-- `ensureWritableBytes(len)` does what it promises, run statement by statement. -/
def KeepsPromise (b : Buffer) (len : ℕ) : Prop :=
  b.Promised len ((InPlace.ensureWritableBytes len).run b)

theorem keepsPromise_of_ok {len : ℕ} (h : b.ensureWritableBytes len = .ok b') :
    b.KeepsPromise len ↔ b.Promised len (.ok () b') := by
  rw [KeepsPromise, InPlace.run_ensureWritableBytes, h]
  rfl

theorem keepsPromise_of_error {len : ℕ} {e : Fault} (h : b.ensureWritableBytes len = .error e) :
    b.KeepsPromise len ↔ e = .lengthError := by
  rw [KeepsPromise, InPlace.run_ensureWritableBytes, h]
  exact and_iff_left rfl

/-- As long as `writerIndex_ + len` does not wrap, `ensureWritableBytes(len)` makes room or
throws. -/
theorem ensureWritableBytes_of_lt (hb : b.Valid) {len : ℕ} (h : b.writerIndex_ + len < 2 ^ 64) :
    (∃ b', b.ensureWritableBytes len = .ok b' ∧ Roomy b b' len) ∨
      b.ensureWritableBytes len = .error .lengthError := by
  by_cases hlen : len ≤ maxSize
  · exact (ensureWritableBytes_spec hb hlen).imp_right And.left
  · have hsize := hb.size_lt
    have hprepend := hb.prepend_le
    have hreader := hb.reader_le
    have hwriter := hb.writer_le
    unfold maxSize at hlen
    unfold kCheapPrepend at hprepend
    have hwritable := hb.writableBytes_eq
    -- neither sum wraps: the vector is too small for `len` bytes, and so is any vector
    have hroom : sizeWrap (b.writableBytes + b.prependableBytes) < sizeWrap (len + kCheapPrepend) := by
      unfold prependableBytes kCheapPrepend
      rw [sizeWrap_of_lt (by omega), sizeWrap_of_lt (by omega)]
      omega
    right
    rw [ensureWritableBytes, if_pos (by omega), makeSpace, if_pos hroom, sizeWrap_of_lt h,
      vectorResize, if_neg (by unfold maxSize; omega)]
    rfl

/-- The promise is kept exactly when `writerIndex_ + len` does not wrap. -/
theorem keepsPromise_iff (hb : b.Valid) {len : ℕ} (hlen : len < 2 ^ 64) :
    b.KeepsPromise len ↔ b.writerIndex_ + len < 2 ^ 64 := by
  have hsize := hb.size_lt
  have hwriter := hb.writer_le
  constructor
  · intro hkeeps
    cases h : b.ensureWritableBytes len with
    | error e =>
      obtain rfl := (keepsPromise_of_error h).1 hkeeps
      obtain ⟨-, hmax⟩ := ensureWritableBytes_lengthError h
      -- a sum that wrapped is below `writerIndex_`
      unfold maxSize sizeWrap at hmax
      omega
    | ok b' =>
      obtain ⟨hroom, -, -, -, hw⟩ := (keepsPromise_of_ok h).1 hkeeps
      have hmax := (hb.bounded.ensureWritableBytes h).size_le
      unfold maxSize at hmax
      rw [writableBytes, sizeSub_of_le hw (by omega)] at hroom
      omega
  · intro hlt
    rcases ensureWritableBytes_of_lt hb hlt with ⟨b', hb', hroomy⟩ | herr
    · have hv := hroomy.valid
      have hroom := hroomy.room
      refine (keepsPromise_of_ok hb').2 ⟨?_, hroomy.readable_eq, hv.prepend_le, hv.reader_le,
        hv.writer_le⟩
      rw [hv.writableBytes_eq]
      omega
    · exact (keepsPromise_of_error herr).2 rfl

/-! ## Over a run -/

/-- The call, when it is an `ensureWritableBytes`, keeps its promise. -/
def Call.KeepsPromise (b : Buffer) : Call → Prop
  | .ensureWritableBytes len _ => b.KeepsPromise len
  | _ => True

/-- The call, when it is an `ensureWritableBytes`, asks for a size that `makeSpace` can add to the
writer index. -/
def Call.NoWrap (b : Buffer) : Call → Prop
  | .ensureWritableBytes len _ => b.writerIndex_ + len < 2 ^ 64
  | _ => True

theorem Call.keepsPromise_iff_noWrap (hb : b.Valid) (c : Call) :
    c.KeepsPromise b ↔ c.NoWrap b := by
  cases c with
  | ensureWritableBytes len lt => exact keepsPromise_iff hb lt
  | _ => exact Iff.rfl

theorem full_valid (hb : b.Valid) : b.full.Valid := by
  have hwriter := hb.writer_le
  have hreader := hb.reader_le
  exact ⟨hb.prepend_le, Nat.le_trans hreader hwriter, Nat.le_refl _, hb.size_le⟩

theorem roomMade_valid (hb : b.Valid) {len : ℕ} (h : b.writerIndex_ + len < 2 ^ 64) :
    (b.roomMade len).Valid := by
  rw [roomMade]
  rcases ensureWritableBytes_of_lt hb h with ⟨b', hb', hroomy⟩ | herr
  · rw [hb']
    exact hroomy.valid
  · rw [herr]
    exact hb

theorem ReadCall.length_received_le (c : ReadCall) (b : Buffer) : (c.received b).length ≤ 2 := by
  have hiov := b.iovcnt_le
  unfold received
  split
  next bytes le _ => omega
  next => simp

/-- A call keeps the index invariant as long as no sum wraps, also when it throws. -/
theorem Call.next_valid (hb : b.Valid) {c : Call} (hc : c.NoWrap b) (h : c.next b = .ok b') :
    b'.Valid := by
  have hsize := hb.size_lt
  have hwriter := hb.writer_le
  have hmade := Call.next_ok h
  cases c with
  | append data le =>
    rcases hmade with hok | rfl
    · exact (append_ok hb le hok).2.1
    · unfold maxSize at le
      exact roomMade_valid hb (by omega)
  | ensureWritableBytes len lt =>
    rcases hmade with hok | rfl
    · have hvalid := roomMade_valid hb hc
      rwa [roomMade, hok] at hvalid
    · exact hb
  | retrieve len lt => exact hmade ▸ retrieve_valid hb len
  | retrieveAll => exact hmade ▸ retrieveAll_valid hb
  | retrieveAllAsString | retrieveAsString =>
    rcases hmade with rfl | rfl
    · exact retrieve_valid hb _
    · exact hb
  | readFd c =>
    rcases hmade with ⟨n, hok⟩ | rfl
    · exact (readFd_spec hb hok).1
    · have hshort := c.length_received_le b
      exact roomMade_valid (full_valid hb) (by simp only [full]; omega)

/-- **The promise, exactly**: over a run of any calls, caught exceptions included, every
`ensureWritableBytes(len)` keeps its promise if and only if at each of them `writerIndex_ + len`
stays below `2 ^ 64`. -/
theorem room_iff (initialSize : ℕ) (calls : List Call) :
    Along Call.next Call.KeepsPromise (construct initialSize) calls ↔
      Along Call.next Call.NoWrap (construct initialSize) calls :=
  along_iff_of_invariant (R := fun _ _ => True) (I := Valid)
    (fun _ _ _ hb _ hc h => Call.next_valid hb hc h)
    (fun _ c hb _ => c.keepsPromise_iff_noWrap hb) (construct_valid initialSize)
    (along_of_forall (fun _ _ => trivial) _ _)

/-- In a fresh buffer the request for `2 ^ 64 - 1` bytes wraps to a request for seven: it returns
with room for 1024. -/
theorem not_room_wrap :
    ¬∀ (initialSize : ℕ) (calls : List Call),
      Along Call.next Call.KeepsPromise (construct initialSize) calls := by
  intro h
  have hrun := h 0 [.ensureWritableBytes (2 ^ 64 - 1) (by decide)]
  rw [Along, Call.KeepsPromise, keepsPromise_iff (construct_valid 0) (by decide)] at hrun
  exact absurd hrun.1 (by decide)

end Muduo.Buffer
