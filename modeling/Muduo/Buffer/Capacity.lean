import Muduo.Buffer.Room

/-!
# The size of the vector

A vector only grows, and `makeSpace` grows it only when the consumed space would not do. `Within M`
says that a call never wants more than `M` bytes in the buffer. `capacity_le`: over a run within `M`
the size stays below a bound that depends on `M` alone, so that consumed space does not accumulate.

`capacity_iff` is about the argument of the constructor, which asks for a capacity and is not used:
runs within the requested size keep the vector they started with if and only if they are within
`kInitialSize`.
-/

namespace Muduo.Buffer

open Memory Run

/-- The call leaves at most `M` bytes wanted in the buffer; a string is taken from the contents. -/
def Op.Within (M : ℕ) (b : Buffer) : Op → Prop
  | .append data => b.readableBytes + data.length ≤ M
  | .ensureWritableBytes len => b.readableBytes + len ≤ M
  | .retrieveAsString len => len ≤ b.readableBytes
  | .retrieve _ | .retrieveAll | .retrieveAllAsString => True

instance (M : ℕ) (b : Buffer) : ∀ op : Op, Decidable (op.Within M b)
  | .append data => inferInstanceAs (Decidable (b.readableBytes + data.length ≤ M))
  | .ensureWritableBytes len => inferInstanceAs (Decidable (b.readableBytes + len ≤ M))
  | .retrieveAsString len => inferInstanceAs (Decidable (len ≤ b.readableBytes))
  | .retrieve _ | .retrieveAll | .retrieveAllAsString => inferInstanceAs (Decidable True)

/-- The room the call asked for is there; the other calls have used theirs when they return. -/
def Op.HasRoom (b : Buffer) : Op → Prop
  | .ensureWritableBytes len => len ≤ b.writableBytes
  | _ => True

/-- The buffer after the call. -/
def Op.next (b : Buffer) (op : Op) : Except Fault Buffer := do return (← op.exec b).2

variable {b b' : Buffer}

theorem Op.next_ok {op : Op} : op.next b = .ok b' ↔ ∃ s, op.exec b = .ok (s, b') := by
  rw [next, bind_eq_ok]
  constructor
  · rintro ⟨⟨s, b''⟩, hexec, hret⟩
    obtain rfl := Except.ok.inj hret
    exact ⟨s, hexec⟩
  · rintro ⟨s, hexec⟩
    exact ⟨(s, b'), hexec, rfl⟩

/-! ## One call -/

/-- Growing is left for the case that the consumed space, with the writable space, is short of
`len`. -/
theorem Valid.lt_of_grows (hb : b.Valid) {len : ℕ} (hlen : len ≤ maxSize) (h : b.Grows len) :
    b.buffer_.length < b.writerIndex_ + len ∧
      b.buffer_.length + b.readerIndex_ < b.writerIndex_ + len + kCheapPrepend := by
  obtain ⟨hfit, hroom⟩ := h
  have hsize := hb.size_lt
  have hreader := hb.reader_le
  have hwriter := hb.writer_le
  rw [hb.writableBytes_eq] at hfit hroom
  unfold maxSize at hlen
  rw [prependableBytes, sizeWrap_of_lt (by omega),
    sizeWrap_of_lt (by unfold kCheapPrepend; omega)] at hroom
  omega

/-- The size after the call: unchanged, or the `writerIndex_ + len` it had to grow to. -/
structure Sized (b b' : Buffer) (len : ℕ) : Prop where
  roomy : Roomy b b' len
  size_eq : b'.buffer_.length = b.buffer_.length ∨
    b'.buffer_.length = b.writerIndex_ + len ∧ b.buffer_.length < b.writerIndex_ + len ∧
      b.buffer_.length + b.readerIndex_ < b.writerIndex_ + len + kCheapPrepend

theorem ensureWritableBytes_sized (hb : b.Valid) {len : ℕ} (hlen : len ≤ maxSize) :
    (∃ b', b.ensureWritableBytes len = .ok b' ∧ Sized b b' len) ∨
      b.ensureWritableBytes len = .error .lengthError ∧ maxSize < b.writerIndex_ + len ∧
        b.buffer_.length + b.readerIndex_ < b.writerIndex_ + len + kCheapPrepend := by
  have hsize := hb.size_lt
  have hwriter := hb.writer_le
  have hwrap : sizeWrap (b.writerIndex_ + len) = b.writerIndex_ + len := by
    unfold maxSize at hlen
    exact sizeWrap_of_lt (by omega)
  rcases ensureWritableBytes_spec hb hlen with ⟨b', hb', hroomy⟩ | ⟨herr, hmax⟩
  · refine .inl ⟨b', hb', hroomy, ?_⟩
    rcases ensureWritableBytes_cases hb' with ⟨-, rfl⟩ | ⟨hgrows, hlen', -⟩ | ⟨-, hlen', -⟩
    · exact .inl rfl
    · exact .inr ⟨by rw [hlen', hwrap], hb.lt_of_grows hlen hgrows⟩
    · exact .inl hlen'
  · exact .inr ⟨herr, hmax, (hb.lt_of_grows hlen (ensureWritableBytes_lengthError herr).1).2⟩

theorem buffer_retrieve (b : Buffer) (len : ℕ) : (b.retrieve len).buffer_ = b.buffer_ := by
  rw [retrieve]
  split <;> rfl

theorem Op.next_retrieveAsString (hb : b.Valid) {len : ℕ} (hlen : len ≤ b.readableBytes) :
    (Op.retrieveAsString len).next b = .ok (b.retrieve len) :=
  Op.next_ok.2 ⟨_, retrieveAsString_eq hb hlen⟩

/-- Every call within `M` does to the size of the vector what `ensureWritableBytes` within `M`
does. -/
theorem Op.next_of_room (hb : b.Valid) {M : ℕ} {P : ℕ → Prop} (hP : P b.buffer_.length)
    (hroom : ∀ len, b.readableBytes + len ≤ M →
      ∃ b', b.ensureWritableBytes len = .ok b' ∧ Roomy b b' len ∧ P b'.buffer_.length)
    {op : Op} (h : op.Within M b) :
    ∃ b', op.next b = .ok b' ∧ b'.Valid ∧ P b'.buffer_.length ∧ op.HasRoom b' := by
  have hkept : ∀ len, P (b.retrieve len).buffer_.length := by
    intro len
    rwa [buffer_retrieve]
  cases op with
  | append data =>
    obtain ⟨b₁, hens, hroomy, hsize⟩ := hroom _ h
    obtain ⟨b', happend, hv, -, hsame⟩ := append_of_roomy (Nat.le_refl _) hens hroomy
    refine ⟨b', Op.next_ok.2 ⟨[], ?_⟩, hv, hsame ▸ hsize, trivial⟩
    rw [exec, happend]
    rfl
  | ensureWritableBytes len =>
    obtain ⟨b', hens, hroomy, hsize⟩ := hroom _ h
    have hwritable := hroomy.room
    refine ⟨b', Op.next_ok.2 ⟨[], ?_⟩, hroomy.valid, hsize, ?_⟩
    · rw [exec, hens]
      rfl
    · rw [HasRoom, hroomy.valid.writableBytes_eq]
      omega
  | retrieve len => exact ⟨b.retrieve len, rfl, retrieve_valid hb len, hkept len, trivial⟩
  | retrieveAll => exact ⟨b.retrieveAll, rfl, retrieveAll_valid hb, hP, trivial⟩
  | retrieveAllAsString =>
    exact ⟨_, next_retrieveAsString hb (Nat.le_refl _), retrieve_valid hb _, hkept _, trivial⟩
  | retrieveAsString len =>
    exact ⟨_, next_retrieveAsString hb h, retrieve_valid hb _, hkept _, trivial⟩

/-! ## Within a bound -/

/-- The bound on the size of the vector over a run within `M`. -/
def sizeBound (M : ℕ) : ℕ := max (kCheapPrepend + kInitialSize) (2 * M + kCheapPrepend - 1)

/-- Growing within `M` ends at a size within the bound: the consumed space it carries along is less
than `len` and the prepended space. -/
theorem ensureWritableBytes_within (hb : b.Valid) {M len : ℕ}
    (hM : 2 * M + kCheapPrepend - 1 ≤ maxSize) (hlen : b.readableBytes + len ≤ M)
    (hbound : b.buffer_.length ≤ sizeBound M) :
    ∃ b', b.ensureWritableBytes len = .ok b' ∧ Roomy b b' len ∧
      b.buffer_.length ≤ b'.buffer_.length ∧ b'.buffer_.length ≤ sizeBound M := by
  have hreader := hb.reader_le
  have hwriter := hb.writer_le
  rw [hb.readableBytes_eq] at hlen
  unfold sizeBound at hbound ⊢
  unfold kCheapPrepend at hM hbound ⊢
  rcases ensureWritableBytes_sized hb (by omega : len ≤ maxSize) with
    ⟨b', hb', hroomy, hsize⟩ | ⟨-, hmax, hgrow⟩
  · refine ⟨b', hb', hroomy, ?_⟩
    unfold kCheapPrepend at hsize
    omega
  · unfold kCheapPrepend at hgrow
    omega

/-- A call within `M` returns, does not shrink the vector and keeps it within the bound. -/
theorem Op.next_within (hb : b.Valid) {M : ℕ} (hM : 2 * M + kCheapPrepend - 1 ≤ maxSize)
    (hbound : b.buffer_.length ≤ sizeBound M) {op : Op} (h : op.Within M b) :
    ∃ b', op.next b = .ok b' ∧ b'.Valid ∧ b.buffer_.length ≤ b'.buffer_.length ∧
      b'.buffer_.length ≤ sizeBound M := by
  obtain ⟨b', hb', hv, hsize, -⟩ :=
    Op.next_of_room (P := fun n => b.buffer_.length ≤ n ∧ n ≤ sizeBound M) hb
      ⟨Nat.le_refl _, hbound⟩ (fun _ hlen => ensureWritableBytes_within hb hM hlen hbound) h
  exact ⟨b', hb', hv, hsize⟩

/-- The call does not shrink the vector and leaves its size within `bound`. -/
def Op.Bounded (bound : ℕ) (b : Buffer) (op : Op) : Prop :=
  ∀ b', op.next b = .ok b' →
    b.buffer_.length ≤ b'.buffer_.length ∧ b'.buffer_.length ≤ bound

/-- **The memory of a buffer is bounded by its live contents**: a run of any length within `M`
returns, never shrinks the vector, and never takes it past a bound that depends on `M` alone. -/
theorem capacity_le (initialSize M : ℕ) (hM : 2 * M + kCheapPrepend - 1 ≤ maxSize) (ops : List Op)
    (h : Along Op.next (Op.Within M) (construct initialSize) ops) :
    (∃ b, run Op.next (construct initialSize) ops = .ok b ∧ b.buffer_.length ≤
        max (kCheapPrepend + kInitialSize) (2 * M + kCheapPrepend - 1)) ∧
      Along Op.next
        (Op.Bounded (max (kCheapPrepend + kInitialSize) (2 * M + kCheapPrepend - 1)))
        (construct initialSize) ops := by
  have hstart : (construct initialSize).Valid ∧
      (construct initialSize).buffer_.length ≤ sizeBound M :=
    ⟨construct_valid initialSize, by
      rw [construct, List.length_replicate]
      exact Nat.le_max_left _ _⟩
  constructor
  · obtain ⟨b, hrun, -, hle⟩ := h.progress
      (I := fun b => b.Valid ∧ b.buffer_.length ≤ sizeBound M) (by
        rintro b op ⟨hv, hbound⟩ hop
        obtain ⟨b', hb', hv', -, hle⟩ := op.next_within hv hM hbound hop
        exact ⟨b', hb', hv', hle⟩) hstart
    exact ⟨b, hrun, hle⟩
  · refine h.imp (I := fun b => b.Valid ∧ b.buffer_.length ≤ sizeBound M) ?_ ?_ hstart
    · rintro b op b' ⟨hv, hbound⟩ hop hb'
      obtain ⟨b'', hb'', hv', -, hle⟩ := op.next_within hv hM hbound hop
      obtain rfl := Except.ok.inj (hb''.symm.trans hb')
      exact ⟨hv', hle⟩
    · rintro b op ⟨hv, hbound⟩ hop b' hb'
      obtain ⟨b'', hb'', -, hgrow, hle⟩ := op.next_within hv hM hbound hop
      obtain rfl := Except.ok.inj (hb''.symm.trans hb')
      exact ⟨hgrow, hle⟩

/-- Growing for 1100 bytes carries 1000 consumed bytes along, to a size of 2108. -/
theorem capacity_le_carried :
    (∃ b, run Op.next (construct 0) [.append (List.replicate 1000 1), .retrieve 1000,
        .ensureWritableBytes 1100] = .ok b ∧ b.buffer_.length ≤
          max (kCheapPrepend + kInitialSize) (2 * 1100 + kCheapPrepend - 1)) ∧
      Along Op.next
        (Op.Bounded (max (kCheapPrepend + kInitialSize) (2 * 1100 + kCheapPrepend - 1)))
        (construct 0) [.append (List.replicate 1000 1), .retrieve 1000,
          .ensureWritableBytes 1100] :=
  capacity_le 0 1100 (by decide) _ (by decide +kernel)

/-! ## The requested capacity -/

/-- The call returns with the vector it found: any room it needed came from compaction. -/
def Op.Keeps (b : Buffer) (op : Op) : Prop :=
  ∃ b', op.next b = .ok b' ∧ b'.buffer_.length = b.buffer_.length ∧ op.HasRoom b'

/-- The vector has the size of the constructor. -/
structure Initial (b : Buffer) : Prop where
  valid : b.Valid
  size_eq : b.buffer_.length = kCheapPrepend + kInitialSize

theorem construct_initial (initialSize : ℕ) : (construct initialSize).Initial :=
  ⟨construct_valid initialSize, by rw [construct, List.length_replicate]⟩

/-- Whatever `ensureWritableBytes` does, the readable bytes stay behind the prepended space and
within the old vector. -/
theorem writerIndex_ensureWritableBytes (hb : b.Valid) {len : ℕ}
    (h : b.ensureWritableBytes len = .ok b') :
    kCheapPrepend + b.readableBytes ≤ b'.writerIndex_ ∧ b'.writerIndex_ ≤ b.buffer_.length := by
  have hsize := hb.size_lt
  have hprepend := hb.prepend_le
  have hreader := hb.reader_le
  have hwriter := hb.writer_le
  have hreadable := hb.readableBytes_eq
  rcases ensureWritableBytes_cases h with ⟨-, rfl⟩ | ⟨-, -, -, -, hw⟩ | ⟨-, -, -, hw⟩
  · omega
  · omega
  · rw [hw, sizeWrap_of_lt (by unfold kCheapPrepend; omega)]
    omega

/-- In a vector of the initial size, compaction is enough for `kInitialSize` bytes. -/
theorem ensureWritableBytes_initial (hb : b.Initial) {len : ℕ}
    (h : b.readableBytes + len ≤ kInitialSize) :
    ∃ b', b.ensureWritableBytes len = .ok b' ∧ Roomy b b' len ∧
      b'.buffer_.length = b.buffer_.length := by
  have hsize := hb.size_eq
  have hprepend := hb.valid.prepend_le
  have hreader := hb.valid.reader_le
  have hwriter := hb.valid.writer_le
  have hlen : len ≤ maxSize := by
    refine Nat.le_trans (Nat.le_trans (Nat.le_add_left _ _) h) (by decide)
  rw [hb.valid.readableBytes_eq] at h
  rcases ensureWritableBytes_sized hb.valid hlen with ⟨b', hb', hroomy, hsized⟩ | ⟨-, -, hgrow⟩
  · exact ⟨b', hb', hroomy, by omega⟩
  · omega

/-- Conversely, no other call finds its room in it. -/
theorem readableBytes_add_le (hb : b.Initial) {len : ℕ} (h : b.ensureWritableBytes len = .ok b')
    (hsize : b'.buffer_.length = b.buffer_.length)
    (hroom : b'.writerIndex_ + len ≤ b'.buffer_.length) :
    b.readableBytes + len ≤ kInitialSize := by
  have hinitial := hb.size_eq
  obtain ⟨hwriter, -⟩ := writerIndex_ensureWritableBytes hb.valid h
  omega

/-- A call within `kInitialSize` keeps the vector. -/
theorem Op.keeps_of_within (hb : b.Initial) {op : Op} (h : op.Within kInitialSize b) :
    ∃ b', op.next b = .ok b' ∧ b'.Initial ∧ op.HasRoom b' := by
  obtain ⟨b', hb', hv, hsize, hroom⟩ :=
    Op.next_of_room (P := fun n => n = b.buffer_.length) hb.valid rfl
      (fun _ hlen => ensureWritableBytes_initial hb hlen) h
  exact ⟨b', hb', ⟨hv, hsize.trans hb.size_eq⟩, hroom⟩

/-- Under any bound, a call keeps the vector exactly when it is within `kInitialSize`. -/
theorem Op.keeps_iff_within (hb : b.Initial) {M : ℕ} {op : Op} (hM : op.Within M b) :
    op.Keeps b ↔ op.Within kInitialSize b := by
  constructor
  · rintro ⟨b', hnext, hsize, hroom⟩
    obtain ⟨s, hexec⟩ := Op.next_ok.1 hnext
    cases op with
    | append data =>
      obtain ⟨b'', happend, hret⟩ := bind_eq_ok.1 hexec
      obtain ⟨-, rfl⟩ := Prod.mk.inj (Except.ok.inj hret)
      obtain ⟨b₁, hens, hroom, hlen, -⟩ := append_cases happend
      exact readableBytes_add_le hb hens (hlen.symm.trans hsize) hroom
    | ensureWritableBytes len =>
      obtain ⟨b'', hens, hret⟩ := bind_eq_ok.1 hexec
      obtain ⟨-, rfl⟩ := Prod.mk.inj (Except.ok.inj hret)
      obtain ⟨-, hwriter⟩ := writerIndex_ensureWritableBytes hb.valid hens
      have hlt := hb.valid.size_lt
      rw [HasRoom, writableBytes, sizeSub_of_le (by omega) (by omega)] at hroom
      exact readableBytes_add_le hb hens hsize (by omega)
    | retrieveAsString len => exact hM
    | retrieve | retrieveAll | retrieveAllAsString => trivial
  · intro h
    obtain ⟨b', hnext, hinitial, hroom⟩ := op.keeps_of_within hb h
    exact ⟨b', hnext, hinitial.size_eq.trans hb.size_eq.symm, hroom⟩

theorem Op.next_initial (hb : b.Initial) {op : Op} (h : op.Within kInitialSize b)
    (hnext : op.next b = .ok b') : b'.Initial := by
  obtain ⟨b'', hnext', hinitial, -⟩ := op.keeps_of_within hb h
  obtain rfl := Except.ok.inj (hnext'.symm.trans hnext)
  exact hinitial

theorem Op.Within.mono {M N : ℕ} (hMN : M ≤ N) {op : Op} (h : op.Within M b) :
    op.Within N b := by
  cases op with
  | append | ensureWritableBytes => exact Nat.le_trans h hMN
  | retrieveAsString => exact h
  | retrieve | retrieveAll | retrieveAllAsString => trivial

theorem along_keeps_iff (initialSize : ℕ) {M : ℕ} {ops : List Op}
    (h : Along Op.next (Op.Within M) (construct initialSize) ops) :
    Along Op.next Op.Keeps (construct initialSize) ops ↔
      Along Op.next (Op.Within kInitialSize) (construct initialSize) ops :=
  along_iff_of_invariant (I := Initial) (fun _ _ _ hb _ hop hnext => Op.next_initial hb hop hnext)
    (fun _ _ hb hM => Op.keeps_iff_within hb hM) (construct_initial initialSize) h

/-- **The requested capacity, exactly**: a run within `initialSize` never resizes the vector if and
only if it is within `kInitialSize`; so the argument of the constructor is honoured up to
`kInitialSize` and no further. -/
theorem capacity_iff (initialSize : ℕ) :
    (∀ ops, Along Op.next (Op.Within initialSize) (construct initialSize) ops →
      (Along Op.next Op.Keeps (construct initialSize) ops ↔
        Along Op.next (Op.Within kInitialSize) (construct initialSize) ops)) ∧
      ((∀ ops, Along Op.next (Op.Within initialSize) (construct initialSize) ops →
        Along Op.next Op.Keeps (construct initialSize) ops) ↔ initialSize ≤ kInitialSize) := by
  refine ⟨fun ops h => along_keeps_iff initialSize h, ?_, ?_⟩
  · intro h
    -- a fresh buffer asked for all of the requested capacity
    have hzero : (construct initialSize).readableBytes = 0 :=
      (construct_valid initialSize).readableBytes_eq_zero.2 (readable_construct initialSize)
    have hwithin : Along Op.next (Op.Within initialSize) (construct initialSize)
        [.ensureWritableBytes initialSize] := by
      refine ⟨?_, fun _ _ => trivial⟩
      simp [Op.Within, hzero]
    obtain ⟨hinitial, -⟩ := (along_keeps_iff initialSize hwithin).1 (h _ hwithin)
    rwa [Op.Within, hzero, Nat.zero_add] at hinitial
  · intro hle ops h
    refine (along_keeps_iff initialSize h).2 ?_
    exact h.imp (I := Initial) (fun _ _ _ hb hop hnext => Op.next_initial hb (hop.mono hle) hnext)
      (fun _ _ _ hop => hop.mono hle) (construct_initial initialSize)

/-- A buffer made for 2048 bytes grows when 1025 are appended to it. -/
theorem not_keeps_construct :
    ¬∀ (initialSize : ℕ) (ops : List Op),
      Along Op.next (Op.Within initialSize) (construct initialSize) ops →
        Along Op.next Op.Keeps (construct initialSize) ops := by
  intro h
  obtain ⟨⟨b', hnext, hsize, -⟩, -⟩ :=
    h 2048 [.append (List.replicate 1025 1)] (by decide +kernel)
  have hgrown : ((Op.append (List.replicate 1025 1)).next (construct 2048)).map
      (fun b => b.buffer_.length) = .ok 1033 := by decide +kernel
  rw [hnext] at hgrown
  have hlen : b'.buffer_.length = 1033 := Except.ok.inj hgrown
  have hsize' := (construct_initial 2048).size_eq
  unfold kCheapPrepend kInitialSize at hsize'
  omega

end Muduo.Buffer
