import Muduo.Machine

/-!
# The buffer

`Buffer` is a vector of bytes with two indices into it: `[readerIndex_, writerIndex_)` holds the
readable bytes, `[writerIndex_, buffer_.size())` is writable, and what lies below `readerIndex_` is
space that a later append may reclaim. The functions below follow `Buffer.h`; all index arithmetic
is that of `size_t`, and every access outside the vector is a `Fault`.

`Buffer.Valid` is the index invariant and `Buffer.readable` the contents. Each operation has one
lemma that says what it does to them, and nothing above this file looks inside the vector.
-/

namespace Muduo

open Memory Run

/-- `Buffer`. -/
structure Buffer where
  buffer_ : List UInt8
  readerIndex_ : ℕ
  writerIndex_ : ℕ
  deriving DecidableEq

namespace Buffer

/-- The room kept free in front of the data. -/
def kCheapPrepend : ℕ := 8

/-- The room for data that a buffer starts with. -/
def kInitialSize : ℕ := 1024

/-- The constructor. The source sizes the vector by `kInitialSize` and leaves its argument unused. -/
def construct (_initialSize : ℕ) : Buffer where
  buffer_ := List.replicate (kCheapPrepend + kInitialSize) 0
  readerIndex_ := kCheapPrepend
  writerIndex_ := kCheapPrepend

/-- The number of bytes between the indices; the difference wraps. -/
def readableBytes (b : Buffer) : ℕ := sizeSub b.writerIndex_ b.readerIndex_

/-- The number of bytes behind the data. -/
def writableBytes (b : Buffer) : ℕ := sizeSub b.buffer_.length b.writerIndex_

/-- The number of bytes in front of the data. -/
def prependableBytes (b : Buffer) : ℕ := b.readerIndex_

/-- `retrieveAll`: both indices go back to the start. -/
def retrieveAll (b : Buffer) : Buffer :=
  { b with readerIndex_ := kCheapPrepend, writerIndex_ := kCheapPrepend }

/-- `retrieve(len)`: the reader goes on by `len` bytes, or everything is retrieved. -/
def retrieve (b : Buffer) (len : ℕ) : Buffer :=
  if len ≤ b.readableBytes then { b with readerIndex_ := sizeWrap (b.readerIndex_ + len) }
  else b.retrieveAll

/-- `retrieveAsString(len)`: the string is read before `len` is compared with anything. -/
def retrieveAsString (b : Buffer) (len : ℕ) : Except Fault (List UInt8 × Buffer) := do
  let result ← makeString b.buffer_ b.readerIndex_ len
  return (result, b.retrieve len)

/-- `retrieveAllAsString`, of all readable bytes. -/
def retrieveAllAsString (b : Buffer) : Except Fault (List UInt8 × Buffer) :=
  b.retrieveAsString b.readableBytes

/-- `makeSpace(len)`: the vector grows when front and back together are too small, or the data moves
to the front. -/
def makeSpace (b : Buffer) (len : ℕ) : Except Fault Buffer :=
  if sizeWrap (b.writableBytes + b.prependableBytes) < sizeWrap (len + kCheapPrepend) then do
    let v ← vectorResize b.buffer_ (sizeWrap (b.writerIndex_ + len))
    return { b with buffer_ := v }
  else do
    let readable := b.readableBytes
    let v ← stdCopy b.buffer_ b.readerIndex_ b.writerIndex_ kCheapPrepend
    return ⟨v, kCheapPrepend, sizeWrap (kCheapPrepend + readable)⟩

/-- `ensureWritableBytes(len)`: room is made when there is too little behind the data. -/
def ensureWritableBytes (b : Buffer) (len : ℕ) : Except Fault Buffer :=
  if b.writableBytes < len then b.makeSpace len else .ok b

/-- `append(data, len)`; `data` is the memory its first argument points to. -/
def append (b : Buffer) (data : List UInt8) (len : ℕ) : Except Fault Buffer := do
  let b ← b.ensureWritableBytes len
  let bytes ← readBytes data 0 len
  let v ← storeBytes b.buffer_ b.writerIndex_ bytes
  return { b with buffer_ := v, writerIndex_ := sizeWrap (b.writerIndex_ + len) }

/-- `writeFd`: one `::write` of the readable bytes, which stay in the buffer. -/
def writeFd (b : Buffer) (write : Write) : Except Fault Wrote :=
  sysWrite b.buffer_ b.readerIndex_ b.readableBytes write

/-- The size of `extraBuffer` in `readFd`. -/
def kExtraBuffer : ℕ := 65536

/-- `readFd`; `extraBuffer` is what the uninitialised stack array holds. The call is
`::recv(fd, &vec, iovcnt, 0)`: the kernel is given the array of the two `iovec`s as its destination
and their number as the size of it, so that what it receives lands in that array, which nothing
reads. The indices then move as if it had landed in the buffer and in `extraBuffer`. -/
def readFd (b : Buffer) (recv : Recv) (extraBuffer : List UInt8) : Except Fault (ℤ × Buffer) :=
  let writable := b.writableBytes
  let iovcnt := if writable < kExtraBuffer then 2 else 1
  match recv iovcnt with
  | .failed _ => .ok (-1, b)
  | .received bytes _ =>
    let n := bytes.length
    if n ≤ writable then .ok (n, { b with writerIndex_ := sizeWrap (b.writerIndex_ + n) })
    else do
      let b ← append { b with writerIndex_ := b.buffer_.length } extraBuffer (sizeSub n writable)
      return (n, b)

/-! ## The index invariant and the contents -/

/-- The index invariant. -/
structure Valid (b : Buffer) : Prop where
  prepend_le : kCheapPrepend ≤ b.readerIndex_
  reader_le : b.readerIndex_ ≤ b.writerIndex_
  writer_le : b.writerIndex_ ≤ b.buffer_.length
  size_le : b.buffer_.length ≤ maxSize

/-- The readable bytes. -/
def readable (b : Buffer) : List UInt8 :=
  slice b.buffer_ b.readerIndex_ (b.writerIndex_ - b.readerIndex_)

theorem construct_valid (initialSize : ℕ) : (construct initialSize).Valid := by
  have hlen : (construct initialSize).buffer_.length = kCheapPrepend + kInitialSize :=
    List.length_replicate
  refine ⟨Nat.le_refl _, Nat.le_refl _, ?_, ?_⟩
  · rw [hlen]
    exact Nat.le_add_right _ _
  · rw [hlen]
    decide

@[simp] theorem readable_construct (initialSize : ℕ) : (construct initialSize).readable = [] := by
  simp only [readable, construct, Nat.sub_self, slice_zero]

variable {b : Buffer}

theorem Valid.size_lt (hb : b.Valid) : b.buffer_.length < 2 ^ 63 := by
  have := hb.size_le
  unfold maxSize at this
  omega

theorem Valid.readableBytes_eq (hb : b.Valid) :
    b.readableBytes = b.writerIndex_ - b.readerIndex_ := by
  have := hb.size_lt
  have := hb.writer_le
  exact sizeSub_of_le hb.reader_le (by omega)

theorem Valid.writableBytes_eq (hb : b.Valid) :
    b.writableBytes = b.buffer_.length - b.writerIndex_ := by
  have := hb.size_lt
  exact sizeSub_of_le hb.writer_le (by omega)

theorem Valid.length_readable (hb : b.Valid) : b.readable.length = b.readableBytes := by
  have := hb.reader_le
  have := hb.writer_le
  rw [hb.readableBytes_eq, readable, length_slice (by omega)]

theorem Valid.readableBytes_eq_zero (hb : b.Valid) : b.readableBytes = 0 ↔ b.readable = [] := by
  rw [← hb.length_readable, List.length_eq_zero_iff]

/-! ## Retrieving -/

theorem retrieveAll_valid (hb : b.Valid) : b.retrieveAll.Valid := by
  have := hb.prepend_le
  have := hb.reader_le
  have := hb.writer_le
  exact ⟨Nat.le_refl _, Nat.le_refl _, by simp only [retrieveAll]; omega, hb.size_le⟩

@[simp] theorem readable_retrieveAll (b : Buffer) : b.retrieveAll.readable = [] := by
  simp [readable, retrieveAll]

theorem retrieve_valid (hb : b.Valid) (len : ℕ) : (b.retrieve len).Valid := by
  unfold retrieve
  split
  next h =>
    rw [hb.readableBytes_eq] at h
    have := hb.size_lt
    have := hb.prepend_le
    have := hb.reader_le
    have := hb.writer_le
    rw [sizeWrap_of_lt (by omega)]
    exact ⟨by simp only; omega, by simp only; omega, hb.writer_le, hb.size_le⟩
  next => exact retrieveAll_valid hb

/-- `retrieve` drops `min(len, readableBytes())` bytes. -/
theorem readable_retrieve (hb : b.Valid) (len : ℕ) :
    (b.retrieve len).readable = b.readable.drop len := by
  unfold retrieve
  split
  next h =>
    rw [hb.readableBytes_eq] at h
    have := hb.size_lt
    have := hb.reader_le
    have := hb.writer_le
    rw [sizeWrap_of_lt (by omega), readable, readable, drop_slice]
    simp only
    congr 1
    omega
  next h =>
    rw [readable_retrieveAll, eq_comm, List.drop_eq_nil_iff, hb.length_readable]
    omega

/-- Of the readable bytes, the string is the first `len`. -/
theorem retrieveAsString_eq (hb : b.Valid) {len : ℕ} (hlen : len ≤ b.readableBytes) :
    b.retrieveAsString len = .ok (b.readable.take len, b.retrieve len) := by
  have hlen' := hlen
  rw [hb.readableBytes_eq] at hlen'
  have := hb.size_lt
  have := hb.reader_le
  have := hb.writer_le
  have hread : readBytes b.buffer_ b.readerIndex_ len = .ok (b.readable.take len) :=
    readBytes_ok.2 ⟨by omega, (take_slice _ _ hlen').symm⟩
  rw [retrieveAsString, makeString, if_pos (by unfold maxSize; omega), hread]
  rfl

/-! ## Making room -/

/-- `ensureWritableBytes(len)` copies the readable bytes down instead of growing the vector. -/
def Compacts (b : Buffer) (len : ℕ) : Prop :=
  b.writableBytes < len ∧
    ¬sizeWrap (b.writableBytes + b.prependableBytes) < sizeWrap (len + kCheapPrepend)

/-- What a successful `ensureWritableBytes(len)` leaves: the contents, and room for `len` bytes. -/
structure Roomy (b b' : Buffer) (len : ℕ) : Prop where
  valid : b'.Valid
  readable_eq : b'.readable = b.readable
  room : b'.writerIndex_ + len ≤ b'.buffer_.length

/-- Growing keeps the contents where they are. -/
theorem roomy_resize (hb : b.Valid) {len : ℕ} (h : b.buffer_.length ≤ b.writerIndex_ + len)
    (hmax : b.writerIndex_ + len ≤ maxSize) :
    Roomy b { b with buffer_ := b.buffer_ ++ List.replicate (b.writerIndex_ + len - b.buffer_.length) 0 }
      len := by
  have hlen : (b.buffer_ ++ List.replicate (b.writerIndex_ + len - b.buffer_.length) 0).length =
      b.writerIndex_ + len := by
    rw [List.length_append, List.length_replicate]
    omega
  have := hb.writer_le
  have := hb.reader_le
  exact ⟨⟨hb.prepend_le, hb.reader_le, by simp only [hlen]; omega, by simp only [hlen]; omega⟩,
    slice_append_of_le (by simp only; omega), by simp only [hlen]; omega⟩

/-- The slide needs consumed space in front of the readable bytes, for `len` within `max_size()`. -/
theorem reader_lt_of_compacts (hb : b.Valid) {len : ℕ} (hlen : len ≤ maxSize)
    (h : b.Compacts len) :
    kCheapPrepend < b.readerIndex_ ∧
      b.writerIndex_ - b.readerIndex_ + len + kCheapPrepend ≤ b.buffer_.length := by
  obtain ⟨hw, hroom⟩ := h
  have := hb.size_lt
  have := hb.reader_le
  have := hb.writer_le
  rw [hb.writableBytes_eq] at hw hroom
  unfold maxSize at hlen
  rw [prependableBytes, sizeWrap_of_lt (by omega),
    sizeWrap_of_lt (by unfold kCheapPrepend; omega)] at hroom
  omega

/-- Sliding keeps the contents and turns the consumed space into writable space. -/
theorem roomy_slide (hb : b.Valid) {len : ℕ} (hlen : len ≤ maxSize) (h : b.Compacts len) :
    ∃ v, stdCopy b.buffer_ b.readerIndex_ b.writerIndex_ kCheapPrepend = .ok v ∧
      Roomy b ⟨v, kCheapPrepend, sizeWrap (kCheapPrepend + b.readableBytes)⟩ len := by
  obtain ⟨hreader, hroom⟩ := reader_lt_of_compacts hb hlen h
  have hsize := hb.size_lt
  have hr := hb.reader_le
  have hw := hb.writer_le
  have hk : (slice b.buffer_ b.readerIndex_ (b.writerIndex_ - b.readerIndex_)).length =
      b.writerIndex_ - b.readerIndex_ := length_slice (by omega)
  refine ⟨overwrite b.buffer_ kCheapPrepend b.readable, ?_, ?_⟩
  · rw [stdCopy, if_pos ⟨hr, hw, by omega, by omega⟩,
      copyForward_eq_overwrite _ hreader (by omega), readable]
  · have hover : (overwrite b.buffer_ kCheapPrepend b.readable).length = b.buffer_.length :=
      length_overwrite (by rw [readable, hk]; omega)
    rw [hb.readableBytes_eq, sizeWrap_of_lt (by omega)]
    refine ⟨⟨Nat.le_refl _, by simp only; omega, by simp only [hover]; omega, ?_⟩, ?_, ?_⟩
    · simp only [hover]
      exact hb.size_le
    · have hstored : slice (overwrite b.buffer_ kCheapPrepend b.readable) kCheapPrepend
          b.readable.length = b.readable := slice_overwrite (by omega)
      simp only [readable, Nat.add_sub_cancel_left] at hstored ⊢
      rwa [hk] at hstored
    · simp only [hover]
      omega

/-- **`ensureWritableBytes`** makes room for `len` bytes and keeps the contents, or throws because
the vector would pass `max_size()`. -/
theorem ensureWritableBytes_spec (hb : b.Valid) {len : ℕ} (hlen : len ≤ maxSize) :
    (∃ b', b.ensureWritableBytes len = .ok b' ∧ Roomy b b' len) ∨
      b.ensureWritableBytes len = .error .lengthError ∧ maxSize < b.writerIndex_ + len := by
  have hsize := hb.size_lt
  have hw := hb.writer_le
  have hlen' : len < 2 ^ 63 := by
    unfold maxSize at hlen
    omega
  by_cases hfit : b.writableBytes < len
  · by_cases hgrow : sizeWrap (b.writableBytes + b.prependableBytes) < sizeWrap (len + kCheapPrepend)
    · rw [ensureWritableBytes, if_pos hfit, makeSpace, if_pos hgrow, sizeWrap_of_lt (by omega)]
      rw [hb.writableBytes_eq] at hfit
      by_cases hmax : b.writerIndex_ + len ≤ maxSize
      · refine .inl ⟨_, ?_, roomy_resize hb (by omega) hmax⟩
        rw [vectorResize, if_pos hmax, List.take_of_length_le (by omega)]
        rfl
      · refine .inr ⟨?_, by omega⟩
        rw [vectorResize, if_neg hmax]
        rfl
    · obtain ⟨v, hv, hroomy⟩ := roomy_slide hb hlen ⟨hfit, hgrow⟩
      refine .inl ⟨_, ?_, hroomy⟩
      rw [ensureWritableBytes, if_pos hfit, makeSpace, if_neg hgrow, hv]
      rfl
  · refine .inl ⟨b, by rw [ensureWritableBytes, if_neg hfit], hb, rfl, ?_⟩
    rw [hb.writableBytes_eq] at hfit
    omega

/-! ## Appending -/

/-- Storing behind the readable bytes. -/
theorem readable_store (hb : b.Valid) (bytes : List UInt8) :
    (⟨overwrite b.buffer_ b.writerIndex_ bytes, b.readerIndex_,
        b.writerIndex_ + bytes.length⟩ : Buffer).readable = b.readable ++ bytes := by
  have hr := hb.reader_le
  have hw := hb.writer_le
  have hsplit : b.writerIndex_ + bytes.length - b.readerIndex_ =
      b.writerIndex_ - b.readerIndex_ + bytes.length := by omega
  have hadd : b.readerIndex_ + (b.writerIndex_ - b.readerIndex_) = b.writerIndex_ := by omega
  simp only [readable]
  rw [hsplit, slice_add, hadd, slice_overwrite hw, slice_overwrite_of_le hw (by omega)]

/-- Once there is room, `append` stores behind the contents and leaves the size of the vector. -/
theorem append_of_roomy {b' : Buffer} {data : List UInt8} {len : ℕ} (hdata : len ≤ data.length)
    (hb' : b.ensureWritableBytes len = .ok b') (hroomy : Roomy b b' len) :
    ∃ b'', b.append data len = .ok b'' ∧ b''.Valid ∧ b''.readable = b.readable ++ data.take len ∧
      b''.buffer_.length = b'.buffer_.length := by
  have hread : readBytes data 0 len = .ok (data.take len) := readBytes_ok.2 ⟨by omega, rfl⟩
  have htake : (data.take len).length = len := by
    rw [List.length_take]
    omega
  have hroom : b'.writerIndex_ + (data.take len).length ≤ b'.buffer_.length := by
    rw [htake]
    exact hroomy.room
  have hsize := hroomy.valid.size_lt
  have hover : (overwrite b'.buffer_ b'.writerIndex_ (data.take len)).length =
      b'.buffer_.length := length_overwrite hroom
  have hr := hroomy.valid.reader_le
  refine ⟨⟨overwrite b'.buffer_ b'.writerIndex_ (data.take len), b'.readerIndex_,
    b'.writerIndex_ + len⟩, ?_, ⟨hroomy.valid.prepend_le, ?_, ?_, ?_⟩, ?_, hover⟩
  · rw [append, hb', ok_bind, hread, ok_bind, storeBytes, if_pos hroom, ok_bind,
      sizeWrap_of_lt (by omega)]
    rfl
  · simp only
    omega
  · simp only [hover]
    omega
  · simp only [hover]
    exact hroomy.valid.size_le
  · have := readable_store hroomy.valid (data.take len)
    rwa [htake, hroomy.readable_eq] at this

/-- **`append`** adds `len` bytes behind the contents, or throws because the vector would pass
`max_size()`. -/
theorem append_spec (hb : b.Valid) {data : List UInt8} {len : ℕ} (hdata : len ≤ data.length)
    (hlen : len ≤ maxSize) :
    (∃ b', b.append data len = .ok b' ∧ b'.Valid ∧ b'.readable = b.readable ++ data.take len) ∨
      b.append data len = .error .lengthError ∧ maxSize < b.writerIndex_ + len := by
  rcases ensureWritableBytes_spec hb hlen with ⟨b', hb', hroomy⟩ | ⟨herr, hmax⟩
  · obtain ⟨b'', happend, hv, hr, -⟩ := append_of_roomy hdata hb' hroomy
    exact .inl ⟨b'', happend, hv, hr⟩
  · refine .inr ⟨?_, hmax⟩
    rw [append, herr]
    rfl

/-- What a successful `append` did. -/
theorem append_ok (hb : b.Valid) {data : List UInt8} {len : ℕ} {b' : Buffer}
    (hdata : data.length ≤ maxSize) (h : b.append data len = .ok b') :
    len ≤ data.length ∧ b'.Valid ∧ b'.readable = b.readable ++ data.take len := by
  have hlen : len ≤ data.length := by
    obtain ⟨_, -, h⟩ := bind_eq_ok.1 h
    obtain ⟨_, hread, -⟩ := bind_eq_ok.1 h
    have := (readBytes_ok.1 hread).1
    omega
  rcases append_spec hb hlen (by omega) with ⟨b'', hb'', hv, hr⟩ | ⟨herr, -⟩
  · obtain rfl := Except.ok.inj (hb''.symm.trans h)
    exact ⟨hlen, hv, hr⟩
  · rw [herr] at h
    cases h

end Buffer

end Muduo
