import Muduo.Buffer.Room

/-!
# What a string retrieval returns

`retrieveAsString(len)` copies `len` bytes and then calls `retrieve(len)`, which clamps the length
to `readableBytes()`; the copy does not. `Conserves` says that the string and the rest are the
readable bytes. `retrieval_iff`: in every buffer that any calls lead to, it holds exactly when `len`
is not longer than the readable bytes that lie in the vector, which is `len ≤ readableBytes()`
unless a sum has wrapped before.

A sum that wrapped can leave the writer index behind the end of the vector, and a later one can
bring it below the reader index. Only `Bounded` holds of all these buffers.
-/

namespace Muduo.Buffer

open Memory Run

variable {b b' : Buffer}

/-! ## The bounds that every call keeps -/

theorem sizeWrap_lt (n : ℕ) : sizeWrap n < 2 ^ 64 := Nat.mod_lt n (by decide)

theorem Bounded.append (hb : b.Bounded) {data : List UInt8} {len : ℕ}
    (h : b.append data len = .ok b') : b'.Bounded := by
  obtain ⟨b₁, hens, -, hlen, hw⟩ := append_cases h
  exact ⟨hlen ▸ (hb.ensureWritableBytes hens).size_le, hw ▸ sizeWrap_lt _⟩

theorem Bounded.retrieveAll (hb : b.Bounded) : b.retrieveAll.Bounded :=
  ⟨hb.size_le, by simp only [Buffer.retrieveAll]; decide⟩

theorem Bounded.retrieve (hb : b.Bounded) (len : ℕ) : (b.retrieve len).Bounded := by
  rw [Buffer.retrieve]
  split
  · exact ⟨hb.size_le, hb.writer_lt⟩
  · exact hb.retrieveAll

theorem Bounded.roomMade (hb : b.Bounded) (len : ℕ) : (b.roomMade len).Bounded := by
  rw [Buffer.roomMade]
  cases hens : b.ensureWritableBytes len with
  | ok b' => exact hb.ensureWritableBytes hens
  | error e => exact hb

theorem Bounded.full (hb : b.Bounded) : b.full.Bounded := by
  have hsize := hb.size_le
  unfold maxSize at hsize
  exact ⟨hb.size_le, by simp only [Buffer.full]; omega⟩

theorem Bounded.readFd (hb : b.Bounded) {recv : Recv} {extraBuffer : List UInt8} {n : ℤ}
    (h : b.readFd recv extraBuffer = .ok (n, b')) : b'.Bounded := by
  simp only [Buffer.readFd] at h
  split at h
  · obtain ⟨-, rfl⟩ := Prod.mk.inj (Except.ok.inj h)
    exact hb
  · split at h
    · obtain ⟨-, rfl⟩ := Prod.mk.inj (Except.ok.inj h)
      exact ⟨hb.size_le, sizeWrap_lt _⟩
    · obtain ⟨b₁, happend, hret⟩ := bind_eq_ok.1 h
      obtain ⟨-, rfl⟩ := Prod.mk.inj (Except.ok.inj hret)
      exact hb.full.append happend

/-- Every call keeps the bounds, whatever its sums. -/
theorem Call.next_bounded (hb : b.Bounded) {c : Call} (h : c.next b = .ok b') : b'.Bounded := by
  have hmade := Call.next_ok h
  cases c with
  | append data le =>
    rcases hmade with hok | rfl
    · exact hb.append hok
    · exact hb.roomMade _
  | ensureWritableBytes len lt =>
    rcases hmade with hok | rfl
    · exact hb.ensureWritableBytes hok
    · exact hb
  | retrieve len lt => exact hmade ▸ hb.retrieve len
  | retrieveAll => exact hmade ▸ hb.retrieveAll
  | retrieveAllAsString | retrieveAsString =>
    rcases hmade with rfl | rfl
    · exact hb.retrieve _
    · exact hb
  | readFd c =>
    rcases hmade with ⟨n, hok⟩ | rfl
    · exact hb.readFd hok
    · exact hb.full.roomMade _

/-! ## The string and the rest -/

/-- `retrieveAsString(len)` returned the first `min(len, readableBytes())` readable bytes and left
the others. -/
structure Conserved (b b' : Buffer) (len : ℕ) (result : List UInt8) : Prop where
  returned : result = b.readable.take (min len b.readableBytes)
  left : b'.readable = b.readable.drop (min len b.readableBytes)
  whole : result ++ b'.readable = b.readable

/-- `retrieveAsString(len)` returns, and what it returns and leaves is what was readable. -/
def Conserves (b : Buffer) (len : ℕ) : Prop :=
  ∃ result b', b.retrieveAsString len = .ok (result, b') ∧ Conserved b b' len result

/-- The readable bytes that lie in the vector are at least `len`. -/
def Holds (b : Buffer) (len : ℕ) : Prop :=
  b.readerIndex_ ≤ b.buffer_.length ∧ len ≤ b.readable.length

instance (b : Buffer) (len : ℕ) : Decidable (b.Holds len) :=
  inferInstanceAs (Decidable (_ ∧ _))

theorem Valid.holds_iff (hb : b.Valid) (len : ℕ) : b.Holds len ↔ len ≤ b.readableBytes := by
  rw [Holds, hb.length_readable]
  exact and_iff_right (Nat.le_trans hb.reader_le hb.writer_le)

/-- A string that was returned has the length asked for and came from inside the vector. -/
theorem makeString_ok {m result : List UInt8} {i n : ℕ} (h : makeString m i n = .ok result) :
    i + n ≤ m.length ∧ result = slice m i n := by
  unfold makeString at h
  split at h
  · obtain ⟨hle, hslice⟩ := readBytes_ok.1 h
    exact ⟨hle, hslice.symm⟩
  · cases h

/-- **The copy and the index update agree** exactly when the buffer holds `len` readable bytes. -/
theorem conserves_iff (hb : b.Bounded) (len : ℕ) : b.Conserves len ↔ b.Holds len := by
  have hsize := hb.size_le
  have hwriter := hb.writer_lt
  have hmin : b.readable.length =
      min (b.writerIndex_ - b.readerIndex_) (b.buffer_.length - b.readerIndex_) := by
    rw [readable, slice, List.length_take, List.length_drop]
  unfold maxSize at hsize
  constructor
  · rintro ⟨result, b', hret, hcons⟩
    obtain ⟨hread, -⟩ := retrieveAsString_ok hret
    obtain ⟨hle, rfl⟩ := makeString_ok hread
    -- the string has `len` bytes, the readable bytes at least as many
    have hlen : len ≤ b.readable.length := by
      rw [← length_slice hle, hcons.returned, List.length_take]
      omega
    exact ⟨by omega, hlen⟩
  · rintro ⟨hreader, hlen⟩
    have hle : len ≤ b.readableBytes := by
      rcases Nat.eq_zero_or_pos len with rfl | hpos
      · exact Nat.zero_le _
      · rw [readableBytes, sizeSub_of_le (by omega) hwriter]
        omega
    have hread : makeString b.buffer_ b.readerIndex_ len = .ok (b.readable.take len) := by
      rw [makeString, if_pos (by unfold maxSize; omega), readable, take_slice _ _ (by omega)]
      exact readBytes_ok.2 ⟨by omega, rfl⟩
    have hrest : (b.retrieve len).readable = b.readable.drop len := by
      rw [retrieve, if_pos hle, sizeWrap_of_lt (by omega), readable, readable, drop_slice]
      simp only
      congr 1
      omega
    refine ⟨_, _, by rw [retrieveAsString, hread]; rfl, ⟨?_, ?_, ?_⟩⟩
    · rw [Nat.min_eq_left hle]
    · rw [Nat.min_eq_left hle, hrest]
    · rw [hrest, List.take_append_drop]

/-- **Retrieval, exactly**: in a buffer that any run of calls leads to, `retrieveAsString(len)`
returns the first `min(len, readableBytes())` readable bytes and leaves the others if and only if
the buffer holds `len` readable bytes; unless a sum has wrapped on the way, that is
`len ≤ readableBytes()`. -/
theorem retrieval_iff (initialSize : ℕ) (calls : List Call) {b : Buffer}
    (h : run Call.next (construct initialSize) calls = .ok b) (len : ℕ) :
    (b.Conserves len ↔ b.Holds len) ∧
      (Along Call.next Call.NoWrap (construct initialSize) calls →
        (b.Conserves len ↔ len ≤ b.readableBytes)) := by
  have hb : b.Bounded := invariant (I := Bounded) (fun _ _ _ hb h => Call.next_bounded hb h)
    (construct_valid initialSize).bounded h
  refine ⟨conserves_iff hb len, fun hwrap => ?_⟩
  have hv : b.Valid := hwrap.invariant (fun _ _ _ hb hc h => Call.next_valid hb hc h)
    (construct_valid initialSize) h
  rw [conserves_iff hb, hv.holds_iff]

/-- A buffer with the leftovers of an earlier message behind its contents. -/
def leftover : List Call :=
  [.append [80, 87] (by decide), .retrieveAll, .append [65] (by decide)]

/-- What `leftover` leads to. -/
def leftoverBuffer : Buffer where
  buffer_ := overwrite (construct 0).buffer_ kCheapPrepend [65, 87]
  readerIndex_ := kCheapPrepend
  writerIndex_ := kCheapPrepend + 1

theorem run_leftover : run Call.next (construct 0) leftover = .ok leftoverBuffer := by
  decide +kernel

theorem retrieval_iff_leftover :
    (leftoverBuffer.Conserves 1 ↔ leftoverBuffer.Holds 1) ∧
      (Along Call.next Call.NoWrap (construct 0) leftover →
        (leftoverBuffer.Conserves 1 ↔ 1 ≤ leftoverBuffer.readableBytes)) :=
  retrieval_iff 0 leftover run_leftover 1

/-- There `retrieveAsString(2)` also returns a byte of the earlier message. -/
theorem not_conserves_leftover :
    ¬∀ (initialSize : ℕ) (calls : List Call) (b : Buffer) (len : ℕ),
      run Call.next (construct initialSize) calls = .ok b → len < 2 ^ 64 → b.Conserves len := by
  intro h
  obtain ⟨result, b', hret, hcons⟩ := h 0 leftover leftoverBuffer 2 run_leftover (by decide)
  have hsecret : (leftoverBuffer.retrieveAsString 2).map Prod.fst = .ok [65, 87] := by
    decide +kernel
  rw [hret] at hsecret
  have hresult : result = [65, 87] := Except.ok.inj hsecret
  have hreturned := hcons.returned
  rw [hresult] at hreturned
  exact absurd hreturned (by decide +kernel)

end Muduo.Buffer
