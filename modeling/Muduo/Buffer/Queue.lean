import Muduo.Buffer

/-!
# The buffer is a queue of bytes

A `Buffer` stands for the queue of its readable bytes: `append` enqueues, `retrieve` drops from the
front, and the string forms also return what they drop. `Op` is a call of the public interface,
`Op.exec` performs it on a buffer and `Op.queue` on a queue. `refines_queue`: over every run of
calls from construction, the buffer and the queue return the same strings and hold the same bytes,
no call leaves the vector, and the indices keep their order.
-/

namespace Muduo.Buffer

open Memory Run

/-- A call on a buffer. `append` carries the bytes it is given. -/
inductive Op
  | append (data : List UInt8)
  | ensureWritableBytes (len : ℕ)
  | retrieve (len : ℕ)
  | retrieveAll
  | retrieveAllAsString
  | retrieveAsString (len : ℕ)

/-- The call on the buffer, with the string it returns (`[]` when it returns none). -/
def Op.exec (b : Buffer) : Op → Except Fault (List UInt8 × Buffer)
  | .append data => do return ([], ← b.append data data.length)
  | .ensureWritableBytes len => do return ([], ← b.ensureWritableBytes len)
  | .retrieve len => .ok ([], b.retrieve len)
  | .retrieveAll => .ok ([], b.retrieveAll)
  | .retrieveAllAsString => b.retrieveAllAsString
  | .retrieveAsString len => b.retrieveAsString len

/-- What the call means for a queue of bytes. -/
def Op.queue (q : List UInt8) : Op → List UInt8 × List UInt8
  | .append data => ([], q ++ data)
  | .ensureWritableBytes _ => ([], q)
  | .retrieve len => ([], q.drop (min len q.length))
  | .retrieveAll => ([], [])
  | .retrieveAllAsString => (q, [])
  | .retrieveAsString len => (q.take len, q.drop len)

/-- The sizes stay below `2 ^ 63`: the vector the call may need has that size at most. A string of
chosen length is not longer than the contents. -/
def Op.Fits (b : Buffer) : Op → Prop
  | .append data => b.writerIndex_ + data.length < 2 ^ 63
  | .ensureWritableBytes len => b.writerIndex_ + len < 2 ^ 63
  | .retrieveAsString len => len ≤ b.readableBytes
  | _ => True

instance (b : Buffer) : ∀ op : Op, Decidable (op.Fits b)
  | .append data => inferInstanceAs (Decidable (b.writerIndex_ + data.length < 2 ^ 63))
  | .ensureWritableBytes len => inferInstanceAs (Decidable (b.writerIndex_ + len < 2 ^ 63))
  | .retrieveAsString len => inferInstanceAs (Decidable (len ≤ b.readableBytes))
  | .retrieve _ | .retrieveAll | .retrieveAllAsString => inferInstanceAs (Decidable True)

/-- A call that fits succeeds, keeps the index invariant and acts as its meaning on the queue. -/
theorem Op.exec_spec {b : Buffer} (hb : b.Valid) {op : Op} (h : op.Fits b) :
    ∃ b', op.exec b = .ok ((op.queue b.readable).1, b') ∧ b'.Valid ∧
      b'.readable = (op.queue b.readable).2 := by
  cases op with
  | append data =>
    have hmax : b.writerIndex_ + data.length ≤ maxSize := Nat.le_sub_one_of_lt h
    rcases append_spec hb (Nat.le_refl _) (by omega : data.length ≤ maxSize) with
      ⟨b', hb', hv, hr⟩ | ⟨-, hbig⟩
    · rw [List.take_length] at hr
      exact ⟨b', by rw [exec, hb']; rfl, hv, hr⟩
    · omega
  | ensureWritableBytes len =>
    have hmax : b.writerIndex_ + len ≤ maxSize := Nat.le_sub_one_of_lt h
    rcases ensureWritableBytes_spec hb (by omega : len ≤ maxSize) with ⟨b', hb', hroomy⟩ | ⟨-, hbig⟩
    · exact ⟨b', by rw [exec, hb']; rfl, hroomy.valid, hroomy.readable_eq⟩
    · omega
  | retrieve len =>
    refine ⟨_, rfl, retrieve_valid hb len, ?_⟩
    rw [readable_retrieve hb]
    simp only [queue]
    rcases Nat.le_total len b.readable.length with hle | hle
    · rw [Nat.min_eq_left hle]
    · rw [Nat.min_eq_right hle, List.drop_length, List.drop_eq_nil_iff.2 hle]
  | retrieveAll => exact ⟨_, rfl, retrieveAll_valid hb, readable_retrieveAll b⟩
  | retrieveAllAsString =>
    have hlen := hb.length_readable
    refine ⟨_, ?_, retrieve_valid hb b.readableBytes, ?_⟩
    · rw [exec, Buffer.retrieveAllAsString, retrieveAsString_eq hb (Nat.le_refl _), ← hlen,
        List.take_length]
      rfl
    · rw [readable_retrieve hb, ← hlen, List.drop_length]
      rfl
  | retrieveAsString len =>
    exact ⟨_, by rw [exec, retrieveAsString_eq hb h]; rfl, retrieve_valid hb len,
      readable_retrieve hb len⟩

/-! ## Runs -/

/-- A call in a run: the strings returned so far are kept. -/
def execLogged (s : Buffer × List (List UInt8)) (op : Op) :
    Except Fault (Buffer × List (List UInt8)) := do
  let r ← op.exec s.1
  return (r.2, s.2 ++ [r.1])

/-- The meaning of a call in a run. -/
def queueLogged (s : List UInt8 × List (List UInt8)) (op : Op) :
    List UInt8 × List (List UInt8) :=
  ((op.queue s.1).2, s.2 ++ [(op.queue s.1).1])

/-- **The buffer refines a queue of bytes.** Over every run of calls from construction that fits,
every call succeeds, so that each copy stays inside the vector; the indices keep their order; the
copy of `makeSpace` is made only when there is consumed space to slide into; and the contents and
the returned strings are those of the queue. -/
theorem refines_queue (initialSize : ℕ) (ops : List Op)
    (h : Along execLogged (fun s op => op.Fits s.1) (construct initialSize, []) ops) :
    ∃ b returned, run execLogged (construct initialSize, []) ops = .ok (b, returned) ∧
      (kCheapPrepend ≤ b.readerIndex_ ∧ b.readerIndex_ ≤ b.writerIndex_ ∧
        b.writerIndex_ ≤ b.buffer_.length) ∧
      (∀ len, b.writerIndex_ + len < 2 ^ 63 → b.Compacts len → kCheapPrepend < b.readerIndex_) ∧
      ops.foldl queueLogged ([], []) = (b.readable, returned) := by
  obtain ⟨⟨b, returned⟩, hrun, hv, hr⟩ := h.refines queueLogged
    (R := fun s x => s.1.Valid ∧ x = (s.1.readable, s.2)) (x := ([], []))
    (by
      rintro ⟨b, returned⟩ _ op ⟨hv, rfl⟩ hfits
      obtain ⟨b', hexec, hv', hr'⟩ := op.exec_spec hv hfits
      refine ⟨(b', returned ++ [(op.queue b.readable).1]), ?_, hv', ?_⟩
      · simp only [execLogged, hexec, ok_bind]
        rfl
      · simp only [queueLogged, hr'])
    ⟨construct_valid initialSize, by rw [readable_construct]⟩
  refine ⟨b, returned, hrun, ⟨hv.prepend_le, hv.reader_le, hv.writer_le⟩, ?_, hr⟩
  intro len hlen hc
  exact (reader_lt_of_compacts hv (by unfold maxSize; omega) hc).1

/-- A run that fills the buffer, reads part of it, and appends again after the slide. -/
theorem refines_queue_slide :
    ∃ b returned, run execLogged (construct 0, [])
        [.append (List.replicate 1000 1), .retrieve 990, .append (List.replicate 30 2),
          .retrieveAsString 12] = .ok (b, returned) ∧
      (kCheapPrepend ≤ b.readerIndex_ ∧ b.readerIndex_ ≤ b.writerIndex_ ∧
        b.writerIndex_ ≤ b.buffer_.length) ∧
      (∀ len, b.writerIndex_ + len < 2 ^ 63 → b.Compacts len → kCheapPrepend < b.readerIndex_) ∧
      List.foldl queueLogged ([], [])
        [.append (List.replicate 1000 1), .retrieve 990, .append (List.replicate 30 2),
          .retrieveAsString 12] = (b.readable, returned) :=
  refines_queue 0 _ (by decide +kernel)

end Muduo.Buffer
