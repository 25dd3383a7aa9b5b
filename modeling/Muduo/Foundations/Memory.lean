import Mathlib.Data.List.GetD
import Mathlib.Data.Nat.Notation
import Mathlib.Tactic.Common

/-!
# A block of memory as a list

A block of memory is the list of its cells. `slice m i n` is what `n` cells from index `i` hold,
`overwrite m i xs` is the block after `xs` has been stored from index `i` on, and `copyForward`
copies cell by cell, in increasing order, inside one block. `copyForward_eq_overwrite`: sliding
down, the forward copy stores what the source held before the copy, also when the two ranges
overlap.
-/

namespace Muduo.Memory

variable {α : Type*}

/-- What the `n` cells from index `i` hold. -/
def slice (m : List α) (i n : ℕ) : List α := (m.drop i).take n

/-- The block after `xs` has been stored from index `i` on. -/
def overwrite (m : List α) (i : ℕ) (xs : List α) : List α :=
  m.take i ++ xs ++ m.drop (i + xs.length)

theorem length_slice {m : List α} {i n : ℕ} (h : i + n ≤ m.length) : (slice m i n).length = n := by
  simp only [slice, List.length_take, List.length_drop]
  omega

@[simp] theorem slice_zero (m : List α) (i : ℕ) : slice m i 0 = [] := by simp [slice]

theorem length_overwrite {m xs : List α} {i : ℕ} (h : i + xs.length ≤ m.length) :
    (overwrite m i xs).length = m.length := by
  simp only [overwrite, List.length_append, List.length_take, List.length_drop]
  omega

/-- Two adjacent slices. -/
theorem slice_add (m : List α) (i n k : ℕ) :
    slice m i (n + k) = slice m i n ++ slice m (i + n) k := by
  simp [slice, List.take_add, List.drop_drop]

/-- What follows the first `k` cells of a slice. -/
theorem drop_slice (m : List α) (i n k : ℕ) : (slice m i n).drop k = slice m (i + k) (n - k) := by
  simp [slice, List.drop_take, List.drop_drop]

theorem take_slice (m : List α) (i : ℕ) {n k : ℕ} (h : k ≤ n) :
    (slice m i n).take k = slice m i k := by
  simp [slice, List.take_take, Nat.min_eq_left h]

/-- What has just been stored is there. -/
theorem slice_overwrite {m xs : List α} {i : ℕ} (h : i ≤ m.length) :
    slice (overwrite m i xs) i xs.length = xs := by
  simp [slice, overwrite, List.append_assoc, Nat.min_eq_left h]

/-- Cells below the stored ones keep their contents. -/
theorem slice_overwrite_of_le {m xs : List α} {i j n : ℕ} (h : i ≤ m.length) (hj : j + n ≤ i) :
    slice (overwrite m i xs) j n = slice m j n := by
  have hl : n ≤ ((m.take i).drop j).length := by
    simp only [List.length_drop, List.length_take]
    omega
  have hl' : j ≤ (m.take i).length := by
    simp only [List.length_take]
    omega
  rw [slice, overwrite, List.append_assoc, List.drop_append_of_le_length hl',
    List.take_append_of_le_length hl, List.drop_take, List.take_take, slice]
  congr 1
  omega

/-- Cells appended to the block change no slice inside it. -/
theorem slice_append_of_le {m xs : List α} {i n : ℕ} (h : i + n ≤ m.length) :
    slice (m ++ xs) i n = slice m i n := by
  have hl : n ≤ (m.drop i).length := by
    rw [List.length_drop]
    omega
  rw [slice, List.drop_append_of_le_length (by omega), List.take_append_of_le_length hl, slice]

/-! ## Copying inside a block -/

/-- Copy `n` cells from index `src` to index `dst`, one by one, in increasing order. -/
def copyForward [Inhabited α] : List α → ℕ → ℕ → ℕ → List α
  | m, _, _, 0 => m
  | m, src, dst, n + 1 => copyForward (m.set dst (m.getD src default)) (src + 1) (dst + 1) n

/-- A copy inside a block keeps its length. -/
theorem length_copyForward [Inhabited α] (m : List α) (src dst n : ℕ) :
    (copyForward m src dst n).length = m.length := by
  induction n generalizing m src dst with
  | zero => rfl
  | succ n ih => rw [copyForward, ih, List.length_set]

/-- Storing at an index below a slice does not change the slice. -/
theorem slice_set_of_lt (m : List α) {d i : ℕ} (n : ℕ) (v : α) (h : d < i) :
    slice (m.set d v) i n = slice m i n := by
  rw [slice, slice, List.drop_set_of_lt h]

/-- **Sliding down**: to a lower index, the forward copy stores what the source range held, whether
or not the two ranges overlap. -/
theorem copyForward_eq_overwrite [Inhabited α] (m : List α) {src dst n : ℕ} (hd : dst < src)
    (hs : src + n ≤ m.length) :
    copyForward m src dst n = overwrite m dst (slice m src n) := by
  induction n generalizing m src dst with
  | zero => simp [copyForward, overwrite]
  | succ n ih =>
    have hsrc : src < m.length := by omega
    have hdst : dst < m.length := by omega
    have hcell : slice m src (n + 1) = m[src] :: slice m (src + 1) n := by
      rw [slice, List.drop_eq_getElem_cons hsrc, List.take_succ_cons, slice]
    have hlen : (slice m (src + 1) n).length = n := length_slice (by omega)
    rw [copyForward, ih _ (by omega) (by simp only [List.length_set]; omega),
      slice_set_of_lt _ _ _ (by omega), List.getD_eq_getElem _ _ hsrc, hcell]
    -- the cell at `dst` joins the untouched cells below it
    have htake : (m.set dst m[src]).take (dst + 1) = m.take dst ++ [m[src]] := by
      rw [List.take_set, List.take_succ_eq_append_getElem hdst,
        List.set_append_right _ _ (by rw [List.length_take]; omega), List.length_take,
        Nat.min_eq_left (Nat.le_of_lt hdst), Nat.sub_self, List.set_cons_zero]
    have hdrop : (m.set dst m[src]).drop (dst + 1 + n) = m.drop (dst + (n + 1)) := by
      rw [List.drop_set_of_lt (by omega)]
      congr 1
      omega
    rw [overwrite, overwrite, hlen, List.length_cons, hlen, htake, hdrop]
    simp

end Muduo.Memory
