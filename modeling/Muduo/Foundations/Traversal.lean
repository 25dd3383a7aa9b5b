import Mathlib.Data.List.Nodup
import Mathlib.Data.List.Perm.Basic
import Mathlib.Data.Nat.Notation
import Mathlib.Tactic.Common

/-!
# A list that is edited while it is traversed

A `Traversal` is a linked list with an iterator into it. The iterator stays at its node when others
are erased and when nodes are appended, and is lost when its own node is. Beside them are three
histories: the nodes that the iterator has passed, those erased through it, and those erased behind
its back.

`Sound` accounts for every node that has ever been in the list. It is kept by every edit and by every
move of the iterator, and a traversal that ends without having lost its iterator has met each node
exactly once, unless this was erased before its turn (`Sound.met`).
-/

namespace Muduo

variable {ν : Type*}

/-- A linked list with an iterator into it. -/
structure Traversal (ν : Type*) where
  /-- The nodes behind the iterator. -/
  before : List ν
  /-- The node of the iterator, and those ahead of it; the iterator is at the end when there is
  none. -/
  ahead : List ν
  /-- The node of the iterator has been erased. -/
  lost : Bool
  passed : List ν
  purged : List ν
  removed : List ν

namespace Traversal

/-- An iterator at the first of the nodes. -/
def start (nodes : List ν) : Traversal ν := ⟨[], nodes, false, [], [], []⟩

/-- All nodes, in order. -/
def nodes (t : Traversal ν) : List ν := t.before ++ t.ahead

/-! ## Edits and moves -/

/-- Add a node at the end. -/
def append (t : Traversal ν) (x : ν) : Traversal ν := { t with ahead := t.ahead ++ [x] }

/-- Erase the node at the place `k`, if there is one. -/
def eraseAt (t : Traversal ν) (k : ℕ) : Traversal ν :=
  match t.nodes[k]? with
  | none => t
  | some x =>
    if k < t.before.length then
      { t with before := t.before.eraseIdx k, removed := t.removed ++ [x] }
    else
      { t with
        ahead := t.ahead.eraseIdx (k - t.before.length)
        lost := t.lost || k == t.before.length
        removed := t.removed ++ [x] }

/-- `++it`. -/
def advance (t : Traversal ν) : Traversal ν :=
  match t.ahead with
  | [] => t
  | x :: ahead => { t with before := t.before ++ [x], ahead, passed := t.passed ++ [x] }

/-- `it = list.erase(it)`. -/
def purge (t : Traversal ν) : Traversal ν :=
  match t.ahead with
  | [] => t
  | x :: ahead => { t with ahead, purged := t.purged ++ [x] }

@[simp] theorem nodes_start (nodes : List ν) : (start nodes).nodes = nodes := rfl

@[simp] theorem nodes_append (t : Traversal ν) (x : ν) : (t.append x).nodes = t.nodes ++ [x] := by
  simp [nodes, append]

theorem nodes_eraseAt (t : Traversal ν) (k : ℕ) : (t.eraseAt k).nodes = t.nodes.eraseIdx k := by
  unfold eraseAt
  split
  next hk => exact (List.eraseIdx_of_length_le (List.getElem?_eq_none_iff.1 hk)).symm
  next x hk =>
    split
    next hlt => exact (List.eraseIdx_append_of_lt_length hlt t.ahead).symm
    next hle => exact (List.eraseIdx_append_of_length_le (Nat.le_of_not_lt hle) t.ahead).symm

@[simp] theorem nodes_advance (t : Traversal ν) : t.advance.nodes = t.nodes := by
  unfold advance
  split
  · rfl
  next hahead => simp [nodes, hahead]

theorem nodes_purge (t : Traversal ν) : t.purge.nodes = t.nodes.eraseIdx t.before.length := by
  unfold purge nodes
  split
  next hahead => simp [hahead, List.eraseIdx_of_length_le]
  next hahead => simp [hahead, List.eraseIdx_append_of_length_le]

@[simp] theorem purged_eraseAt (t : Traversal ν) (k : ℕ) : (t.eraseAt k).purged = t.purged := by
  unfold eraseAt
  split
  · rfl
  · split <;> rfl

/-- An iterator that is lost stays so. -/
theorem kept_of_eraseAt {t : Traversal ν} {k : ℕ} (hkept : (t.eraseAt k).lost = false) :
    t.lost = false := by
  unfold eraseAt at hkept
  split at hkept
  · exact hkept
  · split at hkept
    · exact hkept
    · exact (Bool.or_eq_false_iff.1 hkept).1

/-- The iterator is lost when its own node is erased. -/
theorem lost_eraseAt {t : Traversal ν} {k : ℕ} (hk : k < t.nodes.length) :
    (t.eraseAt k).lost = true ↔ t.lost = true ∨ k = t.before.length := by
  unfold eraseAt
  rw [List.getElem?_eq_getElem hk]
  simp only
  split
  next hlt => simp [Nat.ne_of_lt hlt]
  next => simp

/-- The node of the iterator is still there when this is not lost. -/
theorem head_eraseAt {t : Traversal ν} {k : ℕ} {x : ν} (hx : t.ahead.head? = some x)
    (hkept : (t.eraseAt k).lost = false) : (t.eraseAt k).ahead.head? = some x := by
  cases hk : t.nodes[k]? with
  | none => rwa [eraseAt, hk]
  | some y =>
    simp only [eraseAt, hk] at hkept ⊢
    by_cases hplace : k < t.before.length
    · rwa [if_pos hplace]
    · rw [if_neg hplace] at hkept ⊢
      obtain ⟨-, hne⟩ := Bool.or_eq_false_iff.1 hkept
      simp only [beq_eq_false_iff_ne] at hne
      have hpos : k - t.before.length ≠ 0 := by omega
      obtain ⟨j, hj⟩ := Nat.exists_eq_succ_of_ne_zero hpos
      cases hahead : t.ahead with
      | nil => rw [hahead] at hx; cases hx
      | cons z ahead =>
        rw [hahead] at hx
        simpa [hj] using hx

/-! ## Every node that has ever been in the list -/

variable [DecidableEq ν] {t : Traversal ν} {all : List ν}

/-- The nodes `all` that have ever been in the list, in their order: where each of them is, and what
the iterator has met. -/
structure Sound (t : Traversal ν) (all : List ν) : Prop where
  perm : (t.nodes ++ t.purged ++ t.removed).Perm all
  sublist : t.lost = false → (t.passed ++ t.ahead).Sublist all
  before_eq : t.lost = false → t.before = t.passed.filter (· ∉ t.removed)
  unpassed : ∀ x ∈ t.purged, x ∉ t.passed

theorem start_sound (nodes : List ν) : (start nodes).Sound nodes where
  perm := by simp [start, Traversal.nodes]
  sublist _ := List.Sublist.refl _
  before_eq _ := rfl
  unpassed _ h := absurd h List.not_mem_nil

theorem Sound.append (ht : t.Sound all) (x : ν) : (t.append x).Sound (all ++ [x]) where
  perm := by
    have hmoved : ((t.append x).nodes ++ t.purged ++ t.removed).Perm
        (t.nodes ++ t.purged ++ t.removed ++ [x]) := by
      rw [nodes_append, List.append_assoc, List.append_assoc, List.append_assoc t.nodes,
        List.append_assoc t.nodes]
      exact (List.perm_append_comm).append_left t.nodes
    exact hmoved.trans (ht.perm.append_right [x])
  sublist hkept := by
    have happend := (ht.sublist hkept).append (List.Sublist.refl [x])
    rwa [List.append_assoc] at happend
  before_eq := ht.before_eq
  unpassed := ht.unpassed

/-- A node of the list has neither been purged nor removed. -/
theorem Sound.apart (ht : t.Sound all) (hall : all.Nodup) {x : ν} (hx : x ∈ t.nodes) :
    x ∉ t.purged ∧ x ∉ t.removed := by
  have hnodup : (t.nodes ++ t.purged ++ t.removed).Nodup := ht.perm.nodup_iff.2 hall
  rw [List.append_assoc, List.nodup_append] at hnodup
  obtain ⟨-, -, hdisjoint⟩ := hnodup
  exact ⟨fun h => hdisjoint x hx x (List.mem_append_left _ h) rfl,
    fun h => hdisjoint x hx x (List.mem_append_right _ h) rfl⟩

/-- The iterator has not passed the nodes ahead of it. -/
theorem Sound.not_passed (ht : t.Sound all) (hall : all.Nodup) (hkept : t.lost = false) {x : ν}
    (hx : x ∈ t.ahead) : x ∉ t.passed := by
  have hnodup := (ht.sublist hkept).nodup hall
  rw [List.nodup_append] at hnodup
  exact fun h => hnodup.2.2 x h x hx rfl

theorem Sound.advance (ht : t.Sound all) (hall : all.Nodup) : t.advance.Sound all := by
  cases hahead : t.ahead with
  | nil => rwa [Traversal.advance, hahead]
  | cons x ahead =>
    have hx : x ∈ t.nodes := by simp [Traversal.nodes, hahead]
    obtain ⟨hpurged, hremoved⟩ := ht.apart hall hx
    have heq : t.advance = { t with before := t.before ++ [x], ahead, passed := t.passed ++ [x] } := by
      rw [Traversal.advance, hahead]
    refine ⟨?_, fun hkept => ?_, fun hkept => ?_, fun y hy => ?_⟩
    · have hperm := ht.perm
      rw [← nodes_advance] at hperm
      rw [heq] at hperm ⊢
      exact hperm
    · rw [heq] at hkept ⊢
      have hsublist := ht.sublist hkept
      simpa [hahead] using hsublist
    · rw [heq] at hkept ⊢
      have hbefore := ht.before_eq hkept
      simp [hbefore, hremoved]
    · rw [heq] at hy ⊢
      have hne : y ≠ x := fun h => hpurged (h ▸ hy)
      simpa [hne] using ht.unpassed y hy

theorem Sound.purge (ht : t.Sound all) (hall : all.Nodup) (hkept : t.lost = false) :
    t.purge.Sound all := by
  cases hahead : t.ahead with
  | nil => rwa [Traversal.purge, hahead]
  | cons x ahead =>
    have heq : t.purge = { t with ahead, purged := t.purged ++ [x] } := by
      rw [Traversal.purge, hahead]
    have hpassed : x ∉ t.passed := ht.not_passed hall hkept (by simp [hahead])
    rw [heq]
    refine ⟨?_, fun _ => ?_, ht.before_eq, fun y hy => ?_⟩
    · refine List.Perm.trans ?_ ht.perm
      simp only [Traversal.nodes, hahead, List.append_assoc]
      refine List.Perm.append_left _ ?_
      have hmoved : (t.purged ++ ([x] ++ t.removed)).Perm (x :: (t.purged ++ t.removed)) :=
        List.perm_middle
      exact (hmoved.append_left ahead).trans List.perm_middle
    · have hsublist := ht.sublist hkept
      rw [hahead] at hsublist
      exact ((List.sublist_cons_self x ahead).append_left t.passed).trans hsublist
    · rcases List.mem_append.1 hy with hy | hy
      · exact ht.unpassed y hy
      · rwa [List.mem_singleton.1 hy]

/-- **An erasure** behind the back of the iterator. -/
theorem Sound.eraseAt (ht : t.Sound all) (hall : all.Nodup) (k : ℕ) : (t.eraseAt k).Sound all := by
  cases hk : t.nodes[k]? with
  | none => rwa [Traversal.eraseAt, hk]
  | some x =>
    obtain ⟨hlt, hx⟩ := List.getElem?_eq_some_iff.1 hk
    have hperm : (t.nodes.eraseIdx k ++ t.purged ++ (t.removed ++ [x])).Perm all := by
      refine List.Perm.trans ?_ ht.perm
      have hmoved : (t.nodes.eraseIdx k ++ (t.purged ++ t.removed ++ [x])).Perm
          (t.nodes.eraseIdx k ++ ([x] ++ (t.purged ++ t.removed))) :=
        List.perm_append_comm.append_left _
      have hfront : (t.nodes.eraseIdx k ++ ([x] ++ (t.purged ++ t.removed))).Perm
          (x :: t.nodes.eraseIdx k ++ (t.purged ++ t.removed)) := List.perm_middle
      have hnodes : (x :: t.nodes.eraseIdx k).Perm t.nodes := hx ▸ List.getElem_cons_eraseIdx_perm hlt
      have hback := hmoved.trans (hfront.trans (hnodes.append_right (t.purged ++ t.removed)))
      simpa only [List.append_assoc] using hback
    rw [← nodes_eraseAt] at hperm
    have hfilter : t.passed.filter (· ∉ t.removed ++ [x]) =
        (t.passed.filter (· ∉ t.removed)).filter (· != x) := by
      rw [List.filter_filter]
      refine List.filter_congr fun y _ => ?_
      by_cases hy : y = x <;> simp [hy]
    unfold Traversal.eraseAt at hperm ⊢
    rw [hk] at hperm ⊢
    simp only at hperm ⊢
    split at hperm <;> rename_i hplace
    · -- the node is behind the iterator
      rw [if_pos hplace]
      refine ⟨hperm, ht.sublist, fun hkept => ?_, ht.unpassed⟩
      have hbefore := ht.before_eq hkept
      have hnodup : t.before.Nodup :=
        hbefore ▸ (((List.sublist_append_left ..).trans (ht.sublist hkept)).nodup hall).filter _
      have hget : t.before[k] = x := by
        rw [← hx]
        simp [Traversal.nodes, hplace]
      show t.before.eraseIdx k = _
      rw [hfilter, ← hbefore, ← hnodup.erase_getElem k hplace, hget, hnodup.erase_eq_filter]
    · rw [if_neg hplace]
      refine ⟨hperm, fun hkept => ?_, fun hkept => ?_, ht.unpassed⟩
      · obtain ⟨hkept, -⟩ := Bool.or_eq_false_iff.1 hkept
        exact ((List.eraseIdx_sublist ..).append_left t.passed).trans (ht.sublist hkept)
      · obtain ⟨hkept, -⟩ := Bool.or_eq_false_iff.1 hkept
        have hmem : x ∈ t.ahead := by
          rw [Traversal.nodes, List.getElem?_append_right (Nat.le_of_not_lt hplace)] at hk
          exact List.mem_of_getElem? hk
        have hpassed := ht.not_passed hall hkept hmem
        show t.before = _
        rw [ht.before_eq hkept]
        refine List.filter_congr fun y hy => ?_
        have hne : y ≠ x := fun h => hpassed (h ▸ hy)
        simp [hne]

/-- **The end of a traversal**: the iterator has passed the nodes in their order, each at most once;
the nodes it has not passed have been purged, or removed before their turn; the list is what it has
passed, less the nodes removed. -/
theorem Sound.met (ht : t.Sound all) (hkept : t.lost = false) (hend : t.ahead = []) :
    t.passed.Sublist all ∧ t.nodes = t.passed.filter (· ∉ t.removed) ∧
      (∀ x ∈ t.purged, x ∉ t.passed) ∧
      ∀ x ∈ all, x ∈ t.passed ∨ x ∈ t.purged ∨ x ∈ t.removed := by
  have hnodes : t.nodes = t.passed.filter (· ∉ t.removed) := by
    rw [nodes, hend, List.append_nil, ht.before_eq hkept]
  have hsublist := ht.sublist hkept
  rw [hend, List.append_nil] at hsublist
  refine ⟨hsublist, hnodes, ht.unpassed, fun x hx => ?_⟩
  rw [← ht.perm.mem_iff, hnodes] at hx
  simp only [List.mem_append, List.mem_filter] at hx
  rcases hx with (⟨hpassed, -⟩ | hpurged) | hremoved
  · exact .inl hpassed
  · exact .inr (.inl hpurged)
  · exact .inr (.inr hremoved)

end Traversal

end Muduo
