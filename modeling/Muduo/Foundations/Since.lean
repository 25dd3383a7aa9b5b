import Muduo.Foundations.Run

/-!
# Since

`Since A B as`: some action of the sequence is in `A`, and no later one is in `B`. This is what a
flag says that the actions in `A` set and the other actions in `B` clear (`run_since`). Removing
actions that are in neither changes nothing (`since_filter`).
-/

namespace Muduo.Run

variable {σ α ε : Type*} {step : σ → α → Except ε σ} {A B : α → Prop}

/-- Some action in `A` has not been followed by one in `B`. -/
def Since (A B : α → Prop) (as : List α) : Prop :=
  ∃ before a after, as = before ++ a :: after ∧ A a ∧ ∀ b ∈ after, ¬B b

@[simp] theorem not_since_nil : ¬Since A B [] := by
  rintro ⟨before, a, after, h, -, -⟩
  exact absurd h.symm (by simp)

theorem since_concat {as : List α} {a : α} :
    Since A B (as ++ [a]) ↔ A a ∨ Since A B as ∧ ¬B a := by
  constructor
  · rintro ⟨before, x, after, h, hA, hB⟩
    rcases List.eq_nil_or_concat after with rfl | ⟨after, b, rfl⟩
    · obtain ⟨-, hx⟩ := List.append_inj' h rfl
      obtain rfl := List.cons.inj hx |>.1
      exact .inl hA
    · rw [List.concat_eq_append, ← List.cons_append, ← List.append_assoc] at h
      obtain ⟨rfl, hb⟩ := List.append_inj' h rfl
      obtain rfl := (List.cons.inj hb).1
      exact .inr ⟨⟨before, x, after, rfl, hA, fun b hb => hB b (by simp [hb])⟩, hB a (by simp)⟩
  · rintro (hA | ⟨⟨before, x, after, rfl, hA, hB⟩, ha⟩)
    · exact ⟨as, a, [], rfl, hA, by simp⟩
    · refine ⟨before, x, after ++ [a], by simp, hA, fun b hb => ?_⟩
      rcases List.mem_append.1 hb with hb | hb
      · exact hB b hb
      · rw [List.mem_singleton.1 hb]
        exact ha

/-- Actions that are neither in `A` nor in `B` may be left out. -/
theorem since_filter {p : α → Bool} (hA : ∀ a, A a → p a) (hB : ∀ b, B b → p b) (as : List α) :
    Since A B (as.filter p) ↔ Since A B as := by
  induction as using List.reverseRecOn with
  | nil => rfl
  | append_singleton as a ih =>
    rw [List.filter_append, since_concat]
    by_cases hp : p a
    · rw [List.filter_cons_of_pos hp, List.filter_nil, since_concat, ih]
    · rw [List.filter_cons_of_neg hp, List.filter_nil, List.append_nil, ih]
      have hnotA : ¬A a := fun h => hp (hA a h)
      have hnotB : ¬B a := fun h => hp (hB a h)
      simp [hnotA, hnotB]

/-- **A flag** that the actions in `A` set and the other actions in `B` clear says, at the end of a
run that starts without it, whether an action in `A` has not been followed by one in `B`. -/
theorem run_since {P : σ → Prop} {s u : σ} {as : List α} (hs : ¬P s)
    (hstep : ∀ s a t, step s a = .ok t → (P t ↔ A a ∨ P s ∧ ¬B a))
    (h : run step s as = .ok u) : P u ↔ Since A B as := by
  refine run_induction (motive := fun as t => P t ↔ Since A B as) ?_ ?_ h
  · exact iff_of_false hs not_since_nil
  · intro as a t v _ hv ih
    rw [hstep t a v hv, since_concat, ih]

end Muduo.Run
