import Muduo.Foundations.Run

/-!
# Runs that use up a measure

Steps that satisfy `P` each take something from a measure. A run along `P` then is no longer than the
measure of its first state (`Along.length_le`); and when from every state that is not done such a
step can be taken, a run along `P` leads to one that is (`exists_run_done`). When other steps add to
the measure, what a run spends is bounded by the measure of its first state and by what the run gains
(`collect_length_le`).
-/

namespace Muduo.Run

universe u

variable {σ α ε : Type*} {step : σ → α → Except ε σ} {P : σ → α → Prop} {I Done : σ → Prop}
  {m : σ → ℕ}

/-- A run along `P` uses up a part of the measure for each of its steps. -/
theorem Along.length_le (hstep : ∀ s a t, I s → P s a → step s a = .ok t → I t ∧ m t < m s)
    {s u : σ} {as : List α} (hs : I s) (hP : Along step P s as) (h : run step s as = .ok u) :
    as.length + m u ≤ m s := by
  induction as generalizing s with
  | nil =>
    obtain rfl := Except.ok.inj h
    simp
  | cons a as ih =>
    obtain ⟨t, ht, hu⟩ := run_cons_ok.1 h
    obtain ⟨hI, hlt⟩ := hstep s a t hs hP.1 ht
    have hrest := ih hI (hP.2 t ht) hu
    rw [List.length_cons]
    omega

/-- **Spending**: when what a step spends is covered by the measure and by what the step gains, so is
what a run spends. -/
theorem collect_length_le {β γ : Type*} {spent : σ → α → List β} {gained : σ → α → List γ}
    (hstep : ∀ s a t, I s → step s a = .ok t →
      I t ∧ (spent s a).length + m t ≤ m s + (gained s a).length)
    {s u : σ} {as : List α} (hs : I s) (h : run step s as = .ok u) :
    (collect step spent s as).length + m u ≤ m s + (collect step gained s as).length := by
  induction as generalizing s with
  | nil =>
    obtain rfl := Except.ok.inj h
    simp [collect]
  | cons a as ih =>
    obtain ⟨t, ht, hu⟩ := run_cons_ok.1 h
    obtain ⟨hI, hle⟩ := hstep s a t hs ht
    have hrest := ih hI hu
    simp only [collect, ht, List.length_append]
    omega

/-- **Settling**: when every state that is not done has a step along `P`, and each such step uses up
a part of the measure, a run along `P` leads to a state that is done. -/
theorem exists_run_done (hstep : ∀ s, I s → ¬Done s →
      ∃ a t, P s a ∧ step s a = .ok t ∧ I t ∧ m t < m s) {s : σ} (hs : I s) :
    ∃ as u, Along step P s as ∧ run step s as = .ok u ∧ I u ∧ Done u := by
  induction hm : m s using Nat.strongRecOn generalizing s with
  | ind n ih =>
    by_cases hdone : Done s
    · exact ⟨[], s, trivial, rfl, hs, hdone⟩
    · obtain ⟨a, t, hP, ht, hI, hlt⟩ := hstep s hs hdone
      obtain ⟨as, u, hPas, hu, hIu, hdone'⟩ := ih (m t) (hm ▸ hlt) hI rfl
      refine ⟨a :: as, u, ⟨hP, fun t' ht' => ?_⟩, run_cons_ok.2 ⟨t, ht, hu⟩, hIu, hdone'⟩
      obtain rfl := Except.ok.inj (ht.symm.trans ht')
      exact hPas

end Muduo.Run
