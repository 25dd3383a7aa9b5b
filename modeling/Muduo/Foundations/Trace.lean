import Muduo.Foundations.Run

/-!
# Runs and their traces

`Yields step out s bs t`: some run from `s` to `t` puts out `bs`. Two systems whose steps put out
things of the same kind are compared by what their runs put out: when every step of the one is
matched by a run of the other that puts out the same, so is every run (`Yields.simulates`). The run
that matches a step may have any number of steps, none included.
-/

namespace Muduo.Run

variable {σ τ α γ β ε δ : Type*}

/-- Some run from `s` to `t` puts out `bs`. -/
def Yields (step : σ → α → Except ε σ) (out : σ → α → List β) (s : σ) (bs : List β) (t : σ) : Prop :=
  ∃ as, run step s as = .ok t ∧ collect step out s as = bs

variable {step : σ → α → Except ε σ} {out : σ → α → List β} {step' : τ → γ → Except δ τ}
  {out' : τ → γ → List β}

theorem Yields.refl (s : σ) : Yields step out s [] s := ⟨[], rfl, rfl⟩

theorem Yields.of_step {s t : σ} {a : α} (h : step s a = .ok t) : Yields step out s (out s a) t :=
  ⟨[a], run_cons_ok.2 ⟨t, h, rfl⟩, by simp [collect, h]⟩

theorem Yields.trans {s t u : σ} {bs bs' : List β} (h : Yields step out s bs t)
    (h' : Yields step out t bs' u) : Yields step out s (bs ++ bs') u := by
  obtain ⟨as, hrun, rfl⟩ := h
  obtain ⟨as', hrun', rfl⟩ := h'
  exact ⟨as ++ as', run_append_ok.2 ⟨t, hrun, hrun'⟩, collect_append hrun⟩

/-- **Simulation**: when every step is matched by a run that puts out the same, so is every run. -/
theorem Yields.simulates {R : σ → τ → Prop}
    (hstep : ∀ s a t x, R s x → step s a = .ok t → ∃ y, Yields step' out' x (out s a) y ∧ R t y)
    {s u : σ} {x : τ} {bs : List β} (hs : R s x) (h : Yields step out s bs u) :
    ∃ y, Yields step' out' x bs y ∧ R u y := by
  obtain ⟨as, hrun, rfl⟩ := h
  induction as generalizing s x with
  | nil =>
    obtain rfl := Except.ok.inj hrun
    exact ⟨x, .refl x, hs⟩
  | cons a as ih =>
    obtain ⟨t, ht, hu⟩ := run_cons_ok.1 hrun
    obtain ⟨y, hy, hR⟩ := hstep s a t x hs ht
    obtain ⟨z, hz, hR'⟩ := ih hR hu
    refine ⟨z, ?_, hR'⟩
    have htrace : collect step out s (a :: as) = out s a ++ collect step out t as := by
      simp only [collect, ht]
    exact htrace ▸ hy.trans hz

end Muduo.Run
