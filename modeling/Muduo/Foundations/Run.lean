import Mathlib.Data.List.Induction
import Mathlib.Data.Nat.Notation
import Mathlib.Tactic.Common

/-!
# Runs of a fallible step function

A system is given by a step function `step : σ → α → Except ε σ`: from a state and an action
(which carries whatever the environment decides) to the next state, or to the error that ends the
program. `run step s as` performs the actions `as` from `s` in order. Every reachable state is the
end of some run, so a statement about all runs is a statement about all reachable states.

* `run_induction` is the induction over runs, one action at a time from the right: what holds of
  the empty run and is kept by one more step holds of every run.
* `Along P s as`: every step of the run is taken from a state and with an action related by `P`.
  `Along.invariant` is the invariant rule under such a condition on the steps.
* `Occurs P s as`: some step of the run is.
* `collect out s as`: what the steps of the run put out, in order.
-/

namespace Muduo.Run

universe u

variable {σ α β ε : Type*}

/-- A sequence of two fallible computations returns when both do. -/
theorem bind_eq_ok {γ δ : Type u} {x : Except ε γ} {f : γ → Except ε δ} {b : δ} :
    x >>= f = .ok b ↔ ∃ a, x = .ok a ∧ f a = .ok b := by
  cases x with
  | error e => simp [bind, Except.bind]
  | ok a => simp [bind, Except.bind]

/-- Two sequences that go on in the same way from what the first computation returns. -/
theorem bind_congr_ok {γ δ : Type u} {x : Except ε γ} {f g : γ → Except ε δ}
    (h : ∀ a, x = .ok a → f a = g a) : x >>= f = x >>= g := by
  cases x with
  | error e => rfl
  | ok a => exact h a rfl

/-- A computation that is known to return returns something. -/
theorem exists_of_isOk {γ : Type u} {x : Except ε γ} (h : x.isOk = true) : ∃ a, x = .ok a := by
  cases x with
  | error e => cases h
  | ok a => exact ⟨a, rfl⟩

/-- What a computation returned, when some of it is known. -/
theorem exists_of_map {γ δ : Type u} {x : Except ε γ} {f : γ → δ} {b : δ} (h : x.map f = .ok b) :
    ∃ a, x = .ok a ∧ f a = b := by
  cases x with
  | error e => cases h
  | ok a => exact ⟨a, rfl, Except.ok.inj h⟩

@[simp] theorem ok_bind {γ δ : Type u} (a : γ) (f : γ → Except ε δ) :
    (Except.ok a : Except ε γ) >>= f = f a := rfl

variable (step : σ → α → Except ε σ)

/-- The run of `step` over a list of actions; it stops at the first error. -/
def run : σ → List α → Except ε σ
  | s, [] => .ok s
  | s, a :: as =>
    match step s a with
    | .ok t => run t as
    | .error e => .error e

variable {step}

@[simp] theorem run_nil (s : σ) : run step s [] = .ok s := rfl

theorem run_cons_ok {s u : σ} {a : α} {as : List α} :
    run step s (a :: as) = .ok u ↔ ∃ t, step s a = .ok t ∧ run step t as = .ok u := by
  cases h : step s a <;> simp [run, h]

theorem run_append_ok {s u : σ} {as bs : List α} :
    run step s (as ++ bs) = .ok u ↔ ∃ t, run step s as = .ok t ∧ run step t bs = .ok u := by
  induction as generalizing s with
  | nil => simp
  | cons a as ih =>
    simp only [List.cons_append, run_cons_ok, ih]
    constructor
    · rintro ⟨t, ht, v, hv, hu⟩
      exact ⟨v, ⟨t, ht, hv⟩, hu⟩
    · rintro ⟨v, ⟨t, ht, hv⟩, hu⟩
      exact ⟨t, ht, v, hv, hu⟩

theorem run_concat_ok {s u : σ} {as : List α} {a : α} :
    run step s (as ++ [a]) = .ok u ↔ ∃ t, run step s as = .ok t ∧ step t a = .ok u := by
  simp [run_append_ok, run_cons_ok]

/-- **Induction over runs.** The motive speaks of the actions performed so far and of the state
they lead to. -/
theorem run_induction {s : σ} {motive : List α → σ → Prop} (nil : motive [] s)
    (concat : ∀ as a t u, run step s as = .ok t → step t a = .ok u → motive as t →
      motive (as ++ [a]) u)
    {as : List α} {u : σ} (h : run step s as = .ok u) : motive as u := by
  induction as using List.reverseRecOn generalizing u with
  | nil =>
    obtain rfl := Except.ok.inj h
    exact nil
  | append_singleton as a ih =>
    obtain ⟨t, ht, hu⟩ := run_concat_ok.1 h
    exact concat as a t u ht hu (ih ht)

/-! ## Conditions on the steps of a run -/

variable (step)

/-- Every step of the run is taken from a state and with an action that satisfy `P`. -/
def Along (P : σ → α → Prop) : σ → List α → Prop
  | _, [] => True
  | s, a :: as => P s a ∧ ∀ t, step s a = .ok t → Along P t as

/-- Some step of the run is taken from a state and with an action that satisfy `P`. -/
def Occurs (P : σ → α → Prop) : σ → List α → Prop
  | _, [] => False
  | s, a :: as => P s a ∨ ∃ t, step s a = .ok t ∧ Occurs P t as

instance decidableAlong (P : σ → α → Prop) [∀ s a, Decidable (P s a)] :
    ∀ (s : σ) (as : List α), Decidable (Along step P s as)
  | _, [] => .isTrue trivial
  | s, a :: as =>
    match h : step s a with
    | .ok t =>
      haveI := decidableAlong P t as
      decidable_of_iff (P s a ∧ Along step P t as) (by simp [Along, h])
    | .error _ => decidable_of_iff (P s a) (by simp [Along, h])

variable {step}

theorem along_append {P : σ → α → Prop} {s : σ} {as bs : List α} :
    Along step P s (as ++ bs) ↔
      Along step P s as ∧ ∀ t, run step s as = .ok t → Along step P t bs := by
  induction as generalizing s with
  | nil => simp [Along]
  | cons a as ih =>
    simp only [List.cons_append, Along, ih, run_cons_ok]
    constructor
    · rintro ⟨hP, h⟩
      exact ⟨⟨hP, fun t ht => (h t ht).1⟩, fun u ⟨t, ht, hu⟩ => (h t ht).2 u hu⟩
    · rintro ⟨⟨hP, h⟩, h'⟩
      exact ⟨hP, fun t ht => ⟨h t ht, fun u hu => h' u ⟨t, ht, hu⟩⟩⟩

theorem along_concat {P : σ → α → Prop} {s : σ} {as : List α} {a : α} :
    Along step P s (as ++ [a]) ↔ Along step P s as ∧ ∀ t, run step s as = .ok t → P t a := by
  simp [along_append, Along]

theorem occurs_append {P : σ → α → Prop} {s : σ} {as bs : List α} :
    Occurs step P s (as ++ bs) ↔
      Occurs step P s as ∨ ∃ t, run step s as = .ok t ∧ Occurs step P t bs := by
  induction as generalizing s with
  | nil => simp [Occurs]
  | cons a as ih =>
    simp only [List.cons_append, Occurs, ih, run_cons_ok]
    constructor
    · rintro (hP | ⟨t, ht, h | ⟨u, hu, h⟩⟩)
      · exact .inl (.inl hP)
      · exact .inl (.inr ⟨t, ht, h⟩)
      · exact .inr ⟨u, ⟨t, ht, hu⟩, h⟩
    · rintro ((hP | ⟨t, ht, h⟩) | ⟨u, ⟨t, ht, hu⟩, h⟩)
      · exact .inl hP
      · exact .inr ⟨t, ht, .inl h⟩
      · exact .inr ⟨t, ht, .inr ⟨u, hu, h⟩⟩

theorem occurs_concat {P : σ → α → Prop} {s : σ} {as : List α} {a : α} :
    Occurs step P s (as ++ [a]) ↔
      Occurs step P s as ∨ ∃ t, run step s as = .ok t ∧ P t a := by
  simp [occurs_append, Occurs]

/-- A condition never occurs when every step violates it. -/
theorem not_occurs {P : σ → α → Prop} {s : σ} {as : List α} :
    ¬Occurs step P s as ↔ Along step (fun s a => ¬P s a) s as := by
  induction as generalizing s with
  | nil => simp [Occurs, Along]
  | cons a as ih =>
    simp only [Occurs, Along, not_or, not_exists, not_and, ← ih]

/-- **The invariant rule**: what the steps that satisfy `P` keep holds at the end of every run
along `P`. -/
theorem Along.invariant {P : σ → α → Prop} {I : σ → Prop} {s u : σ} {as : List α}
    (hstep : ∀ s a t, I s → P s a → step s a = .ok t → I t) (hs : I s)
    (hP : Along step P s as) (h : run step s as = .ok u) : I u := by
  refine run_induction (motive := fun as t => Along step P s as → I t) (fun _ => hs) ?_ h hP
  intro as a t u ht hu ih hP
  obtain ⟨hP, hPa⟩ := along_concat.1 hP
  exact hstep t a u (ih hP) (hPa t ht) hu

/-- The invariant rule without a condition on the steps. -/
theorem invariant {I : σ → Prop} {s u : σ} {as : List α}
    (hstep : ∀ s a t, I s → step s a = .ok t → I t) (hs : I s)
    (h : run step s as = .ok u) : I u :=
  run_induction (motive := fun _ t => I t) hs (fun _ a t u _ hu ih => hstep t a u ih hu) h

/-- **The progress rule**: when every step from a state with the invariant succeeds and keeps it,
every run does. -/
theorem progress {I : σ → Prop} {s : σ} (hstep : ∀ s a, I s → ∃ t, step s a = .ok t ∧ I t)
    (hs : I s) (as : List α) : ∃ u, run step s as = .ok u ∧ I u := by
  induction as generalizing s with
  | nil => exact ⟨s, rfl, hs⟩
  | cons a as ih =>
    obtain ⟨t, ht, hI⟩ := hstep s a hs
    obtain ⟨u, hu, hI'⟩ := ih hI
    exact ⟨u, run_cons_ok.2 ⟨t, ht, hu⟩, hI'⟩

/-- Equivalent conditions hold along the same runs. -/
theorem along_iff {P Q : σ → α → Prop} (hPQ : ∀ s a, P s a ↔ Q s a) {s : σ} {as : List α} :
    Along step P s as ↔ Along step Q s as := by
  rw [show P = Q from funext fun s => funext fun a => propext (hPQ s a)]

/-- A condition that every successful step satisfies holds along every successful run. -/
theorem along_of_ok {P : σ → α → Prop} (hP : ∀ s a t, step s a = .ok t → P s a) {s u : σ}
    {as : List α} (h : run step s as = .ok u) : Along step P s as := by
  induction as generalizing s with
  | nil => trivial
  | cons a as ih =>
    obtain ⟨t, ht, hu⟩ := run_cons_ok.1 h
    refine ⟨hP s a t ht, fun t' ht' => ?_⟩
    obtain rfl := Except.ok.inj (ht.symm.trans ht')
    exact ih hu

/-- Two conditions that agree on every successful step from an invariant agree along every
successful run. -/
theorem along_congr {P Q : σ → α → Prop} {I : σ → Prop} {s u : σ} {as : List α}
    (hstep : ∀ s a t, I s → step s a = .ok t → I t)
    (hPQ : ∀ s a t, I s → step s a = .ok t → (P s a ↔ Q s a)) (hs : I s)
    (h : run step s as = .ok u) : Along step P s as ↔ Along step Q s as := by
  induction as generalizing s with
  | nil => simp [Along]
  | cons a as ih =>
    obtain ⟨t, ht, hu⟩ := run_cons_ok.1 h
    simp only [Along, ht, Except.ok.injEq, forall_eq']
    exact and_congr (hPQ s a t hs ht) (ih (hstep s a t hs ht) hu)

/-- Two conditions that agree on every step from an invariant, where the second also lets the
invariant through, hold along the same runs. The steps may be under a further condition `R`, and
the runs need not return. -/
theorem along_iff_of_invariant {P Q R : σ → α → Prop} {I : σ → Prop} {s : σ} {as : List α}
    (hstep : ∀ s a t, I s → R s a → Q s a → step s a = .ok t → I t)
    (hPQ : ∀ s a, I s → R s a → (P s a ↔ Q s a)) (hs : I s) (hR : Along step R s as) :
    Along step P s as ↔ Along step Q s as := by
  induction as generalizing s with
  | nil => simp [Along]
  | cons a as ih =>
    obtain ⟨hRa, hRas⟩ := hR
    constructor
    · rintro ⟨hP, hrest⟩
      have hQ := (hPQ s a hs hRa).1 hP
      exact ⟨hQ, fun t ht => (ih (hstep s a t hs hRa hQ ht) (hRas t ht)).1 (hrest t ht)⟩
    · rintro ⟨hQ, hrest⟩
      exact ⟨(hPQ s a hs hRa).2 hQ,
        fun t ht => (ih (hstep s a t hs hRa hQ ht) (hRas t ht)).2 (hrest t ht)⟩

/-- A condition on the steps that keeps an invariant and, with it, implies another. -/
theorem Along.imp {P Q : σ → α → Prop} {I : σ → Prop} {s : σ} {as : List α}
    (hstep : ∀ s a t, I s → P s a → step s a = .ok t → I t)
    (hPQ : ∀ s a, I s → P s a → Q s a) (hs : I s) (hP : Along step P s as) :
    Along step Q s as := by
  induction as generalizing s with
  | nil => trivial
  | cons a as ih =>
    obtain ⟨hPa, hPas⟩ := hP
    exact ⟨hPQ s a hs hPa, fun t ht => ih (hstep s a t hs hPa ht) (hPas t ht)⟩

/-- What holds of every step holds along every run. -/
theorem along_of_forall {P : σ → α → Prop} (hP : ∀ s a, P s a) (s : σ) (as : List α) :
    Along step P s as := by
  induction as generalizing s with
  | nil => trivial
  | cons a as ih => exact ⟨hP s a, fun t _ => ih t⟩

/-- **Forward simulation**: when every step that satisfies `P` succeeds and matches a step of the
abstract system `spec`, every run along `P` succeeds and matches the abstract run. -/
theorem Along.refines {τ : Type*} (spec : τ → α → τ) {P : σ → α → Prop} {R : σ → τ → Prop} {s : σ}
    {x : τ} {as : List α}
    (hstep : ∀ s x a, R s x → P s a → ∃ t, step s a = .ok t ∧ R t (spec x a)) (hs : R s x)
    (hP : Along step P s as) : ∃ u, run step s as = .ok u ∧ R u (as.foldl spec x) := by
  induction as generalizing s x with
  | nil => exact ⟨s, rfl, hs⟩
  | cons a as ih =>
    obtain ⟨t, ht, hR⟩ := hstep s x a hs hP.1
    obtain ⟨u, hu, hR'⟩ := ih hR (hP.2 t ht)
    exact ⟨u, run_cons_ok.2 ⟨t, ht, hu⟩, hR'⟩

/-- The progress rule under a condition on the steps. -/
theorem Along.progress {P : σ → α → Prop} {I : σ → Prop} {s : σ} {as : List α}
    (hstep : ∀ s a, I s → P s a → ∃ t, step s a = .ok t ∧ I t) (hs : I s)
    (hP : Along step P s as) : ∃ u, run step s as = .ok u ∧ I u := by
  induction as generalizing s with
  | nil => exact ⟨s, rfl, hs⟩
  | cons a as ih =>
    obtain ⟨t, ht, hI⟩ := hstep s a hs hP.1
    obtain ⟨u, hu, hI'⟩ := ih hI (hP.2 t ht)
    exact ⟨u, run_cons_ok.2 ⟨t, ht, hu⟩, hI'⟩

/-! ## What a run puts out -/

variable (step)

/-- What the steps of the run put out, in order; `out s a` is what action `a` puts out in `s`. -/
def collect (out : σ → α → List β) : σ → List α → List β
  | _, [] => []
  | s, a :: as =>
    out s a ++
      match step s a with
      | .ok t => collect out t as
      | .error _ => []

variable {step}

theorem collect_append {out : σ → α → List β} {s t : σ} {as bs : List α}
    (h : run step s as = .ok t) :
    collect step out s (as ++ bs) = collect step out s as ++ collect step out t bs := by
  induction as generalizing s with
  | nil =>
    obtain rfl := Except.ok.inj h
    rfl
  | cons a as ih =>
    obtain ⟨v, hv, hvt⟩ := run_cons_ok.1 h
    simp only [List.cons_append, collect, hv, ih hvt, List.append_assoc]

theorem collect_concat {out : σ → α → List β} {s t : σ} {as : List α} {a : α}
    (h : run step s as = .ok t) :
    collect step out s (as ++ [a]) = collect step out s as ++ out t a := by
  rw [collect_append h]
  cases h' : step t a <;> simp [collect, h']

end Muduo.Run
