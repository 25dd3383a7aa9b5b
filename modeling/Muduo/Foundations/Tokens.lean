import Mathlib.Data.List.Perm.Basic
import Mathlib.Data.Nat.Notation
import Mathlib.Logic.Function.Basic
import Mathlib.Tactic.Common

/-!
# Tokens

Many parties go through phases, each at its own pace, and what carries a party from one phase to the
next is a token that lies somewhere: in a queue, on a stack. `home c p` is the place where the token
of the party `c` in phase `p` lies, if that phase has one. `Placed` says that every party has the
token of its phase, once and at home, and that there are no other tokens. A step takes the token of
one party and lays down the token of its next phase; `Placed.move` says that this keeps the
invariant, wherever the two places are.
-/

namespace Muduo.Tokens

variable {κ φ ℓ : Type*}

section

variable [DecidableEq ℓ]

/-- From `tokens` to `tokens'` there is one more `x` at `place`, or no more anywhere if there is no
place. -/
def Adds (tokens tokens' : ℓ → List (κ × φ)) (place : Option ℓ) (x : κ × φ) : Prop :=
  ∀ l, (tokens' l).Perm (if place = some l then x :: tokens l else tokens l)

variable {tokens tokens' : ℓ → List (κ × φ)}

/-- Nothing is added. -/
theorem adds_none (h : ∀ l, (tokens' l).Perm (tokens l)) (x : κ × φ) :
    Adds tokens tokens' none x := by
  intro l
  simpa using h l

/-- A token is added at `l`. -/
theorem adds_some {l : ℓ} {x : κ × φ} (h : (tokens' l).Perm (x :: tokens l))
    (hne : ∀ l', l' ≠ l → tokens' l' = tokens l') : Adds tokens tokens' (some l) x := by
  intro l'
  by_cases hl : l' = l
  · subst hl
    simpa using h
  · rw [if_neg (by simpa using Ne.symm hl), hne l' hl]

end

variable [DecidableEq κ] [DecidableEq φ] [DecidableEq ℓ]

/-- Every party has the token of its phase, once and at home, and there are no other tokens. -/
def Placed (home : κ → φ → Option ℓ) (phase : κ → φ) (tokens : ℓ → List (κ × φ)) : Prop :=
  ∀ l c p, (tokens l).count (c, p) = if phase c = p ∧ home c p = some l then 1 else 0

variable {home home' : κ → φ → Option ℓ} {phase : κ → φ} {tokens tokens' mid : ℓ → List (κ × φ)}

theorem Adds.count {place : Option ℓ} {x : κ × φ} (h : Adds tokens tokens' place x) (l : ℓ)
    (y : κ × φ) :
    (tokens' l).count y = (tokens l).count y + if place = some l ∧ x = y then 1 else 0 := by
  rw [(h l).count_eq]
  by_cases hl : place = some l
  · by_cases hx : x = y
    · simp [hl, hx]
    · simp [hl, hx, List.count_cons_of_ne hx]
  · simp [hl]

/-- A party whose token lies somewhere is in the phase of this token, and there it is at home. -/
theorem Placed.of_mem (h : Placed home phase tokens) {l : ℓ} {c : κ} {p : φ}
    (hmem : (c, p) ∈ tokens l) : phase c = p ∧ home c p = some l := by
  by_contra hnot
  have hcount := h l c p
  rw [if_neg hnot, List.count_eq_zero] at hcount
  exact hcount hmem

/-- The token of a party lies at the home of its phase. -/
theorem Placed.mem (h : Placed home phase tokens) {l : ℓ} {c : κ}
    (hhome : home c (phase c) = some l) : (c, phase c) ∈ tokens l := by
  have hcount := h l c (phase c)
  rw [if_pos ⟨rfl, hhome⟩] at hcount
  exact List.count_pos_iff.1 (by omega)

/-- Only the home of the present phase matters. -/
theorem Placed.congr (h : Placed home phase tokens)
    (hhome : ∀ c, home' c (phase c) = home c (phase c)) : Placed home' phase tokens := by
  intro l c p
  rw [h l c p]
  by_cases hp : phase c = p
  · subst hp
    rw [hhome c]
  · rw [if_neg fun h => hp h.1, if_neg fun h => hp h.1]

/-- Tokens in another order. -/
theorem Placed.perm (h : Placed home phase tokens) (hperm : ∀ l, (tokens' l).Perm (tokens l)) :
    Placed home phase tokens' := by
  intro l c p
  rw [(hperm l).count_eq, h l c p]

/-- **A move**: the token of the party `c` is taken from the home of its phase, and that of the
phase `p` is laid down at the home of `p`. -/
theorem Placed.move (h : Placed home phase tokens) {c : κ} {p : φ}
    (htake : Adds mid tokens (home c (phase c)) (c, phase c))
    (hput : Adds mid tokens' (home c p) (c, p)) :
    Placed home (Function.update phase c p) tokens' := by
  intro l c' p'
  have htaken := htake.count l (c', p')
  rw [h l c' p'] at htaken
  rw [hput.count l (c', p')]
  by_cases hc : c' = c
  · subst hc
    rw [Function.update_self]
    have hmid : (mid l).count (c', p') = 0 := by
      by_cases hold : phase c' = p' ∧ home c' p' = some l
      · obtain ⟨rfl, hhome⟩ := hold
        rw [if_pos ⟨rfl, hhome⟩, if_pos ⟨hhome, rfl⟩] at htaken
        omega
      · rw [if_neg hold] at htaken
        omega
    rw [hmid, Nat.zero_add]
    by_cases hp : p = p'
    · subst hp
      simp
    · simp [hp]
  · -- the tokens of other parties stay where they are
    have hother (p : φ) : ¬(home c p = some l ∧ (c, p) = (c', p')) :=
      fun h => hc (Prod.mk.inj h.2).1.symm
    rw [if_neg (hother _)] at htaken
    rw [if_neg (hother _), Function.update_of_ne hc]
    omega

end Muduo.Tokens
