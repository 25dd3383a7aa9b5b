import Muduo.DesignPattern.Observer

/-!
# Registrations on both sides

`setCallback` overwrites the callback of an observer, and appends to the list of the subject whether
it overwrites or not; `removeFromSubject` does not expect a subject that is not registered. A run
keeps both sides consistent exactly when it does neither: a surplus entry never goes away, since
every later removal takes one entry and the callback together.
-/

namespace Muduo.DesignPattern.Registrations

open Run

variable {σ ο κ : Type} {w t : Registrations σ ο κ} [DecidableEq σ]

theorem update_eq_none (subject : σ) (observer : ο) :
    w.update observer subject = none ↔ ¬w.Registered subject observer :=
  AList.lookup_eq_none

variable [DecidableEq ο]

/-- The list of a subject has one entry for a registered observer, and none for others. -/
def Consistent (w : Registrations σ ο κ) : Prop :=
  ∀ subject observer, w.entries subject observer = if w.Registered subject observer then 1 else 0

/-- A message calls an observer back at most once, and not at all when it is not registered. -/
def CallsOnce (w : Registrations σ ο κ) : Prop := ∀ subject observer,
  (w.invoked subject observer).length ≤ 1 ∧
    (¬w.Registered subject observer → w.invoked subject observer = [])

/-- The removal of a subject that is not registered changes nothing. -/
def Unharmed (w : Registrations σ ο κ) : Action σ ο κ → Prop
  | .removeFromSubject self subject =>
    ¬w.Registered subject self → w.step (.removeFromSubject self subject) = .ok w
  | _ => True

/-- The call registers a new pair, or removes a registered one. -/
def Orderly (w : Registrations σ ο κ) : Action σ ο κ → Prop
  | .setCallback self subject _ => ¬w.Registered subject self
  | .removeFromSubject self subject => w.Registered subject self
  | .removeSelf _ => True

instance (w : Registrations σ ο κ) (a : Action σ ο κ) : Decidable (w.Orderly a) :=
  match a with
  | .setCallback self subject _ => inferInstanceAs (Decidable ¬w.Registered subject self)
  | .removeFromSubject self subject => inferInstanceAs (Decidable (w.Registered subject self))
  | .removeSelf _ => .isTrue trivial

/-! ## The callbacks of a message -/

/-- Every entry of a registered observer calls its callback. -/
theorem invoked_eq (subject : σ) (observer : ο) :
    w.invoked subject observer = match w.update observer subject with
      | some cb => List.replicate (w.entries subject observer) cb
      | none => [] := by
  unfold invoked entries
  induction w.observers_ subject with
  | nil => cases w.update observer subject <;> rfl
  | cons o os ih =>
    rw [List.filterMap_cons, List.count_cons]
    by_cases ho : o = observer
    · subst ho
      cases hupdate : w.update o subject <;> simp_all [List.replicate_succ]
    · cases hupdate : w.update observer subject <;> simp_all

/-- On both sides consistent, a message calls every callback once. -/
theorem Consistent.invoked (hw : w.Consistent) (subject : σ) (observer : ο) :
    w.invoked subject observer = (w.update observer subject).toList := by
  rw [invoked_eq, hw subject observer]
  cases h : w.update observer subject with
  | none => rfl
  | some cb =>
    have hregistered : w.Registered subject observer := by
      by_contra hnot
      rw [(update_eq_none subject observer).2 hnot] at h
      cases h
    rw [if_pos hregistered]
    rfl

theorem Consistent.callsOnce (hw : w.Consistent) : w.CallsOnce := by
  intro subject observer
  rw [hw.invoked]
  refine ⟨?_, fun hnot => ?_⟩
  · cases w.update observer subject <;> simp
  · rw [(update_eq_none subject observer).2 hnot]
    rfl

/-! ## Calls -/

theorem attach_entries (subject subject' : σ) (observer observer' : ο) :
    (w.attach subject observer).entries subject' observer' = w.entries subject' observer' +
      if subject' = subject ∧ observer' = observer then 1 else 0 := by
  by_cases hsubject : subject' = subject
  · subst hsubject
    by_cases hobserver : observer' = observer
    · subst hobserver
      simp [entries, attach]
    · simp [entries, attach, hobserver, Ne.symm hobserver]
  · simp [entries, attach, hsubject]

theorem detach_entries (subject subject' : σ) (observer observer' : ο) :
    (w.detach subject observer).entries subject' observer' = w.entries subject' observer' -
      if subject' = subject ∧ observer' = observer then 1 else 0 := by
  by_cases hsubject : subject' = subject
  · subst hsubject
    by_cases hobserver : observer' = observer
    · subst hobserver
      simp [entries, detach]
    · simp [entries, detach, hobserver]
  · simp [entries, detach, hsubject]

theorem registered_setCallback (subject subject' : σ) (self observer : ο) (cb : κ) :
    (w.setCallback self subject cb).Registered subject' observer ↔
      w.Registered subject' observer ∨ subject' = subject ∧ observer = self := by
  unfold Registered setCallback attach
  by_cases ho : observer = self
  · subst ho
    simp [or_comm]
  · simp [ho]

theorem registered_eraseCallback (subject subject' : σ) (self observer : ο) :
    (w.eraseCallback self subject).Registered subject' observer ↔
      w.Registered subject' observer ∧ ¬(subject' = subject ∧ observer = self) := by
  unfold Registered eraseCallback
  by_cases ho : observer = self
  · subst ho
    simp [and_comm]
  · simp [ho]

/-- From `w` to `t` one entry and the callback of each of these pairs are taken out. -/
def Takes (w t : Registrations σ ο κ) (pairs : List (σ × ο)) : Prop := ∀ subject observer,
  t.entries subject observer =
      w.entries subject observer - (if (subject, observer) ∈ pairs then 1 else 0) ∧
    (t.Registered subject observer ↔ w.Registered subject observer ∧ (subject, observer) ∉ pairs)

theorem takes_remove (subject : σ) (self : ο) :
    w.Takes ((w.detach subject self).eraseCallback self subject) [(subject, self)] := by
  intro subject' observer
  have hentries := detach_entries (w := w) subject subject' self observer
  have hregistered := registered_eraseCallback (w := w.detach subject self) subject subject' self
    observer
  simp only [List.mem_singleton, Prod.mk.injEq]
  exact ⟨hentries, hregistered⟩

/-- `removeSelf` goes through different subjects. -/
theorem takes_removeSelf (self : ο) :
    w.Takes (w.removeSelf self) ((w.callback_map_ self).keys.map fun subject => (subject, self)) := by
  have hnodup := (w.callback_map_ self).keys_nodup
  unfold removeSelf
  revert hnodup
  generalize (w.callback_map_ self).keys = subjects
  intro hnodup
  induction subjects generalizing w with
  | nil => intro subject observer; simp
  | cons head subjects ih =>
    obtain ⟨hhead, htail⟩ := List.nodup_cons.1 hnodup
    intro subject observer
    obtain ⟨hentries, hregistered⟩ := takes_remove (w := w) head self subject observer
    obtain ⟨hentries', hregistered'⟩ := ih (w := (w.detach head self).eraseCallback self head)
      htail subject observer
    rw [List.foldl_cons, hentries', hregistered', hentries, hregistered, and_assoc]
    simp only [List.map_cons, List.mem_cons, List.not_mem_nil, or_false, not_or, and_true]
    by_cases hpair : (subject, observer) = (head, self)
    · obtain ⟨rfl, rfl⟩ := Prod.mk.inj hpair
      simp [hhead]
    · simp [hpair]

/-! ## Steps -/

/-- Every callback has an entry. -/
def Covered (w : Registrations σ ο κ) : Prop :=
  ∀ subject observer, w.Registered subject observer → 0 < w.entries subject observer

/-- To take registered pairs out changes nothing about the others. -/
theorem Takes.consistent {pairs : List (σ × ο)} (h : w.Takes t pairs) (hw : w.Covered)
    (hpairs : ∀ p ∈ pairs, w.Registered p.1 p.2) :
    t.Covered ∧ (t.Consistent ↔ w.Consistent) := by
  refine ⟨fun subject observer ht => ?_, forall₂_congr fun subject observer => ?_⟩
  · obtain ⟨hentries, hregistered⟩ := h subject observer
    obtain ⟨hmem, hnot⟩ := hregistered.1 ht
    have hpos := hw subject observer hmem
    rw [hentries, if_neg hnot]
    omega
  · obtain ⟨hentries, hregistered⟩ := h subject observer
    by_cases hmem : (subject, observer) ∈ pairs
    · have hpos := hw subject observer (hpairs _ hmem)
      rw [hentries, if_pos hmem, if_neg (fun ht => (hregistered.1 ht).2 hmem),
        if_pos (hpairs _ hmem)]
      omega
    · simp only [hentries, hregistered, hmem, not_false_eq_true, and_true, if_false, Nat.sub_zero]

theorem Covered.setCallback (hw : w.Covered) (self : ο) (subject : σ) (cb : κ) :
    (w.setCallback self subject cb).Covered ∧
      ((w.setCallback self subject cb).Consistent ↔
        w.Consistent ∧ ¬w.Registered subject self) := by
  have hentries (subject' : σ) (observer : ο) :
      (w.setCallback self subject cb).entries subject' observer = w.entries subject' observer +
        if subject' = subject ∧ observer = self then 1 else 0 :=
    attach_entries (w := { w with callback_map_ := _ }) subject subject' self observer
  have hregistered (subject' : σ) (observer : ο) :=
    registered_setCallback (w := w) subject subject' self observer cb
  refine ⟨fun subject' observer h => ?_, fun h => ?_, ?_⟩
  · rw [hentries]
    rcases (hregistered subject' observer).1 h with h | h
    · have hpos := hw subject' observer h
      omega
    · rw [if_pos h]
      omega
  · have hself := h subject self
    rw [hentries, if_pos ⟨rfl, rfl⟩, if_pos ((hregistered subject self).2 (.inr ⟨rfl, rfl⟩))] at hself
    have hnot : ¬w.Registered subject self := fun hmem => by
      have hpos := hw subject self hmem
      omega
    refine ⟨fun subject' observer => ?_, hnot⟩
    by_cases hpair : subject' = subject ∧ observer = self
    · obtain ⟨rfl, rfl⟩ := hpair
      rw [if_neg hnot]
      omega
    · have hother := h subject' observer
      simpa only [hentries, hregistered, hpair, or_false, if_false, Nat.add_zero] using hother
  · rintro ⟨hconsistent, hnot⟩ subject' observer
    by_cases hpair : subject' = subject ∧ observer = self
    · obtain ⟨rfl, rfl⟩ := hpair
      rw [hentries, hconsistent, if_neg hnot, if_pos ⟨rfl, rfl⟩,
        if_pos ((hregistered subject' observer).2 (.inr ⟨rfl, rfl⟩))]
    · simp only [hentries, hregistered, hpair, or_false, if_false, Nat.add_zero,
        hconsistent subject' observer]

/-- **A call** leaves both sides consistent exactly when they have been and the call is orderly. -/
theorem Covered.step (hw : w.Covered) {a : Action σ ο κ} (h : w.step a = .ok t) :
    t.Covered ∧ (t.Consistent ↔ w.Consistent ∧ w.Orderly a) := by
  cases a with
  | setCallback self subject cb => exact Except.ok.inj h ▸ hw.setCallback self subject cb
  | removeFromSubject self subject =>
    have h : w.removeFromSubject self subject = .ok t := h
    unfold Registrations.removeFromSubject at h
    split at h
    next hmem =>
      obtain rfl := Except.ok.inj h
      have hmem : w.Registered subject self := hmem
      obtain ⟨hcovered, hiff⟩ := (takes_remove subject self).consistent hw (by simpa using hmem)
      exact ⟨hcovered, hiff.trans (and_iff_left hmem).symm⟩
    next => cases h
  | removeSelf self =>
    obtain rfl := Except.ok.inj h
    obtain ⟨hcovered, hiff⟩ := (takes_removeSelf self).consistent hw (by
      intro p hp
      obtain ⟨subject, hsubject, rfl⟩ := List.mem_map.1 hp
      exact hsubject)
    exact ⟨hcovered, hiff.trans (and_iff_left trivial).symm⟩

/-- An orderly call returns. -/
theorem Orderly.returns {a : Action σ ο κ} (h : w.Orderly a) : ∃ t, w.step a = .ok t := by
  cases a with
  | removeFromSubject self subject => exact ⟨_, if_pos h⟩
  | _ => exact ⟨_, rfl⟩

/-- A removal that returns is one of a registered subject. -/
theorem unharmed_of_ok {a : Action σ ο κ} (h : w.step a = .ok t) : w.Unharmed a := by
  cases a with
  | removeFromSubject self subject =>
    intro hnot
    have herror : w.step (.removeFromSubject self subject) = .error .outOfBounds := if_neg hnot
    rw [herror] at h
    cases h
  | _ => trivial

/-! ## Runs -/

theorem consistent_run (hw : w.Covered) (actions : List (Action σ ο κ)) :
    (∃ t, run step w actions = .ok t ∧ t.Consistent) ↔
      w.Consistent ∧ Along step Orderly w actions := by
  induction actions generalizing w with
  | nil => simp [Along]
  | cons a actions ih =>
    simp only [run_cons_ok, Along]
    constructor
    · rintro ⟨u, ⟨t, ht, hu⟩, hconsistent⟩
      obtain ⟨hcovered, hiff⟩ := hw.step ht
      obtain ⟨htconsistent, halong⟩ := (ih hcovered).1 ⟨u, hu, hconsistent⟩
      obtain ⟨hwconsistent, ha⟩ := hiff.1 htconsistent
      refine ⟨hwconsistent, ha, fun t' ht' => ?_⟩
      obtain rfl := Except.ok.inj (ht.symm.trans ht')
      exact halong
    · rintro ⟨hconsistent, ha, halong⟩
      obtain ⟨t, ht⟩ := ha.returns
      obtain ⟨hcovered, hiff⟩ := hw.step ht
      obtain ⟨u, hu, huconsistent⟩ := (ih hcovered).2 ⟨hiff.2 ⟨hconsistent, ha⟩, halong t ht⟩
      exact ⟨u, ⟨t, ht, hu⟩, huconsistent⟩

/-- **Registrations stay consistent, exactly**: a run returns with both sides consistent, calls every
observer back at most once and only while it is registered, and is not harmed by the removal of a
subject that is not registered, if and only if every `setCallback` of the run registers a new pair
and every `removeFromSubject` removes a registered one. -/
theorem consistent_iff (actions : List (Action σ ο κ)) :
    (∃ t, run step (empty : Registrations σ ο κ) actions = .ok t ∧ t.Consistent ∧ t.CallsOnce ∧
        Along step Unharmed empty actions) ↔
      Along step Orderly (empty : Registrations σ ο κ) actions := by
  have hcovered : (empty : Registrations σ ο κ).Covered := fun _ _ h => absurd h List.not_mem_nil
  have hconsistent : (empty : Registrations σ ο κ).Consistent := fun _ _ => rfl
  have hrun := consistent_run hcovered actions
  rw [and_iff_right hconsistent] at hrun
  rw [← hrun]
  exact exists_congr fun t => and_congr_right fun ht => and_iff_left_of_imp fun hconsistent =>
    ⟨hconsistent.callsOnce, along_of_ok (fun _ _ _ => unharmed_of_ok) ht⟩

/-- An observer is registered twice with the same subject. -/
theorem not_consistent_twice : ¬∀ actions : List (Action Unit Unit ℕ), ∃ t,
    run step (empty : Registrations Unit Unit ℕ) actions = .ok t ∧ t.Consistent ∧ t.CallsOnce ∧
      Along step Unharmed empty actions := by
  intro h
  obtain ⟨t, ht, hconsistent, -⟩ := h [.setCallback () () 1, .setCallback () () 2]
  obtain rfl := Except.ok.inj ht
  exact absurd (hconsistent () ()) (by decide)

example : (empty : Registrations Unit Unit ℕ).step (.removeFromSubject () ()) =
    .error .outOfBounds := rfl

end Muduo.DesignPattern.Registrations
