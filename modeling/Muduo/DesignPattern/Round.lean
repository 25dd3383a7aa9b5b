import Mathlib.Data.List.InsertIdx
import Mathlib.Order.Fin.Basic
import Muduo.DesignPattern.Registration
import Muduo.Foundations.Traversal

/-!
# A message whose callbacks change the registrations

The worker of a subject goes through its list with an iterator, and calls `update` of every observer
that can be locked. The callbacks run in between, on the same thread: they may register observers
with the subject, remove them from it, and release them, and the list changes under the iterator.
`Round` is the delivery of one message by a subject that others hold, with what its callbacks do.

`attach` and `detach` take no mutex, so that a change by another thread is a data race; it is not
part of a round.

* `Round.serves`: a round that ends has called every entry once, in the order of the entries, also
  those attached while it went on, but for entries that were detached before their turn, or whose
  observer was gone. What is left of the list is what has been called and not been detached.
* `Round.keeps_iff`: from registrations that are consistent on both sides, the iterator stays valid
  if and only if no callback takes the observer out of the list that it is called for.
-/

namespace Muduo.DesignPattern

open Run

variable {σ ο κ : Type}

/-! ## What a call makes of a list -/

/-- What a call of an observer makes of the list of a subject. -/
inductive Edit (ο : Type)
  | keep
  /-- An entry of the observer is appended. -/
  | attach (ob : ο)
  /-- The first entry of the observer is erased. -/
  | detach (ob : ο)
  deriving DecidableEq

namespace Registrations

/-- The observer that makes the call. -/
def Action.self : Action σ ο κ → ο
  | setCallback self _ _ | removeFromSubject self _ | removeSelf self => self

variable [DecidableEq σ]

/-- The observers that call are alive, so that `detach` finds their entries. -/
def edit (w : Registrations σ ο κ) (subject : σ) : Action σ ο κ → Edit ο
  | .setCallback self subject' _ => if subject' = subject then .attach self else .keep
  | .removeFromSubject self subject' => if subject' = subject then .detach self else .keep
  | .removeSelf self => if w.Registered subject self then .detach self else .keep

variable {w t : Registrations σ ο κ} {subject : σ}

/-- An observer takes out only itself. -/
theorem self_of_detach {a : Action σ ο κ} {ob : ο} (he : w.edit subject a = .detach ob) :
    a.self = ob := by
  cases a <;> simp only [edit] at he <;> split at he <;> first | exact Edit.detach.inj he | cases he

variable [DecidableEq ο]

/-- `removeSelf` takes the first entry of the observer out of the list of each of its subjects. -/
theorem removeSelf_observers (subject : σ) (self : ο) : (w.removeSelf self).observers_ subject =
    if w.Registered subject self then (w.observers_ subject).erase self
    else w.observers_ subject := by
  have hnodup := (w.callback_map_ self).keys_nodup
  show _ = if subject ∈ (w.callback_map_ self).keys then _ else _
  unfold removeSelf
  generalize (w.callback_map_ self).keys = subjects at hnodup
  induction subjects generalizing w with
  | nil => rfl
  | cons head subjects ih =>
    obtain ⟨hhead, htail⟩ := List.nodup_cons.1 hnodup
    rw [List.foldl_cons, ih htail]
    by_cases heq : subject = head
    · subst heq
      simp [hhead, detach, eraseCallback]
    · simp [heq, detach, eraseCallback]

/-- From `w` to `t` the registrations with the subject have been edited, on both sides. -/
inductive Edited (w t : Registrations σ ο κ) (subject : σ) : Edit ο → Prop
  | keep (hobservers : t.observers_ subject = w.observers_ subject)
      (hregistered : ∀ ob, t.Registered subject ob ↔ w.Registered subject ob) :
      Edited w t subject .keep
  | attach (self : ο) (hobservers : t.observers_ subject = w.observers_ subject ++ [self])
      (hregistered : ∀ ob, t.Registered subject ob ↔ w.Registered subject ob ∨ ob = self) :
      Edited w t subject (.attach self)
  | detach (self : ο) (hobservers : t.observers_ subject = (w.observers_ subject).erase self)
      (hregistered : ∀ ob, t.Registered subject ob ↔ w.Registered subject ob ∧ ob ≠ self) :
      Edited w t subject (.detach self)

/-- **A call** edits the registrations with a subject as `edit` says. -/
theorem step_edited (subject : σ) {a : Action σ ο κ} (h : w.step a = .ok t) :
    w.Edited t subject (w.edit subject a) := by
  cases a with
  | setCallback self subject' cb =>
    obtain rfl := Except.ok.inj h
    have hregistered (ob : ο) := registered_setCallback (w := w) subject' subject self ob cb
    simp only [edit]
    split
    next heq =>
      subst heq
      exact .attach self (by simp [setCallback, Registrations.attach]) (by simpa using hregistered)
    next hne =>
      exact .keep (by simp [setCallback, Registrations.attach, Ne.symm hne])
        (by simpa [Ne.symm hne] using hregistered)
  | removeFromSubject self subject' =>
    simp only [step, removeFromSubject] at h
    split at h
    next =>
      obtain rfl := Except.ok.inj h
      have hregistered (ob : ο) := registered_eraseCallback (w := w.detach subject' self) subject'
        subject self ob
      simp only [edit]
      split
      next heq =>
        subst heq
        refine .detach self (by simp [Registrations.detach, eraseCallback]) fun ob => ?_
        exact (hregistered ob).trans (and_congr_right fun _ => by simp)
      next hne =>
        refine .keep (by simp [Registrations.detach, eraseCallback, Ne.symm hne]) fun ob => ?_
        exact (hregistered ob).trans (and_iff_left (by simp [Ne.symm hne]))
    next => cases h
  | removeSelf self =>
    obtain rfl := Except.ok.inj h
    have hregistered (ob : ο) := (takes_removeSelf (w := w) self subject ob).2
    have hobservers := removeSelf_observers (w := w) subject self
    simp only [edit]
    split
    next hself =>
      refine .detach self (hobservers.trans (if_pos hself)) fun ob => ?_
      rw [hregistered]
      refine and_congr_right fun _ => not_congr ?_
      simp only [List.mem_map, Prod.mk.injEq]
      constructor
      · rintro ⟨_, _, _, h⟩
        exact h.symm
      · exact fun h => ⟨subject, hself, rfl, h.symm⟩
    next hnot =>
      refine .keep (hobservers.trans (if_neg hnot)) fun ob => ?_
      rw [hregistered]
      refine and_iff_left_of_imp fun hob hmem => ?_
      simp only [List.mem_map, Prod.mk.injEq] at hmem
      obtain ⟨_, hkey, rfl, rfl⟩ := hmem
      exact hnot hkey

end Registrations

/-! ## Rounds -/

/-- Where the worker is with the message. -/
inductive RoundPc (ο : Type)
  | visiting
  /-- In `update` of the observer, to which the worker has a `shared_ptr`. -/
  | updating (ob : ο)
  | finished
  deriving DecidableEq

/-- The delivery of a message. -/
structure Round (σ ο κ : Type) where
  registrations : Registrations σ ο κ
  /-- The observers to which there is no `shared_ptr` outside of the worker. -/
  released : ο → Bool
  /-- The list of the subject, and the iterator. The entries are numbered as they are attached. -/
  entries : Traversal (ℕ × ο)
  /-- The number of entries that have been attached. -/
  attached : ℕ
  pc : RoundPc ο

/-- A step of a round. -/
inductive RoundAction (σ ο κ : Type)
  /-- A turn of the loop, up to the call of `update`. -/
  | visit
  /-- The callback that runs calls an observer. -/
  | call (a : Registrations.Action σ ο κ)
  /-- The last `shared_ptr` to an observer outside of the worker is released. -/
  | release (ob : ο)
  /-- `update` returns, or throws an exception that the worker catches. -/
  | leave

namespace Round

/-- The worker has taken a message. -/
def start (w : Registrations σ ο κ) (subject : σ) (released : ο → Bool) : Round σ ο κ where
  registrations := w
  released := released
  entries := .start ((w.observers_ subject).zipIdx.map Prod.swap)
  attached := (w.observers_ subject).length
  pc := .visiting

/-- The observer is alive: it is held outside of the worker, or the worker is in its `update`. -/
def Alive [DecidableEq ο] (s : Round σ ο κ) (ob : ο) : Prop :=
  s.released ob = false ∨ s.pc = .updating ob

instance [DecidableEq ο] (s : Round σ ο κ) (ob : ο) : Decidable (s.Alive ob) :=
  inferInstanceAs (Decidable (_ = _ ∨ _ = _))

variable [DecidableEq σ] [DecidableEq ο]

/-- The list as the call leaves it. -/
def edit (s : Round σ ο κ) (subject : σ) : Edit ο → Traversal (ℕ × ο)
  | .keep => s.entries
  | .attach ob => s.entries.append (s.attached, ob)
  | .detach ob => s.entries.eraseAt ((s.registrations.observers_ subject).idxOf ob)

/-- The entries that the call attaches. -/
def Edit.attached : Edit ο → ℕ
  | .attach _ => 1
  | .keep | .detach _ => 0

/-- A call that an observer makes during the round, with its edit of `observers_`. -/
def call (s : Round σ ο κ) (subject : σ) (a : Registrations.Action σ ο κ) :
    Except Fault (Round σ ο κ) := do
  let e := s.registrations.edit subject a
  let registrations ← s.registrations.step a
  return { s with
    registrations
    entries := s.edit subject e
    attached := s.attached + Edit.attached e }

/-- `observers_.erase(it)`. -/
def purge (s : Round σ ο κ) (subject : σ) : Round σ ο κ :=
  let observers :=
    (s.registrations.observers_ subject).eraseIdx s.entries.before.length
  { s with
    registrations.observers_ := Function.update s.registrations.observers_ subject observers
    entries := s.entries.purge }

/-- The iterator is at its next entry: an expired one is erased, and a live one is updated. -/
def visit (s : Round σ ο κ) (subject : σ) : Round σ ο κ :=
  match (s.registrations.observers_ subject)[s.entries.before.length]? with
  | none => { s with pc := .finished }
  | some ob => if s.released ob then s.purge subject else { s with pc := .updating ob }

/-- A step; one that cannot be taken changes nothing. -/
def step (subject : σ) (s : Round σ ο κ) : RoundAction σ ο κ → Except Fault (Round σ ο κ)
  | .visit =>
    match s.pc with
    | .visiting => .ok (s.visit subject)
    | _ => .ok s
  | .call a =>
    match s.pc with
    | .updating _ => if s.Alive a.self then s.call subject a else .ok s
    | _ => .ok s
  | .release ob => .ok { s with released := Function.update s.released ob true }
  | .leave =>
    match s.pc with
    | .updating _ =>
      -- the iterator of an erased node cannot be moved on
      if s.entries.lost then .error .outOfBounds
      else .ok { s with entries := s.entries.advance, pc := .visiting }
    | _ => .ok s

end Round

/-! ## The entries -/

namespace Round

/-- The entries that were there when the round began. -/
def initial (w : Registrations σ ο κ) (subject : σ) : List (ℕ × ο) :=
  (w.observers_ subject).zipIdx.map Prod.swap

theorem nodup_of_range {all : List (ℕ × ο)} {n : ℕ} (h : all.map Prod.fst = List.range n) :
    all.Nodup :=
  List.Nodup.of_map Prod.fst (h ▸ List.nodup_range)

variable {w : Registrations σ ο κ} {subject : σ} {s t : Round σ ο κ}

theorem visit_lost [DecidableEq σ] : (s.visit subject).entries.lost = s.entries.lost := by
  unfold Round.visit
  split
  · rfl
  · split
    · simp only [purge, Traversal.purge]
      split <;> rfl
    · rfl

variable [DecidableEq ο]

/-- The invariant of a round that has begun with `w`. -/
structure Ok (s : Round σ ο κ) (w : Registrations σ ο κ) (subject : σ) : Prop where
  agrees : s.registrations.observers_ subject = s.entries.nodes.map Prod.snd
  accounts : ∃ all, initial w subject <+: all ∧ all.map Prod.fst = List.range s.attached ∧
    s.entries.Sound all
  purged : ∀ x ∈ s.entries.purged, s.released x.2 = true
  kept : (∀ ob, s.pc ≠ .updating ob) → s.entries.lost = false
  updating : ∀ ob, s.pc = .updating ob → s.entries.lost = false →
    ∃ k, s.entries.ahead.head? = some (k, ob)
  finished : s.pc = .finished → s.entries.ahead = []

theorem start_ok (w : Registrations σ ο κ) (subject : σ) (released : ο → Bool) :
    (start w subject released).Ok w subject where
  agrees := by simp [start, Function.comp_def]
  accounts := by
    refine ⟨initial w subject, List.prefix_rfl, ?_, Traversal.start_sound _⟩
    simp [initial, start, Function.comp_def, List.range_eq_range']
  purged _ h := absurd h List.not_mem_nil
  kept _ := rfl
  updating _ h := nomatch h
  finished h := nomatch h

/-- The place of the iterator in the list of the subject. -/
theorem Ok.getElem? (hs : s.Ok w subject) :
    (s.registrations.observers_ subject)[s.entries.before.length]? =
      s.entries.ahead.head?.map Prod.snd := by
  rw [hs.agrees, Traversal.nodes, List.map_append, List.getElem?_append_right (by simp)]
  cases s.entries.ahead <;> simp

theorem Ok.leave (hs : s.Ok w subject) (hkept : s.entries.lost = false) :
    ({ s with entries := s.entries.advance, pc := .visiting } : Round σ ο κ).Ok w subject := by
  obtain ⟨all, hinitial, hnumbers, hsound⟩ := hs.accounts
  have hfields : s.entries.advance.purged = s.entries.purged ∧
      s.entries.advance.lost = s.entries.lost := by
    unfold Traversal.advance
    split <;> exact ⟨rfl, rfl⟩
  refine ⟨?_, ⟨all, hinitial, hnumbers, hsound.advance (nodup_of_range hnumbers)⟩, ?_,
    fun _ => hfields.2.trans hkept, fun _ h => (nomatch h), fun h => nomatch h⟩
  · rw [Traversal.nodes_advance]
    exact hs.agrees
  · rw [hfields.1]
    exact hs.purged

/-- The list of the subject has one entry for every observer that is registered with it, as far as
these are alive. -/
structure Tidy (s : Round σ ο κ) (subject : σ) : Prop where
  nodup : (s.registrations.observers_ subject).Nodup
  mem_iff : ∀ ob, s.Alive ob →
    (ob ∈ s.registrations.observers_ subject ↔ s.registrations.Registered subject ob)

/-- The iterator is at the first entry of the observer that is updated. -/
theorem Ok.idxOf_eq (hs : s.Ok w subject) (htidy : s.Tidy subject) {ob : ο}
    (hpc : s.pc = .updating ob) (hkept : s.entries.lost = false) (self : ο)
    (hself : self ∈ s.registrations.observers_ subject) :
    (s.registrations.observers_ subject).idxOf self = s.entries.before.length ↔ self = ob := by
  obtain ⟨k, hhead⟩ := hs.updating ob hpc hkept
  have hplace := hs.getElem?
  rw [hhead] at hplace
  obtain ⟨hlt, hob⟩ := List.getElem?_eq_some_iff.1 hplace
  constructor
  · intro hidx
    have hget := List.getElem_idxOf (List.idxOf_lt_length_of_mem hself)
    simp only [hidx] at hget
    exact hget.symm.trans hob
  · rintro rfl
    have hidx := htidy.nodup.idxOf_getElem _ hlt
    rwa [hob] at hidx

/-- A tidy list stays so when no observer has come to life. -/
theorem Tidy.same (htidy : s.Tidy subject) (hregistrations : t.registrations = s.registrations)
    (halive : ∀ ob, t.Alive ob → s.Alive ob) : t.Tidy subject := by
  refine ⟨hregistrations ▸ htidy.nodup, fun ob hob => ?_⟩
  rw [hregistrations]
  exact htidy.mem_iff ob (halive ob hob)

variable [DecidableEq σ]

/-- **A turn of the loop** ends the round, erases an entry whose observer is gone, or enters
`update`. -/
theorem Ok.visit (hs : s.Ok w subject) (hpc : s.pc = .visiting) : (s.visit subject).Ok w subject := by
  have hnot (ob : ο) : s.pc ≠ .updating ob := by simp [hpc]
  have hkept : s.entries.lost = false := hs.kept hnot
  unfold Round.visit
  split
  next hplace =>
    rw [hs.getElem?] at hplace
    refine ⟨hs.agrees, hs.accounts, hs.purged, fun _ => hkept, by simp, fun _ => ?_⟩
    simpa using hplace
  next ob hplace =>
    rw [hs.getElem?] at hplace
    obtain ⟨⟨k, ob'⟩, hhead, hob⟩ := Option.map_eq_some_iff.1 hplace
    obtain rfl : ob' = ob := hob
    split
    next hreleased =>
      obtain ⟨rest, hahead⟩ := List.head?_eq_some_iff.1 hhead
      obtain ⟨all, hinitial, hnumbers, hsound⟩ := hs.accounts
      refine ⟨?_, ⟨all, hinitial, hnumbers, hsound.purge (nodup_of_range hnumbers) hkept⟩, ?_, ?_, ?_, ?_⟩
      · simp only [purge, Function.update_self, hs.agrees, Traversal.nodes_purge, List.eraseIdx_map]
      · intro x hx
        simp only [purge, Traversal.purge, hahead, List.mem_append, List.mem_singleton] at hx
        rcases hx with hx | rfl
        · exact hs.purged x hx
        · exact hreleased
      · intro _
        simpa only [purge, Traversal.purge, hahead] using hkept
      · exact fun ob h => absurd h (hnot ob)
      · simp [purge, hpc]
    next =>
      refine ⟨hs.agrees, hs.accounts, hs.purged, fun h => absurd rfl (h ob'), ?_, by simp⟩
      intro ob hpc' _
      obtain rfl := RoundPc.updating.inj hpc'
      exact ⟨k, hhead⟩

/-- **A call** of the callback that runs. -/
theorem Ok.call (hs : s.Ok w subject) {ob : ο} (hpc : s.pc = .updating ob)
    {a : Registrations.Action σ ο κ} (h : s.call subject a = .ok t) : t.Ok w subject := by
  obtain ⟨registrations, hstep, h⟩ := bind_eq_ok.1 h
  obtain rfl := Except.ok.inj h
  obtain ⟨all, hinitial, hnumbers, hsound⟩ := hs.accounts
  have hedited := Registrations.step_edited subject hstep
  have hne : ¬∀ ob', s.pc ≠ .updating ob' := fun h => h ob hpc
  have hend : s.pc ≠ .finished := fun h => nomatch hpc.symm.trans h
  generalize s.registrations.edit subject a = e at hedited
  cases hedited with
  | keep hobservers =>
    exact ⟨hobservers.trans hs.agrees, ⟨all, hinitial, hnumbers, hsound⟩, hs.purged,
      fun h => absurd h hne, hs.updating, fun h => absurd h hend⟩
  | attach self hobservers =>
    refine ⟨?_, ⟨all ++ [(s.attached, self)], hinitial.trans (List.prefix_append ..), ?_,
      hsound.append _⟩, hs.purged, fun h => absurd h hne, fun ob' hpc' hkept => ?_,
      fun h => absurd h hend⟩
    · simp [edit, hobservers, hs.agrees]
    · simp [hnumbers, Edit.attached, List.range_succ]
    · obtain ⟨k, hhead⟩ := hs.updating ob' hpc' hkept
      refine ⟨k, ?_⟩
      simp only [edit, Traversal.append, List.head?_append, hhead, Option.some_or]
  | detach self hobservers =>
    refine ⟨?_, ⟨all, hinitial, hnumbers, hsound.eraseAt (nodup_of_range hnumbers) _⟩, ?_,
      fun h => absurd h hne, fun ob' hpc' hkept => ?_, fun h => absurd h hend⟩
    · show registrations.observers_ subject = (s.edit subject (.detach self)).nodes.map Prod.snd
      rw [edit, Traversal.nodes_eraseAt, ← List.eraseIdx_map, ← hs.agrees,
        List.eraseIdx_idxOf_eq_erase, hobservers]
    · intro x hx
      exact hs.purged x (by simpa [edit] using hx)
    · obtain ⟨k, hhead⟩ := hs.updating ob' hpc' (Traversal.kept_of_eraseAt hkept)
      exact ⟨k, Traversal.head_eraseAt hhead hkept⟩

theorem Ok.step (hs : s.Ok w subject) {a : RoundAction σ ο κ} (h : s.step subject a = .ok t) :
    t.Ok w subject := by
  have hsame : Except.ok s = (.ok t : Except Fault (Round σ ο κ)) → t.Ok w subject :=
    fun h => Except.ok.inj h ▸ hs
  cases a with
  | visit =>
    simp only [Round.step] at h
    split at h
    next hpc => exact Except.ok.inj h ▸ hs.visit hpc
    next => exact hsame h
  | call a =>
    simp only [Round.step] at h
    split at h
    next ob hpc =>
      split at h
      · exact hs.call hpc h
      · exact hsame h
    next => exact hsame h
  | release ob =>
    obtain rfl := Except.ok.inj h
    refine ⟨hs.agrees, hs.accounts, fun x hx => ?_, hs.kept, hs.updating, hs.finished⟩
    by_cases hob : x.2 = ob
    · rw [hob]
      exact Function.update_self ..
    · exact (Function.update_of_ne hob ..).trans (hs.purged x hx)
  | leave =>
    simp only [Round.step] at h
    split at h
    next ob hpc =>
      split at h
      next => cases h
      next hkept => exact Except.ok.inj h ▸ hs.leave (by simpa using hkept)
    next => exact hsame h

/-- The entry has been called and left, found to be that of an observer that is gone, or detached. -/
def Met (s : Round σ ο κ) (x : ℕ × ο) : Prop :=
  x ∈ s.entries.passed ∨ x ∈ s.entries.purged ∨ x ∈ s.entries.removed

/-- **A round serves every entry once**: when a message has been delivered, whatever its callbacks
have done to the registrations, the observers have been called in the order of their entries, each
entry at most once; those of the list, and those attached during the round, have all been called,
but for entries that were detached and for observers that were gone. The list now has the entries
that have been called and not been detached. -/
theorem serves {released : ο → Bool} {actions : List (RoundAction σ ο κ)}
    (h : run (Round.step subject) (start w subject released) actions = .ok s)
    (hend : s.pc = .finished) :
    s.entries.passed.Pairwise (fun x y => x.1 < y.1) ∧
    s.registrations.observers_ subject =
      (s.entries.passed.filter (· ∉ s.entries.removed)).map Prod.snd ∧
    (∀ x ∈ s.entries.purged, x ∉ s.entries.passed ∧ s.released x.2 = true) ∧
    (∀ k ob, (w.observers_ subject)[k]? = some ob → s.Met (k, ob)) ∧
    ∀ k < s.attached, ∃ ob, s.Met (k, ob) := by
  have hok : s.Ok w subject :=
    invariant (I := fun s : Round σ ο κ => s.Ok w subject) (fun _ _ _ hs ht => hs.step ht)
      (start_ok w subject released) h
  obtain ⟨all, hinitial, hnumbers, hsound⟩ := hok.accounts
  have hkept := hok.kept fun ob hpc => nomatch hend.symm.trans hpc
  obtain ⟨hsublist, hnodes, hpurged, hmet⟩ := hsound.met hkept (hok.finished hend)
  have hordered : all.Pairwise fun x y => x.1 < y.1 := by
    rw [← List.pairwise_map, hnumbers]
    exact List.pairwise_lt_range
  refine ⟨hordered.sublist hsublist, ?_, fun x hx => ⟨hpurged x hx, hok.purged x hx⟩,
    fun k ob hk => ?_, fun k hk => ?_⟩
  · rw [hok.agrees, hnodes]
    exact congrArg _ (List.filter_congr fun x _ => decide_eq_decide.2 Iff.rfl)
  · refine hmet _ (hinitial.subset ?_)
    exact List.mem_map.2 ⟨(ob, k), List.mem_zipIdx_iff_getElem?.2 hk, rfl⟩
  · have hmem : k ∈ all.map Prod.fst := by
      rw [hnumbers]
      exact List.mem_range.2 hk
    obtain ⟨⟨k, ob⟩, hx, rfl⟩ := List.mem_map.1 hmem
    exact ⟨ob, hmet _ hx⟩

/-- Two observers. -/
def pair : Registrations Unit (Fin 3) ℕ :=
  (Registrations.empty.setCallback 0 () 10).setCallback 1 () 11

/-- The callback of the first registers a third one, and removes the second. -/
def reentrant : List (RoundAction Unit (Fin 3) ℕ) :=
  [.visit, .call (.setCallback 2 () 12), .call (.removeFromSubject 1 ()), .leave, .visit, .leave,
    .visit]

theorem serves_reentrant : ∃ s, run (Round.step ()) (start pair () fun _ => false) reentrant = .ok s ∧
    s.entries.passed = [(0, 0), (2, 2)] ∧
    s.entries.passed.Pairwise (fun x y => x.1 < y.1) ∧
    s.registrations.observers_ () =
      (s.entries.passed.filter (· ∉ s.entries.removed)).map Prod.snd ∧
    (∀ x ∈ s.entries.purged, x ∉ s.entries.passed ∧ s.released x.2 = true) ∧
    (∀ k ob, (pair.observers_ ())[k]? = some ob → s.Met (k, ob)) ∧
    ∀ k < s.attached, ∃ ob, s.Met (k, ob) := by
  have hrun : (run (Round.step ()) (start pair () fun _ => false) reentrant).map
      (fun s => (s.pc, s.entries.passed)) = .ok (.finished, [(0, 0), (2, 2)]) := by
    decide +kernel
  obtain ⟨s, hs, hend⟩ := exists_of_map hrun
  obtain ⟨hpc, hpassed⟩ := Prod.mk.inj hend
  exact ⟨s, hs, hpassed, serves hs hpc⟩

/-! ## The iterator -/

/-- The call registers a new pair, or removes a registered one. -/
def Orderly (s : Round σ ο κ) : RoundAction σ ο κ → Prop
  | .call a => (∃ ob, s.pc = .updating ob) → s.Alive a.self → s.registrations.Orderly a
  | .visit | .release _ | .leave => True

/-- The call does not take the observer out of the list that the callback runs for. -/
def Spares (subject : σ) (s : Round σ ο κ) : RoundAction σ ο κ → Prop
  | .call a => ∀ ob, s.pc = .updating ob → s.registrations.edit subject a ≠ .detach ob
  | .visit | .release _ | .leave => True

theorem start_tidy (hw : w.Consistent) (subject : σ) (released : ο → Bool) :
    (start w subject released).Tidy subject := by
  refine ⟨?_, fun ob _ => ?_⟩
  · refine List.nodup_iff_count_le_one.2 fun ob => ?_
    have hcount : (w.observers_ subject).count ob = _ := hw subject ob
    show (w.observers_ subject).count ob ≤ 1
    rw [hcount]
    split <;> omega
  · have hcount : (w.observers_ subject).count ob = _ := hw subject ob
    show ob ∈ w.observers_ subject ↔ w.Registered subject ob
    rw [← List.count_pos_iff, hcount]
    split <;> simp [*]

/-- An orderly call keeps the list tidy. -/
theorem Tidy.call (htidy : s.Tidy subject) {a : Registrations.Action σ ο κ} (halive : s.Alive a.self)
    (horderly : s.registrations.Orderly a) (h : s.call subject a = .ok t) : t.Tidy subject := by
  obtain ⟨registrations, hstep, h⟩ := bind_eq_ok.1 h
  obtain rfl := Except.ok.inj h
  have hedited := Registrations.step_edited subject hstep
  generalize he : s.registrations.edit subject a = e at hedited
  cases hedited with
  | keep hobservers hregistered =>
    refine ⟨hobservers ▸ htidy.nodup, fun ob hob => ?_⟩
    rw [hobservers, hregistered]
    exact htidy.mem_iff ob hob
  | attach self hobservers hregistered =>
    have hnew : self ∉ s.registrations.observers_ subject := by
      cases a with
      | setCallback self' subject' cb =>
        simp only [Registrations.edit] at he
        split at he
        next heq =>
          obtain rfl := Edit.attach.inj he
          subst heq
          exact fun hmem => horderly ((htidy.mem_iff _ halive).1 hmem)
        next => cases he
      | removeFromSubject | removeSelf =>
        simp only [Registrations.edit] at he
        split at he <;> cases he
    refine ⟨?_, fun ob hob => ?_⟩
    · rw [hobservers]
      exact List.nodup_append.2 ⟨htidy.nodup, List.nodup_singleton self, fun x hx y hy h =>
        hnew (List.mem_singleton.1 hy ▸ h ▸ hx)⟩
    · rw [hobservers, hregistered, List.mem_append, List.mem_singleton]
      exact or_congr_left (htidy.mem_iff ob hob)
  | detach self hobservers hregistered =>
    refine ⟨hobservers ▸ htidy.nodup.erase self, fun ob hob => ?_⟩
    rw [hobservers, hregistered, htidy.nodup.mem_erase_iff, and_comm]
    exact and_congr_left fun _ => htidy.mem_iff ob hob

/-- What an orderly call takes out of the list is in it. -/
theorem Tidy.mem_of_detach (htidy : s.Tidy subject) {a : Registrations.Action σ ο κ} {self : ο}
    (halive : s.Alive a.self) (horderly : s.registrations.Orderly a)
    (he : s.registrations.edit subject a = .detach self) :
    self ∈ s.registrations.observers_ subject := by
  cases a with
  | setCallback =>
    simp only [Registrations.edit] at he
    split at he <;> cases he
  | removeFromSubject self' subject' =>
    simp only [Registrations.edit] at he
    split at he
    next heq =>
      obtain rfl := Edit.detach.inj he
      subst heq
      exact (htidy.mem_iff _ halive).2 horderly
    next => cases he
  | removeSelf self' =>
    simp only [Registrations.edit] at he
    split at he
    next hregistered =>
      obtain rfl := Edit.detach.inj he
      exact (htidy.mem_iff _ halive).2 hregistered
    next => cases he

/-- A call loses the iterator exactly when it takes out the observer that is updated. -/
theorem Ok.call_lost (hs : s.Ok w subject) (htidy : s.Tidy subject) {ob : ο}
    (hpc : s.pc = .updating ob) (hkept : s.entries.lost = false) {a : Registrations.Action σ ο κ}
    (halive : s.Alive a.self) (horderly : s.registrations.Orderly a) (h : s.call subject a = .ok t) :
    t.entries.lost = false ↔ s.registrations.edit subject a ≠ .detach ob := by
  obtain ⟨registrations, hstep, h⟩ := bind_eq_ok.1 h
  obtain rfl := Except.ok.inj h
  show (s.edit subject (s.registrations.edit subject a)).lost = false ↔ _
  cases he : s.registrations.edit subject a with
  | keep => simpa [edit] using hkept
  | attach self => simpa [edit, Traversal.append] using hkept
  | detach self =>
    have hmem := htidy.mem_of_detach halive horderly he
    have hlt : (s.registrations.observers_ subject).idxOf self < s.entries.nodes.length := by
      have hlt := List.idxOf_lt_length_of_mem hmem
      rw [hs.agrees, List.length_map] at hlt
      rwa [hs.agrees]
    rw [← Bool.not_eq_true, edit, Traversal.lost_eraseAt hlt, hs.idxOf_eq htidy hpc hkept self hmem]
    simp [hkept]

/-- A round whose iterator is lost does not get it back. -/
theorem lost_step {a : RoundAction σ ο κ} (hlost : s.entries.lost = true)
    (h : s.step subject a = .ok t) : t.entries.lost = true := by
  have hsame : Except.ok s = (.ok t : Except Fault (Round σ ο κ)) → t.entries.lost = true :=
    fun h => Except.ok.inj h ▸ hlost
  cases a with
  | visit =>
    simp only [Round.step] at h
    split at h
    next =>
      obtain rfl := Except.ok.inj h
      exact visit_lost.trans hlost
    next => exact hsame h
  | call a =>
    simp only [Round.step] at h
    split at h
    next =>
      split at h
      next =>
        obtain ⟨registrations, hstep, h⟩ := bind_eq_ok.1 h
        obtain rfl := Except.ok.inj h
        show (s.edit subject (s.registrations.edit subject a)).lost = true
        cases s.registrations.edit subject a with
        | keep | attach => exact hlost
        | detach self =>
          by_contra hkept
          rw [edit, Bool.not_eq_true] at hkept
          exact absurd (Traversal.kept_of_eraseAt hkept) (by simp [hlost])
      next => exact hsame h
    next => exact hsame h
  | release ob =>
    obtain rfl := Except.ok.inj h
    exact hlost
  | leave =>
    simp only [Round.step] at h
    split at h
    next =>
      rw [if_pos hlost] at h
      cases h
    next => exact hsame h

theorem Tidy.visit (htidy : s.Tidy subject) (hpc : s.pc = .visiting) :
    (s.visit subject).Tidy subject := by
  have hreleased {ob : ο} (hob : s.Alive ob) : s.released ob = false :=
    hob.resolve_right fun h => nomatch hpc.symm.trans h
  unfold Round.visit
  split
  · exact htidy.same rfl fun ob hob => .inl (hob.resolve_right fun h => nomatch h)
  next ob hplace =>
    obtain ⟨hlt, hob⟩ := List.getElem?_eq_some_iff.1 hplace
    split
    next hgone =>
      -- the entry is that of an observer that is gone
      have herase : (s.registrations.observers_ subject).eraseIdx s.entries.before.length =
          (s.registrations.observers_ subject).erase ob := by
        rw [← htidy.nodup.erase_getElem _ hlt, hob]
      refine ⟨?_, fun ob' hob' => ?_⟩
      · simpa only [purge, Function.update_self] using htidy.nodup.eraseIdx _
      · have hob' : s.Alive ob' := hob'
        have hne : ob' ≠ ob := by
          rintro rfl
          simp [hreleased hob'] at hgone
        simp only [purge, Function.update_self, herase, htidy.nodup.mem_erase_iff, hne, ne_eq,
          not_false_eq_true, true_and]
        exact htidy.mem_iff ob' hob'
    next hheld =>
      refine htidy.same rfl fun ob' hob' => ?_
      rcases hob' with hob' | hob'
      · exact .inl hob'
      · obtain rfl := RoundPc.updating.inj hob'
        exact .inl (by simpa using hheld)

theorem Tidy.step (htidy : s.Tidy subject) {a : RoundAction σ ο κ}
    (horderly : s.Orderly a) (h : s.step subject a = .ok t) : t.Tidy subject := by
  have hsame : Except.ok s = (.ok t : Except Fault (Round σ ο κ)) → t.Tidy subject :=
    fun h => Except.ok.inj h ▸ htidy
  cases a with
  | visit =>
    simp only [Round.step] at h
    split at h
    next hpc => exact Except.ok.inj h ▸ htidy.visit hpc
    next => exact hsame h
  | call a =>
    simp only [Round.step] at h
    split at h
    next ob hpc =>
      split at h
      next halive => exact htidy.call halive (horderly ⟨ob, hpc⟩ halive) h
      next => exact hsame h
    next => exact hsame h
  | release ob =>
    obtain rfl := Except.ok.inj h
    refine htidy.same rfl fun ob' hob' => hob'.imp_left fun hheld => ?_
    by_cases heq : ob' = ob
    · subst heq
      simp at hheld
    · simpa [heq] using hheld
  | leave =>
    simp only [Round.step] at h
    split at h
    next =>
      split at h
      next => cases h
      next =>
        obtain rfl := Except.ok.inj h
        exact htidy.same rfl fun ob hob => .inl (hob.resolve_right fun h => nomatch h)
    next => exact hsame h

/-- **An orderly step** returns with a valid iterator exactly when it spares the observer that is
updated. -/
theorem Ok.keeps_step (hs : s.Ok w subject) (htidy : s.Tidy subject) (hkept : s.entries.lost = false)
    {a : RoundAction σ ο κ} (horderly : s.Orderly a) :
    (∃ t, s.step subject a = .ok t ∧ t.entries.lost = false) ↔ s.Spares subject a := by
  cases a with
  | visit =>
    refine iff_of_true ?_ trivial
    simp only [Round.step]
    split
    · exact ⟨_, rfl, visit_lost.trans hkept⟩
    · exact ⟨s, rfl, hkept⟩
  | call a =>
    simp only [Round.step, Spares]
    split
    next ob hpc =>
      simp only [hpc, RoundPc.updating.injEq, forall_eq']
      split
      next halive =>
        have horderly := horderly ⟨ob, hpc⟩ halive
        obtain ⟨registrations, hstep⟩ := horderly.returns
        have hcall : s.call subject a = .ok _ := bind_eq_ok.2 ⟨registrations, hstep, rfl⟩
        rw [← hs.call_lost htidy hpc hkept halive horderly hcall]
        exact ⟨fun ⟨t, ht, hlost⟩ => Except.ok.inj (ht.symm.trans hcall) ▸ hlost,
          fun hlost => ⟨_, hcall, hlost⟩⟩
      next hgone =>
        refine iff_of_true ⟨s, rfl, hkept⟩ fun he => hgone (.inr ?_)
        rw [hpc, Registrations.self_of_detach he]
    next hpc => exact iff_of_true ⟨s, rfl, hkept⟩ fun ob h => absurd h (hpc ob)
  | release ob => exact iff_of_true ⟨_, rfl, hkept⟩ trivial
  | leave =>
    refine iff_of_true ?_ trivial
    simp only [Round.step, hkept]
    split
    · refine ⟨_, rfl, ?_⟩
      simp only [Traversal.advance]
      split <;> exact hkept
    · exact ⟨s, rfl, hkept⟩

theorem Ok.keeps_run (hs : s.Ok w subject) (htidy : s.Tidy subject) (hkept : s.entries.lost = false)
    {actions : List (RoundAction σ ο κ)} (horderly : Along (Round.step subject) Orderly s actions) :
    (∃ t, run (Round.step subject) s actions = .ok t ∧ t.entries.lost = false) ↔
      Along (Round.step subject) (Spares subject) s actions := by
  induction actions generalizing s with
  | nil => exact iff_of_true ⟨s, rfl, hkept⟩ trivial
  | cons a actions ih =>
    obtain ⟨ha, hrest⟩ := horderly
    simp only [run_cons_ok, Along, ← hs.keeps_step htidy hkept ha]
    constructor
    · rintro ⟨u, ⟨t, ht, hu⟩, hlost⟩
      have hkept' : t.entries.lost = false := by
        by_contra hlost'
        have hstays := invariant (I := fun s : Round σ ο κ => s.entries.lost = true)
          (fun _ _ _ hs ht => lost_step hs ht) (by simpa using hlost') hu
        simp [hstays] at hlost
      refine ⟨⟨t, ht, hkept'⟩, fun t' ht' => ?_⟩
      obtain rfl := Except.ok.inj (ht.symm.trans ht')
      exact (ih (hs.step ht) (htidy.step ha ht) hkept' (hrest t ht)).1 ⟨u, hu, hlost⟩
    · rintro ⟨⟨t, ht, hkept'⟩, hspares⟩
      obtain ⟨u, hu, hlost⟩ :=
        (ih (hs.step ht) (htidy.step ha ht) hkept' (hrest t ht)).2 (hspares t ht)
      exact ⟨u, ⟨t, ht, hu⟩, hlost⟩

/-- **The iterator stays valid, exactly**: from registrations that are consistent on both sides, and
with callbacks that register new pairs and remove registered ones only, a round returns with its
iterator valid if and only if no callback takes the observer that it is called for out of the list
of the subject. -/
theorem keeps_iff (hw : w.Consistent) {released : ο → Bool} {actions : List (RoundAction σ ο κ)}
    (horderly : Along (Round.step subject) Orderly (start w subject released) actions) :
    (∃ s, run (Round.step subject) (start w subject released) actions = .ok s ∧
        s.entries.lost = false) ↔
      Along (Round.step subject) (Spares subject) (start w subject released) actions :=
  (start_ok w subject released).keeps_run (start_tidy hw subject released) rfl horderly

instance (s : Round σ ο κ) (a : RoundAction σ ο κ) : Decidable (s.Orderly a) :=
  match a with
  | .call a =>
    match h : s.pc with
    | .updating ob => decidable_of_iff (s.Alive a.self → s.registrations.Orderly a)
        ⟨fun horderly _ => horderly, fun horderly => horderly ⟨ob, h⟩⟩
    | .visiting | .finished => .isTrue fun ⟨_, hob⟩ => nomatch h.symm.trans hob
  | .visit | .release _ | .leave => .isTrue trivial

theorem keeps_iff_reentrant :
    (∃ s, run (Round.step ()) (start pair () fun _ => false) reentrant = .ok s ∧
        s.entries.lost = false) ↔
      Along (Round.step ()) (Spares ()) (start pair () fun _ => false) reentrant := by
  have hpair : pair.Consistent := by
    rintro ⟨⟩ ob
    revert ob
    decide
  exact keeps_iff hpair (by decide +kernel)

/-- An observer that removes itself in its own callback. -/
example : run (Round.step ()) (start pair () fun _ => false)
    [.visit, .call (.removeSelf 0), .leave] = .error .outOfBounds := rfl

end Round

end Muduo.DesignPattern
