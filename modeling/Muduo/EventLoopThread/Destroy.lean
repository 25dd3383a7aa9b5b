import Muduo.EventLoopThread.Quit

/-!
# The destructor

`~EventLoopThread` tests `loop_`, reads it again to call `quit()`, and joins, all without the mutex,
while a holder of the address that `startLoop` has returned may have quit the loop. When
`threadFunc` clears `loop_` before the test, the destructor returns and leaves the thread to run on
without it; when it does so between the test and the second read, `quit()` is called through a null
pointer; and when the frame of `threadFunc` ends before the store of `quit()` or its wake-up, they
find no loop.

`safe_iff`: nothing else can go wrong.
-/

namespace Muduo

open Run

variable {φ τ : Type}

namespace EventLoopThread

/-- A step of `threadFunc` on `mutex_` or `loop_`. -/
def Action.OnMembers : Action φ τ → Prop
  | .publish | .lock | .clear | .unlock => True
  | _ => False

/-- `threadFunc` is between its two stores to `loop_`. -/
def Uncleared (s : EventLoopThread φ τ) : Prop := s.func = .published ∨ s.func = .locked

/-! ## The invariant -/

/-- What steps in time keep. -/
structure Shut (s : EventLoopThread φ τ) : Prop where
  framed : s.Framed
  joined_ : s.joined_ = true → s.destructor = .returned
  returned : s.destructor = .returned → s.started = true → s.joined_ = true ∧ s.func = .ended

theorem construct_shut (threadId : τ) : (construct threadId : EventLoopThread φ τ).Shut :=
  ⟨construct_framed threadId, by simp [construct], by simp [construct]⟩

/-- A step of `threadFunc`: it has not ended, so that the destructor has not returned. -/
theorem Shut.advance {s t : EventLoopThread φ τ} (hs : s.Shut) (hended : s.func ≠ .ended)
    (ht : t.Framed)
    (heq : (t.started, t.joined_, t.destructor) = (s.started, s.joined_, s.destructor)) :
    t.Shut := by
  simp only [Prod.mk.injEq] at heq
  obtain ⟨hstarted, hjoined, hdestructor⟩ := heq
  refine ⟨ht, fun h => ?_, fun hreturned h => ?_⟩
  · exact hdestructor.trans (hs.joined_ (hjoined.symm.trans h))
  · have hsreturned := hs.returned (hdestructor.symm.trans hreturned) (hstarted.symm.trans h)
    exact absurd hsreturned.2 hended

/-! ## The conditions -/

variable [DecidableEq τ]

/-- Nothing goes wrong with the destructor at the step. -/
structure Safe (s : EventLoopThread φ τ) (a : Action φ τ) : Prop where
  /-- Its `quit()` is called through a `loop_` that is not null, -/
  call : a = .call → ∀ i, s.destructor = .tested i → s.loop_ = true
  /-- finds the loop at its store, -/
  quit : a = .quit → ∀ i, s.destructor = .calling i → s.loop.thread i = .idle → s.Alive
  /-- and at its wake-up. -/
  wakeQuit : ∀ i, a = .on (.wakeQuit i) → s.destructor = .joining i → s.loop.thread i = .quit →
    s.Alive
  /-- When it has returned, after `startLoop` has, the thread has been joined, -/
  joined : ∀ t, s.step a = .ok t → t.destructor = .returned → t.started = true → t.joined_ = true
  /-- and does not come back to the members. -/
  untouched : s.destructor = .returned → s.started = true → a.OnMembers → s.step a = .ok s

/-- The steps of the destructor come before those of `threadFunc` that end what they need: its two
reads of `loop_`, the first if `startLoop` has returned, before `loop_` is cleared, and the store and
the wake-up of `quit()` before the loop is destroyed. -/
def InTime (s : EventLoopThread φ τ) : Action φ τ → Prop
  | .destroy t => s.destructor = .absent → t ≠ s.loop.threadId_ → s.loop.thread t = .idle →
      s.started = true → s.Uncleared
  | .call => ∀ i, s.destructor = .tested i → s.Uncleared
  | .quit => ∀ i, s.destructor = .calling i → s.loop.thread i = .idle → s.func ≠ .ended
  | .on (.wakeQuit i) => s.destructor = .joining i → s.loop.thread i = .quit → s.func ≠ .ended
  | _ => True

/-! ## Safety -/

variable {s t : EventLoopThread φ τ} {a : Action φ τ}

theorem Shut.step (hs : s.Shut) (hin : s.InTime a) (h : s.step a = .ok t) : t.Shut := by
  have ht := hs.framed.step h
  cases a with
  | start | publish | lock | clear | unlock | leave =>
    obtain rfl := Except.ok.inj h
    split
    next hguard =>
      rw [if_pos hguard] at ht
      exact hs.advance (by simp [hguard]) ht rfl
    next => exact hs
  | startLoop =>
    obtain rfl := Except.ok.inj h
    split
    next hguard =>
      rw [if_pos hguard] at ht
      refine ⟨ht, hs.joined_, fun hreturned => ?_⟩
      cases hguard.2.2.symm.trans hreturned
    next => exact hs
  | on a =>
    rcases on_ok h with ⟨l, -, -, -, rfl⟩ | rfl
    · exact ⟨ht, hs.joined_, hs.returned⟩
    · exact hs
  | destroy i =>
    obtain rfl := Except.ok.inj h
    split
    next hguard =>
      rw [if_pos hguard] at ht
      obtain ⟨habsent, hi, hidle⟩ := hguard
      refine ⟨ht, fun hjoined => ?_, fun hreturned hstarted => ?_⟩
      · cases habsent.symm.trans (hs.joined_ hjoined)
      · -- the test has found `loop_`
        have hloop := hs.framed.loop_.2 (hin habsent hi hidle hstarted)
        simp [hloop] at hreturned
    next => exact hs
  | call =>
    rcases call_ok h with ⟨i, -, hdestructor, rfl⟩ | rfl
    · refine ⟨ht, fun hjoined => ?_, by simp⟩
      cases hdestructor.symm.trans (hs.joined_ hjoined)
    · exact hs
  | quit =>
    rcases quit_ok h with ⟨i, -, hdestructor, -, rfl⟩ | rfl
    · refine ⟨ht, fun hjoined => ?_, by simp⟩
      cases hdestructor.symm.trans (hs.joined_ hjoined)
    · exact hs
  | join =>
    rcases join_ok h with ⟨hended, rfl⟩ | rfl
    · exact ⟨ht, fun _ => rfl, fun _ _ => ⟨rfl, hended⟩⟩
    · exact hs

theorem Shut.safe (hs : s.Shut) (hin : s.InTime a) : s.Safe a where
  call := by
    rintro rfl i hdestructor
    exact hs.framed.loop_.2 (hin i hdestructor)
  quit := by
    rintro rfl i hdestructor hidle
    exact ⟨(hs.framed.destructor i (.inr (.inl hdestructor))).2.1, hin i hdestructor hidle⟩
  wakeQuit := by
    rintro i rfl hdestructor hcall
    exact ⟨(hs.framed.destructor i (.inr (.inr hdestructor))).2.1, hin hdestructor hcall⟩
  joined t ht hreturned hstarted := ((hs.step hin ht).returned hreturned hstarted).1
  untouched hreturned hstarted hmembers := by
    have hended := (hs.returned hreturned hstarted).2
    cases a with
    | publish | lock | clear | unlock => simp [EventLoopThread.step, hended]
    | _ => exact absurd hmembers id

theorem Shut.inTime (hs : s.Shut) (hsafe : s.Safe a) : s.InTime a := by
  cases a with
  | destroy i =>
    intro habsent hi hidle hstarted
    refine hs.framed.loop_.1 ?_
    by_contra hloop
    -- the destructor returns at once, with the thread unjoined
    have hstep : s.step (.destroy i) = .ok { s with destructor := .returned } := by
      simp [EventLoopThread.step, habsent, hi, hidle, hloop]
    have hjoined : s.joined_ = true :=
      hsafe.joined { s with destructor := .returned } hstep rfl hstarted
    cases habsent.symm.trans (hs.joined_ hjoined)
  | call =>
    intro i hdestructor
    exact hs.framed.loop_.1 (hsafe.call rfl i hdestructor)
  | quit =>
    intro i hdestructor hidle
    exact (hsafe.quit rfl i hdestructor hidle).2
  | on a =>
    cases a with
    | wakeQuit i =>
      intro hdestructor hcall
      exact (hsafe.wakeQuit i rfl hdestructor hcall).2
    | _ => trivial
  | _ => trivial

/-- **The destructor, exactly**: over every run, every `quit()` of the destructor is called through a
`loop_` that is not null and finds the loop, and a destructor that returns after `startLoop` has
joined the thread, which does not come back to `mutex_` and `loop_`, if and only if both reads of
`loop_` come before `threadFunc` clears it, and both accesses of `quit()` before it destroys the
loop. -/
theorem safe_iff (threadId : τ) (as : List (Action φ τ)) :
    Along step Safe (construct threadId) as ↔ Along step InTime (construct threadId) as :=
  along_iff_of_invariant (R := fun _ _ => True) (fun _ _ _ hs _ hin h => hs.step hin h)
    (fun _ _ hs _ => ⟨hs.inTime, hs.safe⟩) (construct_shut threadId)
    (along_of_forall (fun _ _ => trivial) _ as)

/-- When only the destructor quits the loop, and `quit()` is done before the loop is, it joins. -/
example : (run step (construct false : EventLoopThread Unit Bool) [.start, .publish, .startLoop,
    .on .loop, .destroy true, .call, .quit, .on (.wakeQuit true), .on .test, .lock, .clear, .unlock,
    .leave, .join]).map (fun s => (s.destructor, s.joined_)) = .ok (.returned, true) := by
  decide

/-- The owner of the `EventLoopThread` quits the loop through the address that it has from
`startLoop`; the loop returns, and `threadFunc` clears `loop_`. -/
def quitByOwner : List (Action Unit Bool) :=
  [.start, .publish, .startLoop, .on .loop, .on (.quit true), .on (.wakeQuit true), .on .test, .lock,
    .clear]

/-- Then the destructor returns with the thread unjoined, which still has to unlock `mutex_`. -/
theorem not_safe_quitByOwner : ¬∀ (threadId : Bool) (as : List (Action Unit Bool)),
    Along step Safe (construct threadId) as := by
  intro h
  have hrun : (run step (construct false) quitByOwner >>= fun s => (s.step (.destroy true)).map
      fun t => (t.destructor, t.started, t.joined_)) = .ok (.returned, true, false) := by
    decide
  obtain ⟨s, hs, hrun⟩ := bind_eq_ok.1 hrun
  obtain ⟨t, ht, hview⟩ := exists_of_map hrun
  simp only [Prod.mk.injEq] at hview
  obtain ⟨hdestructor, hstarted, hunjoined⟩ := hview
  have hsafe : s.Safe (.destroy true) :=
    (along_concat.1 (h false (quitByOwner ++ [.destroy true]))).2 s hs
  exact Bool.noConfusion (hunjoined.symm.trans (hsafe.joined t ht hdestructor hstarted))

end EventLoopThread

end Muduo
