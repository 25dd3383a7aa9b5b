import Muduo.EventLoopThread

/-!
# A quit request

`startLoop` returns as soon as `loop_` is stored, and `loop()` begins with `quit_ = false`. A
`quit()` through the address that `startLoop` has returned is overwritten when it comes before that
store; when it comes after, nothing overwrites it, so that the next test of the `while` ends the
loop. `quit_kept_iff` is this dichotomy.
-/

namespace Muduo

open Run

variable {φ τ : Type}

namespace EventLoopThread

/-- The invariant of `threadFunc`. -/
structure Framed (s : EventLoopThread φ τ) : Prop where
  loop_ : s.loop_ = true ↔ s.func = .published ∨ s.func = .locked
  started : s.started = true → s.func ≠ .idle ∧ s.func ≠ .callback
  outside : s.loop.pc = .outside → s.func = .idle ∨ s.func = .callback ∨
    s.func = .published ∧ s.loop.Free
  destructor : ∀ i, s.destructor.On i → i ≠ s.loop.threadId_ ∧ s.func ≠ .idle ∧ s.func ≠ .callback

theorem construct_framed (threadId : τ) : (construct threadId : EventLoopThread φ τ).Framed :=
  ⟨by simp [construct], fun h => Bool.noConfusion h, fun _ => .inl rfl,
    by simp [construct, Destructor.On]⟩

/-- The destructor, when `threadFunc` goes on. -/
theorem Framed.goto {s : EventLoopThread φ τ} (hs : s.Framed) {func : FuncPc}
    (hfunc : func ≠ .idle ∧ func ≠ .callback) :
    ∀ i, s.destructor.On i → i ≠ s.loop.threadId_ ∧ func ≠ .idle ∧ func ≠ .callback :=
  fun i hi => ⟨(hs.destructor i hi).1, hfunc⟩

variable [DecidableEq τ] {s t u : EventLoopThread φ τ}

/-- A store of `quit()` through the address that `startLoop` has returned, by its caller or by the
destructor. -/
def Quits (s : EventLoopThread φ τ) : Action φ τ → Prop
  | .on (.quit t) => s.started = true ∧ s.Alive ∧ s.Permits (.quit t) ∧ s.loop.Enabled (.quit t)
  | .quit => s.Alive ∧ ∃ t, s.destructor = .calling t ∧ s.loop.thread t = .idle
  | _ => False

theorem on_ok {a : LoopThread.Action φ τ} (h : s.on a = .ok t) :
    (∃ l, s.Alive ∧ s.Permits a ∧ s.loop.step a = .ok l ∧ t = { s with loop := l }) ∨ t = s := by
  unfold on at h
  split at h
  next halive =>
    split at h
    next hpermits =>
      obtain ⟨l, hl, h⟩ := bind_eq_ok.1 h
      exact .inl ⟨l, halive, hpermits, hl, (Except.ok.inj h).symm⟩
    next => exact .inr (Except.ok.inj h).symm
  next =>
    split at h
    next => cases h
    next => exact .inr (Except.ok.inj h).symm

theorem call_ok (h : s.step .call = .ok t) :
    (∃ i, s.loop_ = true ∧ s.destructor = .tested i ∧ t = { s with destructor := .calling i }) ∨
      t = s := by
  simp only [step] at h
  split at h
  next i hdestructor =>
    split at h
    next hloop => exact .inl ⟨i, hloop, hdestructor, (Except.ok.inj h).symm⟩
    next => cases h
  next => exact .inr (Except.ok.inj h).symm

/-- What the destructor does to the loop. -/
theorem quit_ok (h : s.step .quit = .ok t) :
    (∃ i, s.Alive ∧ s.destructor = .calling i ∧ s.loop.thread i = .idle ∧
      t = { s with loop := s.loop.quit i, destructor := .joining i }) ∨ t = s := by
  simp only [step] at h
  split at h
  next i hdestructor =>
    split at h
    next hidle =>
      unfold quit at h
      split at h
      next halive => exact .inl ⟨i, halive, hdestructor, hidle, (Except.ok.inj h).symm⟩
      next => cases h
    next => exact .inr (Except.ok.inj h).symm
  next => exact .inr (Except.ok.inj h).symm

theorem join_ok (h : s.step .join = .ok t) :
    s.func = .ended ∧ t = { s with joined_ := true, destructor := .returned } ∨ t = s := by
  simp only [step] at h
  split at h
  next =>
    obtain rfl := Except.ok.inj h
    split
    next hended => exact .inl ⟨hended.1, rfl⟩
    next => exact .inr rfl
  next => exact .inr (Except.ok.inj h).symm

/-- Once `loop()` has stored `false` to `quit_`, nothing does. -/
theorem keeps_quit (hquit : s.loop.quit_ = true) (hpc : s.loop.pc ≠ .outside) {a : Action φ τ}
    (h : s.step a = .ok t) : t.loop.quit_ = true ∧ t.loop.pc ≠ .outside := by
  have hsame : t.loop = s.loop → t.loop.quit_ = true ∧ t.loop.pc ≠ .outside := by
    rintro heq
    rw [heq]
    exact ⟨hquit, hpc⟩
  cases a with
  | on a =>
    rcases on_ok h with ⟨l, -, -, hl, rfl⟩ | rfl
    · exact ⟨LoopThread.keeps_quit hquit hpc hl, LoopThread.stays_inside hpc hl⟩
    · exact ⟨hquit, hpc⟩
  | quit =>
    rcases quit_ok h with ⟨i, -, -, -, rfl⟩ | rfl
    · exact ⟨rfl, hpc⟩
    · exact ⟨hquit, hpc⟩
  | start | startLoop | publish | lock | clear | unlock | leave | destroy =>
    refine hsame ?_
    obtain rfl := Except.ok.inj h
    split <;> rfl
  | call =>
    refine hsame ?_
    rcases call_ok h with ⟨i, -, -, rfl⟩ | rfl <;> rfl
  | join =>
    refine hsame ?_
    rcases join_ok h with ⟨-, rfl⟩ | rfl <;> rfl

/-! ## The invariant -/

/-- A step of the loop. -/
theorem Framed.on (hs : s.Framed) {a : LoopThread.Action φ τ} (hpermits : s.Permits a)
    {l : LoopThread φ τ} (hl : s.loop.step a = .ok l) : Framed { s with loop := l } := by
  refine ⟨hs.loop_, hs.started, fun hpc => ?_, ?_⟩
  · have houtside : s.loop.pc = .outside := by
      by_contra hinside
      exact LoopThread.stays_inside hinside hl hpc
    rcases hs.outside houtside with hidle | hcallback | ⟨hfunc, hfree⟩
    · exact .inl hidle
    · exact .inr (.inl hcallback)
    · have howner : ¬(s.func = .callback ∨ s.loop.pc ≠ .outside ∧ s.loop.pc ≠ .returned) := by
        simp [hfunc, houtside]
      refine .inr (.inr ⟨hfunc, hfree.step (fun f hcall => ?_) (fun hcall => ?_) hl⟩)
      · rw [hcall] at hpermits
        exact howner (by simpa [Permits] using hpermits)
      · rw [hcall] at hpermits
        exact howner (by simpa [Permits] using hpermits)
  · intro i hi
    rw [LoopThread.step_threadId hl]
    exact hs.destructor i hi

/-- The store of `quit()` in the destructor. -/
theorem Framed.quit (hs : s.Framed) {i : τ} (hi : s.destructor = .calling i) :
    Framed { s with loop := s.loop.quit i, destructor := .joining i } := by
  have hon := hs.destructor i (.inr (.inl hi))
  refine ⟨hs.loop_, hs.started, fun hpc => ?_, fun j hj => ?_⟩
  · refine (hs.outside hpc).imp_right (Or.imp_right (And.imp_right fun hfree => ?_))
    have hstore : LoopThread.Free { s.loop with quit_ := true } := hfree
    exact hstore.enter fun heq => absurd heq hon.1
  · obtain rfl : i = j := by simpa [Destructor.On] using hj
    exact hon

theorem Framed.step (hs : s.Framed) {a : Action φ τ} (h : s.step a = .ok t) : t.Framed := by
  cases a with
  | start =>
    obtain rfl := Except.ok.inj h
    split
    next hidle =>
      refine ⟨iff_of_false ?_ (by simp), fun hstarted => ?_, fun _ => .inr (.inl rfl),
        by simp [Destructor.On, hidle]⟩
      · intro hloop
        rcases hs.loop_.1 hloop with h | h <;> exact FuncPc.noConfusion (hidle.1.symm.trans h)
      · exact absurd hidle.1 (hs.started hstarted).1
    next => exact hs
  | startLoop =>
    obtain rfl := Except.ok.inj h
    split
    next hloop =>
      refine ⟨hs.loop_, fun _ => ?_, hs.outside, hs.destructor⟩
      rcases hs.loop_.1 hloop.1 with h | h <;> simp [h]
    next => exact hs
  | publish =>
    obtain rfl := Except.ok.inj h
    split
    next hcallback =>
      exact ⟨by simp, by simp, fun _ => .inr (.inr ⟨rfl, hcallback.2⟩), hs.goto (by simp)⟩
    next => exact hs
  | lock =>
    obtain rfl := Except.ok.inj h
    split
    next hreturned =>
      refine ⟨?_, by simp, fun hpc => ?_, hs.goto (by simp)⟩
      · simpa using hs.loop_.2 (.inl hreturned.1)
      · exact LoopPc.noConfusion (hpc.symm.trans hreturned.2.1)
    next => exact hs
  | clear =>
    obtain rfl := Except.ok.inj h
    split
    next hlocked =>
      refine ⟨by simp, by simp, fun hpc => ?_, hs.goto (by simp)⟩
      simpa [hlocked] using hs.outside hpc
    next => exact hs
  | unlock | leave =>
    obtain rfl := Except.ok.inj h
    split
    next hfunc =>
      refine ⟨?_, by simp, fun hpc => ?_, hs.goto (by simp)⟩
      · simpa [hfunc] using hs.loop_
      · simpa [hfunc] using hs.outside hpc
    next => exact hs
  | on a =>
    rcases on_ok h with ⟨l, -, hpermits, hl, rfl⟩ | rfl
    · exact hs.on hpermits hl
    · exact hs
  | destroy i =>
    obtain rfl := Except.ok.inj h
    split
    next hdestroy =>
      refine ⟨hs.loop_, hs.started, hs.outside, fun j hj => ?_⟩
      by_cases hloop : s.loop_
      · obtain rfl : i = j := by simpa [Destructor.On, hloop] using hj
        refine ⟨hdestroy.2.1, ?_⟩
        rcases hs.loop_.1 hloop with hfunc | hfunc <;> simp [hfunc]
      · simp [Destructor.On, hloop] at hj
    next => exact hs
  | call =>
    rcases call_ok h with ⟨i, -, hdestructor, rfl⟩ | rfl
    · refine ⟨hs.loop_, hs.started, hs.outside, fun j hj => ?_⟩
      obtain rfl : i = j := by simpa [Destructor.On] using hj
      exact hs.destructor i (.inl hdestructor)
    · exact hs
  | quit =>
    rcases quit_ok h with ⟨i, -, hdestructor, -, rfl⟩ | rfl
    · exact hs.quit hdestructor
    · exact hs
  | join =>
    rcases join_ok h with ⟨-, rfl⟩ | rfl
    · exact ⟨hs.loop_, hs.started, hs.outside, by simp [Destructor.On]⟩
    · exact hs

/-- A quit request leaves `threadFunc` where it is, behind `callback_`, and the loop too. -/
theorem Framed.quits (hs : s.Framed) {a : Action φ τ} (hquits : s.Quits a)
    (h : s.step a = .ok t) :
    (t.func ≠ .idle ∧ t.func ≠ .callback) ∧ t.loop.quit_ = true ∧ t.loop.pc = s.loop.pc := by
  cases a with
  | on a =>
    cases a with
    | quit i =>
      obtain ⟨hstarted, halive, hpermits, henabled⟩ := hquits
      have hstep : s.loop.step (.quit i) = .ok (s.loop.quit i) := by
        simp [LoopThread.step, henabled, LoopThread.perform]
      simp only [EventLoopThread.step, EventLoopThread.on, if_pos halive, if_pos hpermits, hstep,
        ok_bind] at h
      obtain rfl := Except.ok.inj h
      exact ⟨hs.started hstarted, rfl, rfl⟩
    | _ => exact absurd hquits id
  | quit =>
    obtain ⟨halive, i, hdestructor, hidle⟩ := hquits
    simp only [EventLoopThread.step, hdestructor, if_pos hidle, EventLoopThread.quit,
      if_pos halive] at h
    obtain rfl := Except.ok.inj h
    exact ⟨(hs.destructor i (.inr (.inl hdestructor))).2, rfl, rfl⟩
  | _ => exact absurd hquits id

/-- **A quit request, exactly**: a `quit()` through the address that `startLoop` has returned leaves
`quit_` true in every further run if and only if `loop()` has been entered before. -/
theorem quit_kept_iff {threadId : τ} {before : List (Action φ τ)} {a : Action φ τ}
    (hs : run step (construct threadId) before = .ok s) (hquits : s.Quits a)
    (ht : s.step a = .ok t) :
    (∀ after u, run step t after = .ok u → u.loop.quit_ = true) ↔ s.loop.pc ≠ .outside := by
  have hframed : s.Framed :=
    invariant (fun _ _ _ hs h => hs.step h) (construct_framed threadId) hs
  obtain ⟨⟨hidle, hcallback⟩, hquit, hpc⟩ := hframed.quits hquits ht
  constructor
  · intro hkept houtside
    obtain ⟨hfunc, hfree⟩ : t.func = .published ∧ t.loop.Free :=
      (((hframed.step ht).outside (hpc.trans houtside)).resolve_left hidle).resolve_left hcallback
    have hloop : t.loop.step .loop = .ok ({ t.loop with quit_ := false }.goto .testing) := by
      have henabled : t.loop.Enabled .loop := ⟨hpc.trans houtside, hfree⟩
      simp [LoopThread.step, henabled, LoopThread.perform]
    have halive : t.Alive := ⟨hidle, by simp [hfunc]⟩
    have hpermits : t.Permits .loop := hfunc
    have hon : t.step (.on .loop) =
        .ok { t with loop := { t.loop with quit_ := false }.goto .testing } := by
      simp only [EventLoopThread.step, EventLoopThread.on, if_pos halive, if_pos hpermits, hloop,
        ok_bind]
      rfl
    exact Bool.noConfusion (hkept [.on .loop] _ (run_cons_ok.2 ⟨_, hon, rfl⟩))
  · intro hinside after u hu
    have hstart : t.loop.quit_ = true ∧ t.loop.pc ≠ .outside := ⟨hquit, hpc ▸ hinside⟩
    exact (invariant (fun _ _ _ h hstep => keeps_quit h.1 h.2 hstep) hstart hu).1

/-- `startLoop` returns, the loop is entered, and the caller quits it. -/
theorem quit_kept_iff_entered : ∃ s t : EventLoopThread Unit Bool,
    run step (construct false) [.start, .publish, .startLoop, .on .loop] = .ok s ∧
    s.Quits (.on (.quit true)) ∧ s.step (.on (.quit true)) = .ok t ∧
    ((∀ after u, run step t after = .ok u → u.loop.quit_ = true) ↔ s.loop.pc ≠ .outside) := by
  have hrun : (run step (construct false : EventLoopThread Unit Bool) [.start, .publish, .startLoop,
      .on .loop] >>= fun s => (s.step (.on (.quit true))).map fun _ =>
        (s.started, decide s.Alive, decide (s.Permits (.quit true)),
          decide (s.loop.Enabled (.quit true)))) = .ok (true, true, true, true) := by
    decide
  obtain ⟨s, hs, hrun⟩ := bind_eq_ok.1 hrun
  obtain ⟨t, ht, hview⟩ := exists_of_map hrun
  simp only [Prod.mk.injEq, decide_eq_true_eq] at hview
  have hquits : s.Quits (.on (.quit true)) := hview
  exact ⟨s, t, hs, hquits, ht, quit_kept_iff hs hquits ht⟩

/-- `startLoop` returns, and the destructor quits the loop before it is entered. -/
theorem not_quit_kept_destructor : ¬∀ (threadId : Bool) (before : List (Action Unit Bool))
    (a : Action Unit Bool) (s t : EventLoopThread Unit Bool),
    run step (construct threadId) before = .ok s → s.Quits a → s.step a = .ok t →
      ∀ after u, run step t after = .ok u → u.loop.quit_ = true := by
  intro h
  have hrun : (run step (construct false : EventLoopThread Unit Bool) [.start, .publish, .startLoop,
      .destroy true, .call] >>= fun s => s.step .quit >>= fun t =>
        (run step t [.on .loop]).map fun u =>
          (decide s.Alive, s.destructor, s.loop.thread true, u.loop.quit_)) =
            .ok (true, .calling true, .idle, false) := by
    decide
  obtain ⟨s, hs, hrun⟩ := bind_eq_ok.1 hrun
  obtain ⟨t, ht, hrun⟩ := bind_eq_ok.1 hrun
  obtain ⟨u, hu, hview⟩ := exists_of_map hrun
  simp only [Prod.mk.injEq, decide_eq_true_eq] at hview
  obtain ⟨halive, hdestructor, hidle, hquit⟩ := hview
  have hquits : s.Quits .quit := ⟨halive, true, hdestructor, hidle⟩
  exact Bool.noConfusion ((h false _ _ s t hs hquits ht _ u hu).symm.trans hquit)

end EventLoopThread

end Muduo
