import Muduo.LoopThread.Queue

/-!
# Wakeups

`queueInLoop` writes to the eventfd when the caller is not the owner, or when the owner is in a
round. In the callback of an event the owner needs no wakeup, since a round follows; before `loop()`
it gets none either, although a poll comes first. So the first poll can find functors that nobody
wakes the loop for, and no later one can: `awake_iff` says exactly when.
-/

namespace Muduo

open Run

variable {φ τ : Type}

namespace LoopThread

/-- If functors wait, the eventfd is readable or some thread is about to write to it. -/
def Awake (s : LoopThread φ τ) : Prop :=
  s.pendingFunctors_ ≠ [] → 0 < s.weakupFd_ ∨ ∃ t i, s.thread t = .queueInLoop i

/-- Outside user code the owner is not inside a call. -/
def OwnerFree (s : LoopThread φ τ) : Prop := ¬s.pc.User → s.Free

theorem construct_ownerFree (threadId : τ) : (construct threadId : LoopThread φ τ).OwnerFree :=
  fun _ => rfl

/-- What holds once a poll has returned. -/
structure Guarded (s : LoopThread φ τ) : Prop where
  pc_ne : s.pc ≠ .outside
  awake : s.pc = .testing ∨ s.pc = .polling ∨ s.pc.InRound → s.Awake
  calling : s.pc = .swapping ∨ s.pc.InRound → s.callingPendingFunctors_ = true

/-- What holds until a poll returns. `early` and `other` say that the owner has queued a functor
before `loop()`, and that another thread has interfered. -/
structure Fresh (s : LoopThread φ τ) (early other : Prop) : Prop where
  pc : s.pc = .outside ∨ s.pc = .testing ∨ s.pc = .polling
  calling : s.callingPendingFunctors_ = false
  pending : s.pendingFunctors_ ≠ [] → early ∨ other
  early : early → s.pendingFunctors_ ≠ []
  silent : ¬other → s.weakupFd_ = 0 ∧ ∀ i j, s.thread i = .queueInLoop j → i = s.threadId_
  woken : other → 0 < s.weakupFd_ ∨ ∃ i j, s.thread i = .queueInLoop j ∧ i ≠ s.threadId_

theorem construct_fresh (threadId : τ) : (construct threadId : LoopThread φ τ).Fresh False False := by
  refine ⟨.inl rfl, rfl, fun h => absurd rfl h, False.elim, fun _ => ⟨rfl, ?_⟩, False.elim⟩
  simp [construct]

variable {s t : LoopThread φ τ} {early other : Prop}

/-- While the loop polls for the first time it is awake, unless only the owner has queued. -/
theorem Fresh.awake_of_polling (hs : s.Fresh early other) (hfree : s.OwnerFree) (hpc : s.pc = .polling) :
    s.Awake ↔ ¬early ∨ other := by
  constructor
  · intro hawake
    by_contra hnot
    obtain ⟨hearly, hother⟩ := not_or.1 hnot
    obtain ⟨hzero, howner⟩ := hs.silent hother
    rcases hawake (hs.early (not_not.1 hearly)) with hpos | ⟨i, j, hi⟩
    · omega
    · have hidle : s.Free := hfree (by simp [hpc, LoopPc.User])
      rw [howner i j hi] at hi
      exact Call.noConfusion (hidle.symm.trans hi)
  · intro h hpending
    have hother : other := by
      rcases h with hearly | hother
      · exact (hs.pending hpending).resolve_left hearly
      · exact hother
    rcases hs.woken hother with hpos | ⟨i, j, hi, -⟩
    · exact .inl hpos
    · exact .inr ⟨i, j, hi⟩

/-- The owner queues a functor before `loop()`. -/
def QueuesEarly (s : LoopThread φ τ) : Action φ τ → Prop
  | .queueInLoop t f => s.Enabled (.queueInLoop t f) ∧ t = s.threadId_ ∧ s.pc = .outside
  | _ => False

/-- Another thread queues a functor, or comes to the end of `quit()`. -/
def Interferes (s : LoopThread φ τ) : Action φ τ → Prop
  | .queueInLoop t f => s.Enabled (.queueInLoop t f) ∧ t ≠ s.threadId_
  | .wakeQuit t => s.Enabled (.wakeQuit t) ∧ t ≠ s.threadId_
  | _ => False

/-- A poll returns. -/
def Returns (s : LoopThread φ τ) : Action φ τ → Prop
  | .poll weakup => s.Enabled (.poll weakup)
  | _ => False

theorem QueuesEarly.enabled {a : Action φ τ} (h : s.QueuesEarly a) : s.Enabled a := by
  cases a <;> first | exact h.1 | exact absurd h id

theorem Interferes.enabled {a : Action φ τ} (h : s.Interferes a) : s.Enabled a := by
  cases a <;> first | exact h.1 | exact absurd h id

variable [DecidableEq τ]

/-! ## Calls -/

theorem enter_of_ne {i j : τ} (h : j ≠ i) (c : Call) : (s.enter i c).thread j = s.thread j :=
  Function.update_of_ne h ..

theorem enter_self (i : τ) (c : Call) : (s.enter i c).thread i = c := Function.update_self ..

theorem isInLoopthread_iff (i : τ) : s.isInLoopthread i = true ↔ i = s.threadId_ := by
  simp [isInLoopthread, eq_comm]

theorem OwnerFree.enter (hs : s.OwnerFree) (i : τ) {c : Call}
    (h : i = s.threadId_ → c = .idle ∨ s.pc.User) : (s.enter i c).OwnerFree := by
  intro hpc
  by_cases hi : i = s.threadId_
  · subst hi
    rw [Free, show (s.enter s.threadId_ c).threadId_ = s.threadId_ from rfl, enter_self]
    exact (h rfl).resolve_right hpc
  · rw [Free, show (s.enter i c).threadId_ = s.threadId_ from rfl, enter_of_ne (Ne.symm hi)]
    exact hs hpc

theorem OwnerFree.step (hs : s.OwnerFree) {a : Action φ τ} (h : s.step a = .ok t) : t.OwnerFree := by
  rcases step_ok h with ⟨henabled, rfl⟩ | ⟨-, rfl⟩
  · cases a with
    | loop => exact fun _ => henabled.2
    | test =>
      have hpc : s.pc = .testing := henabled
      exact fun _ => hs (by simp [hpc, LoopPc.User])
    | poll weakup => exact fun hpc => absurd trivial hpc
    | handleRead | doPendingFunctors => exact fun _ => henabled.2
    | swap =>
      have hpc : s.pc = .swapping := henabled
      exact fun _ => hs (by simp [hpc, LoopPc.User])
    | next =>
      simp only [perform]
      split
      next => exact hs
      next => exact fun hpc => absurd trivial hpc
    | endRound => exact fun _ => henabled.2.2
    | queueInLoop i f =>
      have hpush : OwnerFree { s with
        pendingFunctors_ := s.pendingFunctors_ ++ [f], pushes := s.pushes ++ [f] } := hs
      exact hpush.enter i fun hi => .inr (henabled.2 hi)
    | quit i =>
      have hquit : OwnerFree { s with quit_ := true } := hs
      exact hquit.enter i fun hi => .inr (henabled.2 hi)
    | wakeQueued i =>
      simp only [perform, wakeQueued]
      split
      · have hweakup : s.weakup.OwnerFree := hs
        exact hweakup.enter i fun _ => .inl rfl
      · exact hs.enter i fun _ => .inl rfl
    | wakeQuit i =>
      simp only [perform, wakeQuit]
      split
      · have hweakup : s.weakup.OwnerFree := hs
        exact hweakup.enter i fun _ => .inl rfl
      · exact hs.enter i fun _ => .inl rfl
  · exact hs

/-! ## Awake loops -/

theorem awake_queueInLoop (s : LoopThread φ τ) (i : τ) (f : φ) : (s.queueInLoop i f).Awake :=
  fun _ => .inr ⟨i, s.pushes.length, Function.update_self ..⟩

theorem awake_weakup (s : LoopThread φ τ) (i : τ) (c : Call) : (s.weakup.enter i c).Awake :=
  fun _ => .inl (Nat.succ_pos _)

/-- A thread that is not in `queueInLoop` enters or leaves another call. -/
theorem Awake.enter (hs : s.Awake) {i : τ} (hi : ∀ j, s.thread i ≠ .queueInLoop j) (c : Call) :
    (s.enter i c).Awake := by
  intro hpending
  refine (hs hpending).imp_right ?_
  rintro ⟨t, j, ht⟩
  have hne : t ≠ i := by
    rintro rfl
    exact hi j ht
  exact ⟨t, j, (enter_of_ne hne c).trans ht⟩

/-- The end of `queueInLoop` leaves the loop awake, unless the owner does not wake itself. -/
theorem awake_wakeQueued {i : τ} (h : i = s.threadId_ → s.callingPendingFunctors_ = true) :
    (s.wakeQueued i).Awake := by
  unfold wakeQueued
  split
  · exact s.awake_weakup i .idle
  next hno =>
    simp only [Bool.or_eq_true, Bool.not_eq_true', not_or, Bool.not_eq_false] at hno
    exact absurd (h ((isInLoopthread_iff i).1 hno.1)) hno.2

theorem Awake.quit (hs : s.Awake) {i : τ} (hi : s.thread i = .idle) : (s.quit i).Awake := by
  have hquit : Awake { s with quit_ := true } := hs
  exact hquit.enter (by simp [hi]) .quit

theorem Awake.wakeQuit (hs : s.Awake) {i : τ} (hi : s.thread i = .quit) : (s.wakeQuit i).Awake := by
  unfold LoopThread.wakeQuit
  split
  · exact s.awake_weakup i .idle
  · exact hs.enter (by simp [hi]) .idle

/-! ## Once a poll has returned -/

/-- A return of a poll is followed by a round. -/
theorem guarded_poll (s : LoopThread φ τ) (weakup : Bool) :
    (s.perform (.poll weakup)).Guarded := by
  refine ⟨by simp [perform, LoopThread.goto], ?_, ?_⟩ <;>
    simp [perform, LoopThread.goto, LoopPc.InRound]

theorem Guarded.step (hs : s.Guarded) (hfree : s.OwnerFree) {a : Action φ τ}
    (h : s.step a = .ok t) : t.Guarded := by
  rcases step_ok h with ⟨henabled, rfl⟩ | ⟨-, rfl⟩
  · cases a with
    | loop => exact absurd henabled.1 hs.pc_ne
    | test =>
      have hpc : s.pc = .testing := henabled
      have hawake := hs.awake (.inl hpc)
      simp only [perform]
      refine ⟨?_, fun _ => hawake, ?_⟩ <;> split <;> simp [LoopThread.goto, LoopPc.InRound]
    | poll weakup => exact s.guarded_poll weakup
    | handleRead =>
      refine ⟨?_, ?_, ?_⟩ <;> simp [perform, handleRead, LoopThread.goto, LoopPc.InRound]
    | doPendingFunctors =>
      refine ⟨?_, ?_, ?_⟩ <;> simp [perform, doPendingFunctors, LoopThread.goto, LoopPc.InRound]
    | swap =>
      have hpc : s.pc = .swapping := henabled
      exact ⟨by simp [perform, swap, LoopThread.goto], fun _ hne => absurd rfl hne,
        fun _ => hs.calling (.inl hpc)⟩
    | next =>
      have hin : s.pc.InRound := henabled.1
      simp only [perform]
      split
      next => exact hs
      next f fs _ =>
        exact ⟨by simp [LoopThread.call, LoopThread.goto], fun _ => hs.awake (.inr (.inr hin)),
          fun _ => hs.calling (.inr hin)⟩
    | endRound =>
      have hin : s.pc.InRound := henabled.1
      refine ⟨?_, fun _ => hs.awake (.inr (.inr hin)), ?_⟩ <;>
        simp [perform, endRound, LoopThread.goto, LoopPc.InRound]
    | queueInLoop i f => exact ⟨hs.pc_ne, fun _ => s.awake_queueInLoop i f, hs.calling⟩
    | wakeQueued i =>
      obtain ⟨j, hj⟩ := henabled
      have hawake : s.pc = .testing ∨ s.pc = .polling ∨ s.pc.InRound → (s.wakeQueued i).Awake := by
        intro hpc
        refine awake_wakeQueued fun hi => ?_
        subst hi
        have hbusy : ¬s.Free := fun hfree => Call.noConfusion (hfree.symm.trans hj)
        rcases hpc with hpc | hpc | hpc
        · exact absurd (hfree (by simp [hpc, LoopPc.User])) hbusy
        · exact absurd (hfree (by simp [hpc, LoopPc.User])) hbusy
        · exact hs.calling (.inr hpc)
      obtain ⟨n, hn⟩ := s.wakeQueued_eq i
      rw [hn] at hawake
      rw [perform, hn]
      exact ⟨hs.pc_ne, hawake, hs.calling⟩
    | quit i => exact ⟨hs.pc_ne, fun hpc => (hs.awake hpc).quit henabled.1, hs.calling⟩
    | wakeQuit i =>
      have hawake := fun hpc => (hs.awake hpc).wakeQuit (i := i) henabled
      obtain ⟨n, hn⟩ := s.wakeQuit_eq i
      rw [hn] at hawake
      rw [perform, hn]
      exact ⟨hs.pc_ne, hawake, hs.calling⟩
  · exact hs

/-! ## Before a poll has returned -/

theorem isInLoopthread_of_ne {i : τ} (h : i ≠ s.threadId_) : s.isInLoopthread i = false := by
  simpa [isInLoopthread] using h.symm

/-- A thread that is not in `queueInLoop` enters or leaves another call. -/
theorem Fresh.enter (hs : s.Fresh early other) {i : τ} (hi : ∀ j, s.thread i ≠ .queueInLoop j)
    {c : Call} (hc : ∀ j, c ≠ .queueInLoop j) : (s.enter i c).Fresh early other := by
  have hkeep : ∀ k j, (s.enter i c).thread k = .queueInLoop j ↔ s.thread k = .queueInLoop j := by
    intro k j
    by_cases hk : k = i
    · subst hk
      rw [enter_self]
      exact iff_of_false (hc j) (hi j)
    · rw [enter_of_ne hk]
  refine ⟨hs.pc, hs.calling, hs.pending, hs.early, fun hnot => ?_, fun hother => ?_⟩
  · exact ⟨(hs.silent hnot).1, fun k j hk => (hs.silent hnot).2 k j ((hkeep k j).1 hk)⟩
  · refine (hs.woken hother).imp_right ?_
    rintro ⟨k, j, hk, hne⟩
    exact ⟨k, j, (hkeep k j).2 hk, hne⟩

/-- Another thread has written to the eventfd. -/
theorem Fresh.woken_of (hs : s.Fresh early other) {other' : Prop} (hother : other ∨ other')
    {n : ℕ} (hn : 0 < n) {i : τ} : Fresh ({ s with weakupFd_ := n }.enter i .idle) early
      (other ∨ other') := by
  refine ⟨hs.pc, hs.calling, fun hpending => ?_, hs.early, fun hnot => absurd hother hnot,
    fun _ => .inl hn⟩
  exact (hs.pending hpending).imp_right .inl

theorem Fresh.queueInLoop (hs : s.Fresh early other) {i : τ} {f : φ}
    (hcalls : s.Enabled (.queueInLoop i f)) : (s.queueInLoop i f).Fresh
      (early ∨ s.QueuesEarly (.queueInLoop i f)) (other ∨ s.Interferes (.queueInLoop i f)) := by
  have hidle : s.thread i = .idle := hcalls.1
  refine ⟨hs.pc, hs.calling, fun _ => ?_, fun _ => ?_, fun hnot => ?_, fun hother => ?_⟩
  · by_cases hi : i = s.threadId_
    · have houtside : s.pc = .outside := by
        have huser := hcalls.2 hi
        rcases hs.pc with hpc | hpc | hpc
        · exact hpc
        · simp [hpc, LoopPc.User] at huser
        · simp [hpc, LoopPc.User] at huser
      exact .inl (.inr ⟨hcalls, hi, houtside⟩)
    · exact .inr (.inr ⟨hcalls, hi⟩)
  · simp [LoopThread.queueInLoop, LoopThread.enter]
  · obtain ⟨hother, hnot⟩ := not_or.1 hnot
    have hi : i = s.threadId_ := by
      by_contra hi
      exact hnot ⟨hcalls, hi⟩
    refine ⟨(hs.silent hother).1, fun k j hk => ?_⟩
    by_cases hki : k = i
    · exact hki.trans hi
    · exact (hs.silent hother).2 k j ((enter_of_ne hki _).symm.trans hk)
  · rcases hother with hother | ⟨-, hi⟩
    · refine (hs.woken hother).imp_right ?_
      rintro ⟨k, j, hk, hne⟩
      have hki : k ≠ i := by
        rintro rfl
        exact Call.noConfusion (hidle.symm.trans hk)
      exact ⟨k, j, (enter_of_ne hki _).trans hk, hne⟩
    · exact .inr ⟨i, s.pushes.length, enter_self i _, hi⟩

theorem Fresh.wakeQueued (hs : s.Fresh early other) {i : τ} (hi : ∃ j, s.thread i = .queueInLoop j) :
    (s.wakeQueued i).Fresh early other := by
  obtain ⟨j, hj⟩ := hi
  by_cases howner : i = s.threadId_
  · have heq : s.wakeQueued i = s.enter i .idle := by
      rw [LoopThread.wakeQueued, (isInLoopthread_iff i).2 howner, hs.calling]
      rfl
    rw [heq]
    refine ⟨hs.pc, hs.calling, hs.pending, hs.early, fun hnot => ?_, fun hother => ?_⟩
    · refine ⟨(hs.silent hnot).1, fun k l hk => ?_⟩
      by_cases hki : k = i
      · exact hki.trans howner
      · exact (hs.silent hnot).2 k l ((enter_of_ne hki _).symm.trans hk)
    · refine (hs.woken hother).imp_right ?_
      rintro ⟨k, l, hk, hne⟩
      have hki : k ≠ i := by
        rintro rfl
        exact hne howner
      exact ⟨k, l, (enter_of_ne hki _).trans hk, hne⟩
  · have hother : other := by
      by_contra hnot
      exact howner ((hs.silent hnot).2 i j hj)
    have heq : s.wakeQueued i = s.weakup.enter i .idle := by
      rw [LoopThread.wakeQueued, isInLoopthread_of_ne howner]
      rfl
    rw [heq]
    exact ⟨hs.pc, hs.calling, hs.pending, hs.early, fun hnot => absurd hother hnot,
      fun _ => .inl (Nat.succ_pos _)⟩

/-- A step other than the return of a poll. -/
theorem Fresh.step (hs : s.Fresh early other) {a : Action φ τ} (ha : ¬s.Returns a)
    (h : s.step a = .ok t) :
    t.pc = .returned ∨ t.Fresh (early ∨ s.QueuesEarly a) (other ∨ s.Interferes a) := by
  rcases step_ok h with ⟨henabled, rfl⟩ | ⟨henabled, rfl⟩
  · cases a with
    | loop =>
      refine .inr ?_
      simp only [QueuesEarly, Interferes, or_false]
      exact ⟨.inr (.inl rfl), hs.calling, hs.pending, hs.early, hs.silent, hs.woken⟩
    | test =>
      simp only [perform, QueuesEarly, Interferes, or_false]
      split
      · exact .inl rfl
      · exact .inr ⟨.inr (.inr rfl), hs.calling, hs.pending, hs.early, hs.silent, hs.woken⟩
    | poll weakup => exact absurd henabled ha
    | handleRead | doPendingFunctors =>
      have hpc := hs.pc
      simp [henabled.1] at hpc
    | swap =>
      have hpc := hs.pc
      rw [show s.pc = .swapping from henabled] at hpc
      simp at hpc
    | next | endRound =>
      have hpc := hs.pc
      rcases henabled.1 with h | h <;> simp [h] at hpc
    | queueInLoop i f =>
      exact .inr (hs.queueInLoop henabled)
    | wakeQueued i =>
      simp only [QueuesEarly, Interferes, or_false]
      exact .inr (hs.wakeQueued henabled)
    | quit i =>
      simp only [QueuesEarly, Interferes, or_false]
      have hquit : Fresh { s with quit_ := true } early other :=
        ⟨hs.pc, hs.calling, hs.pending, hs.early, hs.silent, hs.woken⟩
      exact .inr (hquit.enter (by simp [henabled.1]) (by simp))
    | wakeQuit i =>
      have hcall : s.thread i = .quit := henabled
      by_cases hi : i = s.threadId_
      · have heq : s.wakeQuit i = s.enter i .idle := by
          rw [LoopThread.wakeQuit, (isInLoopthread_iff i).2 hi]
          rfl
        rw [perform, heq]
        simp only [QueuesEarly, Interferes, hi, ne_eq, not_true_eq_false, and_false, or_false]
        exact .inr (hi ▸ hs.enter (by simp [hcall]) (by simp))
      · have hother : s.Interferes (.wakeQuit i) := ⟨hcall, hi⟩
        have heq : s.wakeQuit i = s.weakup.enter i .idle := by
          rw [LoopThread.wakeQuit, isInLoopthread_of_ne hi]
          rfl
        rw [perform, heq]
        simp only [QueuesEarly, or_false]
        exact .inr (hs.woken_of (.inr hother) (Nat.succ_pos _))
  · have hearly : ¬t.QueuesEarly a := fun h => henabled h.enabled
    have hother : ¬t.Interferes a := fun h => henabled h.enabled
    refine .inr ?_
    simpa only [hearly, hother, or_false] using hs

/-! ## Runs -/

variable (s) in
/-- How far a run from `s` to `t` has got. -/
inductive Stage (actions : List (Action φ τ)) (t : LoopThread φ τ) : Prop
  | first (hfresh : t.Fresh (Occurs step QueuesEarly s actions) (Occurs step Interferes s actions))
      (hreturns : ¬Occurs step Returns s actions)
  | later (hguarded : t.Guarded) (hreturns : Occurs step Returns s actions)
  | returned (hpc : t.pc = .returned)

theorem returned_step (hpc : s.pc = .returned) {a : Action φ τ} (h : s.step a = .ok t) :
    t.pc = .returned := by
  rcases step_ok h with ⟨henabled, rfl⟩ | ⟨-, rfl⟩
  · cases a with
    | loop | poll | handleRead | doPendingFunctors =>
      exact LoopPc.noConfusion (hpc.symm.trans henabled.1)
    | test | swap => exact LoopPc.noConfusion (hpc.symm.trans henabled)
    | next | endRound => rcases henabled.1 with h | h <;> exact LoopPc.noConfusion (hpc.symm.trans h)
    | queueInLoop | quit => exact hpc
    | wakeQueued i =>
      obtain ⟨n, hn⟩ := s.wakeQueued_eq i
      rw [perform, hn]
      exact hpc
    | wakeQuit i =>
      obtain ⟨n, hn⟩ := s.wakeQuit_eq i
      rw [perform, hn]
      exact hpc
  · exact hpc

theorem run_stage {threadId : τ} {actions : List (Action φ τ)}
    (h : run step (construct threadId) actions = .ok s) :
    s.OwnerFree ∧ Stage (construct threadId) actions s := by
  refine run_induction (motive := fun actions s => s.OwnerFree ∧ Stage (construct threadId) actions s)
    ⟨construct_ownerFree threadId, .first (construct_fresh threadId) id⟩ ?_ h
  rintro actions a s t hs ht ⟨hfree, hstage⟩
  refine ⟨hfree.step ht, ?_⟩
  have hoccurs : ∀ P, Occurs step P (construct threadId) (actions ++ [a]) ↔
      Occurs step P (construct threadId) actions ∨ P s a := by
    simp [occurs_concat, hs]
  cases hstage with
  | first hfresh hnot =>
    by_cases hreturns : s.Returns a
    · cases a with
      | poll weakup =>
        rcases step_ok ht with ⟨-, rfl⟩ | ⟨hdisabled, -⟩
        · exact .later (s.guarded_poll weakup) ((hoccurs _).2 (.inr hreturns))
        · exact absurd hreturns hdisabled
      | _ => exact absurd hreturns id
    · rcases hfresh.step hreturns ht with hpc | hfresh
      · exact .returned hpc
      · rw [← hoccurs, ← hoccurs] at hfresh
        exact .first hfresh (by simp [hoccurs, hnot, hreturns])
  | later hguarded hreturns =>
    exact .later (hguarded.step hfree ht) ((hoccurs _).2 (.inl hreturns))
  | returned hpc => exact .returned (returned_step hpc ht)

/-- **Wakeups, exactly**: a loop that polls with functors waiting is woken for them if and only if a
poll has returned before, or the owner has queued nothing before `loop()`, or another thread has
queued a functor or called `quit()`. -/
theorem awake_iff {threadId : τ} {actions : List (Action φ τ)}
    (h : run step (construct threadId) actions = .ok s) (hpc : s.pc = .polling) :
    s.Awake ↔ Occurs step Returns (construct threadId) actions ∨
      ¬Occurs step QueuesEarly (construct threadId) actions ∨
      Occurs step Interferes (construct threadId) actions := by
  obtain ⟨hfree, hstage⟩ := run_stage h
  cases hstage with
  | first hfresh hnot => rw [hfresh.awake_of_polling hfree hpc, or_iff_right hnot]
  | later hguarded hreturns => exact iff_of_true (hguarded.awake (.inr (.inl hpc))) (.inl hreturns)
  | returned hreturned => exact LoopPc.noConfusion (hpc.symm.trans hreturned)

/-- The owner queues in a callback of the first poll, and polls again after the round. -/
theorem awake_iff_callback : ∃ s : LoopThread Unit Bool,
    run step (construct false) [.loop, .test, .poll false, .queueInLoop false (),
      .wakeQueued false, .doPendingFunctors, .swap, .next, .endRound, .test] = .ok s ∧
    s.pc = .polling ∧ (s.Awake ↔
      Occurs step Returns (construct false) [.loop, .test, .poll false, .queueInLoop false (),
        .wakeQueued false, .doPendingFunctors, .swap, .next, .endRound, .test] ∨
      ¬Occurs step QueuesEarly (construct false) [.loop, .test, .poll false, .queueInLoop false (),
        .wakeQueued false, .doPendingFunctors, .swap, .next, .endRound, .test] ∨
      Occurs step Interferes (construct false) [.loop, .test, .poll false, .queueInLoop false (),
        .wakeQueued false, .doPendingFunctors, .swap, .next, .endRound, .test]) := by
  have hrun : (run step (construct false : LoopThread Unit Bool) [.loop, .test, .poll false,
      .queueInLoop false (), .wakeQueued false, .doPendingFunctors, .swap, .next, .endRound,
      .test]).map pc = .ok .polling := by
    decide
  obtain ⟨s, hs, hpc⟩ := exists_of_map hrun
  exact ⟨s, hs, hpc, awake_iff hs hpc⟩

/-- A `ThreadInitCallback` queues a functor, and the loop goes to its first poll. -/
theorem not_awake_early : ¬∀ (threadId : Bool) (actions : List (Action Unit Bool))
    (s : LoopThread Unit Bool), run step (construct threadId) actions = .ok s → s.pc = .polling →
      s.Awake := by
  intro h
  have hrun : (run step (construct false : LoopThread Unit Bool) [.queueInLoop false (),
      .wakeQueued false, .loop, .test]).map (fun s => (s.pc, s.pendingFunctors_, s.weakupFd_,
        s.thread false, s.thread true)) = .ok (.polling, [()], 0, .idle, .idle) := by
    decide
  obtain ⟨s, hs, hview⟩ := exists_of_map hrun
  simp only [Prod.mk.injEq] at hview
  obtain ⟨hpc, hpending, hcount, hfalse, htrue⟩ := hview
  rcases h false _ s hs hpc (by simp [hpending]) with hpos | ⟨t, i, ht⟩
  · omega
  · cases t <;> simp [hfalse, htrue] at ht

end LoopThread

end Muduo
