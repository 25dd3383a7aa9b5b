import Mathlib.Logic.Function.Basic
import Muduo.Machine

/-!
# The loop and its threads

`EventLoop::loop()` runs on the thread whose identity the loop keeps in `threadId_`; any thread may
call `queueInLoop` and `quit()`, the owner included when it is in user code: before `loop()`, in the
callback of an event, or in a functor. A `LoopThread` is a loop with these threads. Its steps are
the accesses to what the threads share: `quit_`, the queue under its mutex, and the counter of the
eventfd. `callingPendingFunctors_` is read by the owner only, since `isInLoopthread()` is tested
first.

The functors are values of a type `φ`; what one does to the loop when it runs are further steps of
the owner. The four last fields record a run: what has been queued, what has been executed, and the
rounds of `doPendingFunctors`.
-/

namespace Muduo

variable {φ τ : Type}

/-- Where the owner is in `loop()`. -/
inductive LoopPc
  /-- Before `loop()`. -/
  | outside
  /-- Before the test of the `while`. -/
  | testing
  /-- In `poller_->poll`. -/
  | polling
  /-- At the active channels; `weakup` if `handleRead` of `weakupChannel_` is still to run. -/
  | dispatching (weakup : Bool)
  /-- In `doPendingFunctors`, before the swap. -/
  | swapping
  /-- In `doPendingFunctors`, after the swap; `begun` once a functor has been called. -/
  | running (begun : Bool)
  /-- After `loop()`. -/
  | returned
  deriving DecidableEq

/-- The owner is in user code. -/
def LoopPc.User : LoopPc → Prop
  | outside | dispatching _ | running true | returned => True
  | _ => False

instance (pc : LoopPc) : Decidable pc.User :=
  match pc with
  | .outside | .dispatching _ | .running true | .returned => .isTrue trivial
  | .testing | .polling | .swapping | .running false => .isFalse id

/-- Where a thread is in its calls on the loop. -/
inductive Call
  | idle
  /-- In `queueInLoop`, after the push; its functor is number `i` of all that have been pushed. -/
  | queueInLoop (i : ℕ)
  /-- In `quit()`, after the store. -/
  | quit
  deriving DecidableEq

/-- An `EventLoop` with its owner and the other threads. -/
structure LoopThread (φ τ : Type) where
  threadId_ : τ
  quit_ : Bool
  callingPendingFunctors_ : Bool
  pendingFunctors_ : List φ
  /-- The counter of the eventfd. -/
  weakupFd_ : ℕ
  pc : LoopPc
  /-- The functors of the round that have not been called. -/
  functors : List φ
  thread : τ → Call
  /-- The functors that have been queued, in order. -/
  pushes : List φ
  /-- The functors that have been called, in order. -/
  executed : List φ
  /-- What the present round, or the last one, has taken at its swap, and what of it has been
  called. -/
  round : List φ × List φ
  /-- The rounds that have ended. -/
  rounds : List (List φ × List φ)

namespace LoopThread

/-! ## The functions of the loop -/

/-- The constructor. -/
def construct (threadId : τ) : LoopThread φ τ where
  threadId_ := threadId
  quit_ := false
  callingPendingFunctors_ := false
  pendingFunctors_ := []
  weakupFd_ := 0
  pc := .outside
  functors := []
  thread _ := .idle
  pushes := []
  executed := []
  round := ([], [])
  rounds := []

/-- `isInLoopthread()`, called on the thread `t`. -/
def isInLoopthread [DecidableEq τ] (s : LoopThread φ τ) (t : τ) : Bool := s.threadId_ = t

/-- The owner goes to `pc`. -/
def goto (s : LoopThread φ τ) (pc : LoopPc) : LoopThread φ τ := { s with pc := pc }

/-- A write of one to the eventfd. -/
def weakup (s : LoopThread φ τ) : LoopThread φ τ := { s with weakupFd_ := s.weakupFd_ + 1 }

/-- A read of the eventfd. -/
def handleRead (s : LoopThread φ τ) : LoopThread φ τ :=
  { s with weakupFd_ := 0 }.goto (.dispatching false)

/-- The first store of `doPendingFunctors`. -/
def doPendingFunctors (s : LoopThread φ τ) : LoopThread φ τ :=
  { s with callingPendingFunctors_ := true }.goto .swapping

/-- `functors.swap(pendingFunctors_)`. -/
def swap (s : LoopThread φ τ) : LoopThread φ τ :=
  { s with
    functors := s.pendingFunctors_
    pendingFunctors_ := []
    round := (s.pendingFunctors_, []) }.goto (.running false)

/-- The functor `f` is called, and `fs` are left. -/
def call (s : LoopThread φ τ) (f : φ) (fs : List φ) : LoopThread φ τ :=
  { s with
    functors := fs
    executed := s.executed ++ [f]
    round := (s.round.1, s.round.2 ++ [f]) }.goto (.running true)

/-- The last store of `doPendingFunctors`. -/
def endRound (s : LoopThread φ τ) : LoopThread φ τ :=
  { s with callingPendingFunctors_ := false, rounds := s.rounds ++ [s.round] }.goto .testing

variable [DecidableEq τ]

/-- The thread `t` enters a call, or leaves it. -/
def enter (s : LoopThread φ τ) (t : τ) (c : Call) : LoopThread φ τ :=
  { s with thread := Function.update s.thread t c }

/-- `queueInLoop` on the thread `t`, up to the end of its critical section. -/
def queueInLoop (s : LoopThread φ τ) (t : τ) (f : φ) : LoopThread φ τ :=
  { s with pendingFunctors_ := s.pendingFunctors_ ++ [f], pushes := s.pushes ++ [f] }.enter t
    (.queueInLoop s.pushes.length)

/-- The rest of `queueInLoop`. -/
def wakeQueued (s : LoopThread φ τ) (t : τ) : LoopThread φ τ :=
  (if !s.isInLoopthread t || s.callingPendingFunctors_ then s.weakup else s).enter t .idle

/-- `quit()` on the thread `t`, up to its store. -/
def quit (s : LoopThread φ τ) (t : τ) : LoopThread φ τ := { s with quit_ := true }.enter t .quit

/-- The rest of `quit()`. -/
def wakeQuit (s : LoopThread φ τ) (t : τ) : LoopThread φ τ :=
  (if !s.isInLoopthread t then s.weakup else s).enter t .idle

/-- A call ends, and only the eventfd may have changed. -/
theorem wakeQueued_eq (s : LoopThread φ τ) (t : τ) :
    ∃ n, s.wakeQueued t = { s with weakupFd_ := n }.enter t .idle := by
  unfold wakeQueued
  split
  · exact ⟨s.weakupFd_ + 1, rfl⟩
  · exact ⟨s.weakupFd_, rfl⟩

theorem wakeQuit_eq (s : LoopThread φ τ) (t : τ) :
    ∃ n, s.wakeQuit t = { s with weakupFd_ := n }.enter t .idle := by
  unfold wakeQuit
  split
  · exact ⟨s.weakupFd_ + 1, rfl⟩
  · exact ⟨s.weakupFd_, rfl⟩

/-! ## Steps -/

/-- A step. -/
inductive Action (φ τ : Type)
  /-- The owner calls `loop()`, which stores `false` to `quit_`. -/
  | loop
  /-- The test of the `while`. -/
  | test
  /-- `poll` returns, with `weakupChannel_` among the active channels or not. -/
  | poll (weakup : Bool)
  | handleRead
  | doPendingFunctors
  | swap
  /-- The next functor of the round is called; the one before has returned. -/
  | next
  | endRound
  /-- The thread `t` queues `f`. -/
  | queueInLoop (t : τ) (f : φ)
  | wakeQueued (t : τ)
  /-- The thread `t` stores `true` to `quit_`. -/
  | quit (t : τ)
  | wakeQuit (t : τ)

/-- The owner is not inside a call on the loop. -/
def Free (s : LoopThread φ τ) : Prop := s.thread s.threadId_ = .idle

/-- The thread `t` can call the loop. -/
def Calls (s : LoopThread φ τ) (t : τ) : Prop :=
  s.thread t = .idle ∧ (t = s.threadId_ → s.pc.User)

/-- The steps that can be taken. The owner goes on in `loop()` when it is in no call of its own. -/
def Enabled (s : LoopThread φ τ) : Action φ τ → Prop
  | .loop => s.pc = .outside ∧ s.Free
  | .test => s.pc = .testing
  | .poll weakup => s.pc = .polling ∧ (weakup = true → 0 < s.weakupFd_)
  | .handleRead => s.pc = .dispatching true ∧ s.Free
  | .doPendingFunctors => s.pc = .dispatching false ∧ s.Free
  | .swap => s.pc = .swapping
  | .next => (s.pc = .running false ∨ s.pc = .running true) ∧ s.functors ≠ [] ∧ s.Free
  | .endRound => (s.pc = .running false ∨ s.pc = .running true) ∧ s.functors = [] ∧ s.Free
  | .queueInLoop t _ | .quit t => s.Calls t
  | .wakeQueued t => ∃ i, s.thread t = .queueInLoop i
  | .wakeQuit t => s.thread t = .quit

instance (c : Call) : Decidable (∃ i, c = .queueInLoop i) :=
  match c with
  | .queueInLoop i => .isTrue ⟨i, rfl⟩
  | .idle | .quit => .isFalse (by simp)

instance (s : LoopThread φ τ) (a : Action φ τ) : Decidable (s.Enabled a) :=
  match a with
  | .loop | .handleRead | .doPendingFunctors => inferInstanceAs (Decidable (_ = _ ∧ _ = _))
  | .test | .swap | .wakeQuit _ => inferInstanceAs (Decidable (_ = _))
  | .poll _ => inferInstanceAs (Decidable (_ = _ ∧ (_ = _ → _ < _)))
  | .next => inferInstanceAs (Decidable ((_ = _ ∨ _ = _) ∧ _ ≠ _ ∧ _ = _))
  | .endRound => inferInstanceAs (Decidable ((_ = _ ∨ _ = _) ∧ _ = _ ∧ _ = _))
  | .queueInLoop _ _ | .quit _ => inferInstanceAs (Decidable (_ = _ ∧ (_ = _ → LoopPc.User _)))
  | .wakeQueued t => inferInstanceAs (Decidable (∃ i, s.thread t = .queueInLoop i))

/-- A step that can be taken. -/
def perform (s : LoopThread φ τ) : Action φ τ → LoopThread φ τ
  | .loop => { s with quit_ := false }.goto .testing
  | .test => s.goto (if s.quit_ then .returned else .polling)
  | .poll weakup => s.goto (.dispatching weakup)
  | .handleRead => s.handleRead
  | .doPendingFunctors => s.doPendingFunctors
  | .swap => s.swap
  | .next =>
    match s.functors with
    | [] => s
    | f :: fs => s.call f fs
  | .endRound => s.endRound
  | .queueInLoop t f => s.queueInLoop t f
  | .wakeQueued t => s.wakeQueued t
  | .quit t => s.quit t
  | .wakeQuit t => s.wakeQuit t

/-- A step; one that cannot be taken changes nothing. -/
def step (s : LoopThread φ τ) (a : Action φ τ) : Except Fault (LoopThread φ τ) :=
  .ok (if s.Enabled a then s.perform a else s)

theorem step_ok {s t : LoopThread φ τ} {a : Action φ τ} (h : s.step a = .ok t) :
    s.Enabled a ∧ t = s.perform a ∨ ¬s.Enabled a ∧ t = s := by
  obtain rfl := Except.ok.inj h
  split
  next henabled => exact .inl ⟨henabled, rfl⟩
  next henabled => exact .inr ⟨henabled, rfl⟩

/-! ## What the steps keep -/

variable {s t : LoopThread φ τ} {a : Action φ τ}

theorem step_threadId (h : s.step a = .ok t) : t.threadId_ = s.threadId_ := by
  rcases step_ok h with ⟨-, rfl⟩ | ⟨-, rfl⟩
  · cases a with
    | next =>
      simp only [perform]
      split <;> rfl
    | wakeQueued i =>
      obtain ⟨n, hn⟩ := s.wakeQueued_eq i
      rw [perform, hn]
      rfl
    | wakeQuit i =>
      obtain ⟨n, hn⟩ := s.wakeQuit_eq i
      rw [perform, hn]
      rfl
    | _ => rfl
  · rfl

/-- `loop()` is called once. -/
theorem stays_inside (hpc : s.pc ≠ .outside) (h : s.step a = .ok t) : t.pc ≠ .outside := by
  rcases step_ok h with ⟨henabled, rfl⟩ | ⟨-, rfl⟩
  · cases a with
    | loop => exact absurd henabled.1 hpc
    | test =>
      simp only [perform, goto]
      split <;> exact LoopPc.noConfusion
    | poll | handleRead | doPendingFunctors | swap | endRound => exact LoopPc.noConfusion
    | next =>
      simp only [perform]
      split
      next => exact hpc
      next => exact LoopPc.noConfusion
    | queueInLoop | quit => exact hpc
    | wakeQueued i =>
      obtain ⟨n, hn⟩ := s.wakeQueued_eq i
      rw [perform, hn]
      exact hpc
    | wakeQuit i =>
      obtain ⟨n, hn⟩ := s.wakeQuit_eq i
      rw [perform, hn]
      exact hpc
  · exact hpc

/-- Once `loop()` has stored `false` to `quit_`, nothing does. -/
theorem keeps_quit (hquit : s.quit_ = true) (hpc : s.pc ≠ .outside) (h : s.step a = .ok t) :
    t.quit_ = true := by
  rcases step_ok h with ⟨henabled, rfl⟩ | ⟨-, rfl⟩
  · cases a with
    | loop => exact absurd henabled.1 hpc
    | test | poll | handleRead | doPendingFunctors | swap | endRound | queueInLoop => exact hquit
    | quit => rfl
    | next =>
      simp only [perform]
      split <;> exact hquit
    | wakeQueued i =>
      obtain ⟨n, hn⟩ := s.wakeQueued_eq i
      rw [perform, hn]
      exact hquit
    | wakeQuit i =>
      obtain ⟨n, hn⟩ := s.wakeQuit_eq i
      rw [perform, hn]
      exact hquit
  · exact hquit

theorem Free.enter (hs : s.Free) {i : τ} {c : Call} (hc : i = s.threadId_ → c = .idle) :
    (s.enter i c).Free := by
  by_cases hi : i = s.threadId_
  · subst hi
    exact (Function.update_self ..).trans (hc rfl)
  · exact (Function.update_of_ne (Ne.symm hi) ..).trans hs

/-- The owner is in a call only when it has made one. -/
theorem Free.step (hs : s.Free) (hqueue : ∀ f, a ≠ .queueInLoop s.threadId_ f)
    (hquit : a ≠ .quit s.threadId_) (h : s.step a = .ok t) : t.Free := by
  rcases step_ok h with ⟨henabled, rfl⟩ | ⟨-, rfl⟩
  · cases a with
    | loop | test | poll | handleRead | doPendingFunctors | swap | endRound => exact hs
    | next =>
      simp only [perform]
      split <;> exact hs
    | queueInLoop i f =>
      have hpush : Free { s with
        pendingFunctors_ := s.pendingFunctors_ ++ [f], pushes := s.pushes ++ [f] } := hs
      exact hpush.enter fun hi => absurd (congrArg (Action.queueInLoop · f) hi) (hqueue f)
    | quit i =>
      have hstore : Free { s with quit_ := true } := hs
      exact hstore.enter fun hi => absurd (congrArg Action.quit hi) hquit
    | wakeQueued i =>
      obtain ⟨n, hn⟩ := s.wakeQueued_eq i
      have hweakup : Free { s with weakupFd_ := n } := hs
      rw [perform, hn]
      exact hweakup.enter fun _ => rfl
    | wakeQuit i =>
      obtain ⟨n, hn⟩ := s.wakeQuit_eq i
      have hweakup : Free { s with weakupFd_ := n } := hs
      rw [perform, hn]
      exact hweakup.enter fun _ => rfl
  · exact hs

end LoopThread

end Muduo
