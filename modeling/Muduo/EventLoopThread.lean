import Muduo.LoopThread

/-!
# A thread with a loop

`EventLoopThread::threadFunc` constructs an `EventLoop`, runs the `ThreadInitCallback` on it, stores
its address in `loop_`, and calls `loop()`; `startLoop` returns the address as soon as `loop_` holds
it. When the loop has returned, `threadFunc` clears `loop_` under the mutex, unlocks, and leaves its
frame. `~EventLoopThread` tests `loop_` without the mutex, reads it again to quit the loop, and joins.
An access to the loop after its frame is gone, or through a `loop_` that is null, is a fault.
-/

namespace Muduo

variable {φ τ : Type}

/-- Where `threadFunc` is. -/
inductive FuncPc
  /-- The thread has not been started. -/
  | idle
  /-- In `callback_`. -/
  | callback
  /-- `loop_` has been stored; the loop is called, or about to be. -/
  | published
  /-- The loop has returned, and `mutex_` is locked again. -/
  | locked
  /-- `loop_` has been cleared, under the mutex. -/
  | cleared
  /-- `mutex_` has been unlocked; the loop is still there. -/
  | unlocked
  /-- The frame is gone, and the loop with it. -/
  | ended
  deriving DecidableEq

/-- Where `~EventLoopThread` is. -/
inductive Destructor (τ : Type)
  | absent
  /-- On the thread `t`, after the test of `loop_`. -/
  | tested (t : τ)
  /-- At the call of `loop_->quit()`, after the second read of `loop_`. -/
  | calling (t : τ)
  /-- After the store of `quit()`. -/
  | joining (t : τ)
  | returned
  deriving DecidableEq

/-- `~EventLoopThread` is on the thread `t`, and has found `loop_`. -/
def Destructor.On (d : Destructor τ) (t : τ) : Prop :=
  d = .tested t ∨ d = .calling t ∨ d = .joining t

instance [DecidableEq τ] (d : Destructor τ) (t : τ) : Decidable (d.On t) :=
  inferInstanceAs (Decidable (_ = _ ∨ _ = _ ∨ _ = _))

/-- `EventLoopThread`, with the loop in the frame of `threadFunc`. -/
structure EventLoopThread (φ τ : Type) where
  loop : LoopThread φ τ
  /-- `loop_` is not null. -/
  loop_ : Bool
  func : FuncPc
  /-- `startLoop` has returned the address of the loop. -/
  started : Bool
  /-- `joined_` of `thread_`; `~Thread` detaches a started thread that is not joined. -/
  joined_ : Bool
  destructor : Destructor τ

namespace EventLoopThread

/-- The constructor; `threadId` is the thread that `thread_` will start. -/
def construct (threadId : τ) : EventLoopThread φ τ where
  loop := .construct threadId
  loop_ := false
  func := .idle
  started := false
  joined_ := false
  destructor := .absent

/-- A step. -/
inductive Action (φ τ : Type)
  /-- `startLoop` starts the thread. -/
  | start
  /-- `startLoop` finds `loop_` and returns it. -/
  | startLoop
  /-- `threadFunc` stores `loop_`. -/
  | publish
  /-- `threadFunc` locks `mutex_` after the loop. -/
  | lock
  /-- `threadFunc` stores `nullptr` to `loop_`. -/
  | clear
  /-- `threadFunc` unlocks `mutex_`. -/
  | unlock
  /-- `threadFunc` destroys the loop and returns. -/
  | leave
  /-- A step of the loop. -/
  | on (a : LoopThread.Action φ τ)
  /-- `~EventLoopThread` is called on the thread `t`, not that of the loop, and tests `loop_`. -/
  | destroy (t : τ)
  /-- `~EventLoopThread` reads `loop_` again, and calls `quit()` through it. -/
  | call
  /-- The store of that `quit()`. -/
  | quit
  /-- `~EventLoopThread` returns from `join()`. -/
  | join

variable [DecidableEq τ]

/-- The loop is in the frame of `threadFunc`. -/
def Alive (s : EventLoopThread φ τ) : Prop := s.func ≠ .idle ∧ s.func ≠ .ended

instance (s : EventLoopThread φ τ) : Decidable s.Alive :=
  inferInstanceAs (Decidable (_ ≠ _ ∧ _ ≠ _))

/-- A step of the loop that the place of `threadFunc` allows. The owner is in user code in
`callback_` and in the callbacks of the loop; other threads know the loop from `startLoop`, and the
one in the destructor does nothing else. -/
def Permits (s : EventLoopThread φ τ) : LoopThread.Action φ τ → Prop
  | .loop => s.func = .published
  | .queueInLoop t _ | .quit t =>
    if t = s.loop.threadId_ then
      s.func = .callback ∨ s.loop.pc ≠ .outside ∧ s.loop.pc ≠ .returned
    else s.started = true ∧ ¬s.destructor.On t
  | _ => True

instance (s : EventLoopThread φ τ) (a : LoopThread.Action φ τ) : Decidable (s.Permits a) :=
  match a with
  | .loop => inferInstanceAs (Decidable (_ = _))
  | .queueInLoop _ _ | .quit _ =>
    inferInstanceAs (Decidable (if _ = _ then _ = _ ∨ _ ≠ _ ∧ _ ≠ _ else _ = _ ∧ ¬_))
  | .test | .poll _ | .handleRead | .doPendingFunctors | .swap | .next | .endRound |
    .wakeQueued _ | .wakeQuit _ => .isTrue trivial

/-- The step is part of a call that some thread makes on the loop. -/
def IsCall : LoopThread.Action φ τ → Prop
  | .queueInLoop _ _ | .wakeQueued _ | .quit _ | .wakeQuit _ => True
  | _ => False

instance (a : LoopThread.Action φ τ) : Decidable (IsCall a) :=
  match a with
  | .queueInLoop _ _ | .wakeQueued _ | .quit _ | .wakeQuit _ => .isTrue trivial
  | .loop | .test | .poll _ | .handleRead | .doPendingFunctors | .swap | .next | .endRound =>
    .isFalse id

/-- A step of the loop of the thread, while there is one; on a loop that is gone it is a fault. -/
def on (s : EventLoopThread φ τ) (a : LoopThread.Action φ τ) : Except Fault (EventLoopThread φ τ) :=
  if s.Alive then
    if s.Permits a then do return { s with loop := ← s.loop.step a } else .ok s
  else if s.func = .ended ∧ IsCall a ∧ s.Permits a ∧ s.loop.Enabled a then .error .outOfBounds
  else .ok s

/-- `loop_->quit()` of the destructor, up to its store. -/
def quit (s : EventLoopThread φ τ) (t : τ) : Except Fault (EventLoopThread φ τ) :=
  if s.Alive then .ok { s with loop := s.loop.quit t, destructor := .joining t }
  else .error .outOfBounds

/-- A step; one that cannot be taken changes nothing. `startLoop` reads `loop_` under the mutex, and
the destructor tests it without. -/
def step (s : EventLoopThread φ τ) : Action φ τ → Except Fault (EventLoopThread φ τ)
  | .start =>
    .ok (if s.func = .idle ∧ s.destructor = .absent then { s with func := .callback } else s)
  | .startLoop =>
    .ok (if s.loop_ ∧ s.func ≠ .locked ∧ s.destructor = .absent then { s with started := true }
      else s)
  | .publish =>
    .ok (if s.func = .callback ∧ s.loop.thread s.loop.threadId_ = .idle then
      { s with loop_ := true, func := .published } else s)
  | .lock =>
    .ok (if s.func = .published ∧ s.loop.pc = .returned ∧ s.loop.thread s.loop.threadId_ = .idle then
      { s with func := .locked } else s)
  | .clear => .ok (if s.func = .locked then { s with loop_ := false, func := .cleared } else s)
  | .unlock => .ok (if s.func = .cleared then { s with func := .unlocked } else s)
  | .leave => .ok (if s.func = .unlocked then { s with func := .ended } else s)
  | .on a => s.on a
  | .destroy t =>
    .ok (if s.destructor = .absent ∧ t ≠ s.loop.threadId_ ∧ s.loop.thread t = .idle then
      { s with destructor := if s.loop_ then .tested t else .returned } else s)
  | .call =>
    match s.destructor with
    | .tested t =>
      if s.loop_ then .ok { s with destructor := .calling t } else .error .outOfBounds
    | _ => .ok s
  | .quit =>
    match s.destructor with
    | .calling t => if s.loop.thread t = .idle then s.quit t else .ok s
    | _ => .ok s
  | .join =>
    match s.destructor with
    | .joining t =>
      .ok (if s.func = .ended ∧ s.loop.thread t = .idle then
        { s with joined_ := true, destructor := .returned } else s)
    | _ => .ok s

end EventLoopThread

end Muduo
