import Muduo.EpollPoller
import Muduo.EventLoopThread
import Muduo.TcpServer

/-!
# The start of the server

`TcpServer::start` may be called by any thread, any number of times. The call that finds `started_`
zero starts the pool and has the loop of the server listen: `EventLoopThreadPool::start` brings up
one thread after the other, each with `startLoop`, which waits for `threadFunc` to store `loop_`;
`runInLoop` runs `Acceptor::listen` at once or queues it. Meanwhile the threads of the pool run their
`ThreadInitCallback` and their loops, the loop of the server runs what is queued on it, and other
threads go on calling `start()`.

A `Startup` is all of these together: the loop of the server and the threads of the pool are those
of `Muduo.LoopThread` and `Muduo.EventLoopThread`, and their steps interleave with those of the
callers. `log` records what has happened.
-/

namespace Muduo

open Run

variable {φ τ : Type}

namespace Startup

/-- A functor of the loop of the server. -/
inductive Job (φ : Type)
  /-- `Acceptor::listen`. -/
  | listen
  | user (f : φ)

/-- Where a thread is in `TcpServer::start`. -/
inductive Place
  | outside
  /-- In `EventLoopThreadPool::start`, before the test of the `for` with the counter `i`. -/
  | testing (i : ℕ)
  /-- In `startLoop` of the thread number `n` of the pool. -/
  | waiting (i n : ℕ)
  /-- In `cb(baseLoop_)`. -/
  | callback
  /-- Before `runInLoop`. -/
  | listening
  deriving DecidableEq

/-- What is recorded of a run. -/
inductive Event (τ : Type)
  /-- A call of `TcpServer::start` finds `started_` zero. -/
  | start (t : τ) (cb : Bool) (numThreads : ℤ)
  /-- The thread number `n` of the pool calls its `callback_`. -/
  | callback (n : ℕ)
  /-- The thread number `n` of the pool stores its `loop_`. -/
  | publish (n : ℕ)
  /-- `cb(baseLoop_)` is called. -/
  | baseCallback (t : τ)
  | listen (t : τ)
  /-- A new connection gets the loop of the thread number `n` of the pool, or `baseLoop_`. -/
  | newConnection (ioLoop : Option ℕ)
  deriving DecidableEq

/-- A step. -/
inductive Action (φ τ : Type)
  | setThreadNum (numThreads : ℤ)
  | setThreadInitcallback (cb : Bool)
  /-- The thread `t` calls `TcpServer::start`. -/
  | start (t : τ)
  /-- `t` takes the test of the `for`; `id` is the thread that a new `EventLoopThread` will start. -/
  | test (t id : τ)
  /-- `startLoop` returns to `t`, which pushes the loop. -/
  | startLoop (t : τ)
  /-- `cb(baseLoop_)` returns to `t`. -/
  | leaveCallback (t : τ)
  /-- `t` calls `runInLoop`; `listens` is whether `::listen` succeeds, should it be called. -/
  | runInLoop (t : τ) (listens : Bool)
  /-- The thread number `n` of the pool comes to the call of `callback_`. -/
  | callback (n : ℕ)
  /-- A later step of the thread number `n` of the pool. -/
  | thread (n : ℕ) (a : EventLoopThread.Action φ τ)
  /-- A step of the loop of the server, or of a call on it. -/
  | base (a : LoopThread.Action (Job φ) τ) (listens : Bool)
  /-- The acceptor hands over a new connection. -/
  | newConnection

end Startup

/-- A `TcpServer` with its loop, its acceptor and its pool, and the threads that call `start()`. A
loop of the pool is the number of its thread; `none` is `baseLoop_`. -/
structure Startup (φ τ : Type) where
  loop_ : LoopThread (Startup.Job φ) τ
  listening_ : Bool
  acceptChannel_ : Channel
  /-- The poller of `loop_`, with the channel of the acceptor. -/
  poller : EpollPoller Unit
  /-- `started_` of the server. -/
  started_ : BitVec 32
  threadInitCallback_ : Bool
  numThreads_ : ℤ
  threads_ : List (EventLoopThread φ τ)
  /-- Whether the thread number `n` of the pool has come to the call of `callback_`. -/
  entered : ℕ → Bool
  threadPool_ : EventLoopThreadPool (Option ℕ)
  place : τ → Startup.Place
  /-- The number of threads in `EventLoopThreadPool::start`. -/
  starting : ℕ
  log : List (Startup.Event τ)

namespace Startup

/-- The constructor, on the thread `threadId` of `loop`; `sockfd` is the descriptor of the listening
socket. -/
def construct (threadId : τ) (sockfd : ℕ) : Startup φ τ where
  loop_ := .construct threadId
  listening_ := false
  acceptChannel_ := { Channel.construct sockfd with readCallBack_ := true }
  poller := .construct
  started_ := 0
  threadInitCallback_ := false
  numThreads_ := 0
  threads_ := []
  entered _ := false
  threadPool_ := .construct none
  place _ := .outside
  starting := 0
  log := []

/-! ## Functions -/

/-- Something is recorded. -/
def note (s : Startup φ τ) (events : List (Event τ)) : Startup φ τ :=
  { s with log := s.log ++ events }

/-- `Acceptor::listen` on the thread `t`; `listens` is whether `::listen` succeeds. -/
def listen (s : Startup φ τ) (t : τ) (listens : Bool) : Except Fault (Startup φ τ) :=
  if listens then do
    let (poller, channel) ← s.acceptChannel_.enableReading s.poller ()
    return { s with listening_ := true, acceptChannel_ := channel, poller := poller }.note [.listen t]
  else .error .fatal

/-- `newConnection`, as far as the pool goes. -/
def newConnection (s : Startup φ τ) : Except Fault (Startup φ τ) := do
  let (ioLoop, pool) ← s.threadPool_.getNextLoop
  return { s with threadPool_ := pool }.note [.newConnection ioLoop]

/-- What the call of `callback_` by the thread number `n` of the pool records, if `cb` says that there
is one. -/
def initCall (cb : Bool) (n : ℕ) : List (Event τ) := if cb then [.callback n] else []

/-- The thread number `n` of the pool calls `callback_`, if it is set. It is the one that `start` has
been called with, since it cannot be set until `start` returns. -/
def callback (s : Startup φ τ) (n : ℕ) : Startup φ τ :=
  { s with entered := Function.update s.entered n true }.note (initCall s.threadInitCallback_ n)

/-- A step of the thread number `n` of the pool. -/
def thread [DecidableEq τ] (s : Startup φ τ) (n : ℕ) (a : EventLoopThread.Action φ τ) :
    Except Fault (Startup φ τ) :=
  match s.threads_[n]? with
  | none => .ok s
  | some e => do
    let e' ← e.step a
    return { s with threads_ := s.threads_.set n e' }.note
      (if e.func = FuncPc.callback ∧ e'.func = FuncPc.published then [.publish n] else [])

variable [DecidableEq τ]

/-- The thread `t` goes to `place`. -/
def goto (s : Startup φ τ) (t : τ) (place : Place) : Startup φ τ :=
  { s with place := Function.update s.place t place }

/-- `TcpServer::start`, up to the call of `EventLoopThreadPool::start`; `started_++` wraps. -/
def start (s : Startup φ τ) (t : τ) : Startup φ τ :=
  if s.started_ = 0 then
    ({ s with started_ := s.started_ + 1, starting := s.starting + 1 }.note
      [.start t s.threadInitCallback_ s.numThreads_]).goto t (.testing 0)
  else { s with started_ := s.started_ + 1 }

/-- The test of the `for` in `EventLoopThreadPool::start`, with what follows up to the wait in
`startLoop` or to the end of the function. -/
def test (s : Startup φ τ) (t id : τ) (i : ℕ) : Except Fault (Startup φ τ) :=
  if i < s.numThreads_ then do
    let n := s.threads_.length
    let thread ← (EventLoopThread.construct id).step .start
    return { s with
      threads_ := s.threads_ ++ [thread]
      entered := Function.update s.entered n false }.goto t (.waiting i n)
  else if s.numThreads_ = 0 ∧ s.threadInitCallback_ then
    .ok ((s.note [.baseCallback t]).goto t .callback)
  else .ok ({ s with starting := s.starting - 1 }.goto t .listening)

/-- `startLoop` of the thread number `n` returns, when it finds `loop_`. -/
def startLoop (s : Startup φ τ) (t : τ) (i n : ℕ) : Except Fault (Startup φ τ) :=
  match s.threads_[n]? with
  | none => .ok s
  | some e => do
    let e' ← e.step .startLoop
    return if e'.started then
      { s with threads_ := s.threads_.set n e', threadPool_ := s.threadPool_.start [some n] }.goto t
        (.testing (i + 1))
    else s

/-- `runInLoop(Acceptor::listen)` on the thread `t`, up to the end of its critical section. -/
def runInLoop (s : Startup φ τ) (t : τ) (listens : Bool) : Except Fault (Startup φ τ) :=
  if s.loop_.isInLoopthread t then (s.goto t .outside).listen t listens
  else .ok ({ s with loop_ := s.loop_.queueInLoop t .listen }.goto t .outside)

/-- A step of the loop of the server; a functor may be `Acceptor::listen`. -/
def base (s : Startup φ τ) (a : LoopThread.Action (Job φ) τ) (listens : Bool) :
    Except Fault (Startup φ τ) := do
  let loop ← s.loop_.step a
  let t := { s with loop_ := loop }
  if s.loop_.Enabled a then
    match a, s.loop_.functors with
    | .next, .listen :: _ => t.listen s.loop_.threadId_ listens
    | _, _ => return t
  else return t

/-! ## Steps -/

/-- What the user, or the loop, does on the loop of the server: in `cb(baseLoop_)` the user can call
it, and queues functors of its own. -/
def Permits (s : Startup φ τ) (a : LoopThread.Action (Job φ) τ) : Prop :=
  match a with
  | .queueInLoop _ .listen => False
  | .queueInLoop t (.user _) | .quit t => s.place t = .outside ∨ s.place t = .callback
  | .wakeQueued _ | .wakeQuit _ => True
  | .loop | .test | .poll _ | .handleRead | .doPendingFunctors | .swap | .next | .endRound =>
    s.place s.loop_.threadId_ = .outside

/-- The steps of a thread of the pool that are not `EventLoopThreadPool::start`'s. They come behind the
call of `callback_`, which is the first to hand the loop out. -/
def Own : EventLoopThread.Action φ τ → Prop
  | .start | .startLoop | .destroy _ | .call | .quit | .join => False
  | .publish | .lock | .clear | .unlock | .leave | .on _ => True

/-- The steps that can be taken. The user sets what the pool starts with when no thread starts it,
since the store would be a data race. -/
def Enabled (s : Startup φ τ) : Action φ τ → Prop
  | .setThreadNum _ | .setThreadInitcallback _ => s.starting = 0
  | .start t => s.loop_.Calls t ∧
    (s.place t = .outside ∨ s.place t = .callback ∧ s.started_ ≠ 0)
  | .test _ id => id ≠ s.loop_.threadId_
  | .startLoop _ => True
  | .leaveCallback t => s.place t = .callback ∧ s.loop_.thread t = .idle
  | .runInLoop t _ => s.place t = .listening ∧ s.loop_.thread t = .idle
  | .callback n => (s.threads_[n]?.map (·.func)) = some .callback ∧ s.entered n = false
  | .thread n a => Own a ∧ s.entered n = true
  | .base a _ => s.Permits a
  | .newConnection => s.place s.loop_.threadId_ = .outside ∧ s.loop_.Free ∧
    (s.loop_.pc = .dispatching false ∨ s.loop_.pc = .dispatching true) ∧
    (s.poller.entry s.acceptChannel_.fd_).Mentions () ∧ s.acceptChannel_.isReading

/-- A step that can be taken. -/
def perform (s : Startup φ τ) : Action φ τ → Except Fault (Startup φ τ)
  | .setThreadNum numThreads => .ok { s with numThreads_ := numThreads }
  | .setThreadInitcallback cb => .ok { s with threadInitCallback_ := cb }
  | .start t => .ok (s.start t)
  | .test t id =>
    match s.place t with
    | .testing i => s.test t id i
    | _ => .ok s
  | .startLoop t =>
    match s.place t with
    | .waiting i n => s.startLoop t i n
    | _ => .ok s
  | .leaveCallback t => .ok ({ s with starting := s.starting - 1 }.goto t .listening)
  | .runInLoop t listens => s.runInLoop t listens
  | .callback n => .ok (s.callback n)
  | .thread n a => s.thread n a
  | .base a listens => s.base a listens
  | .newConnection => s.newConnection

instance (s : Startup φ τ) (a : LoopThread.Action (Job φ) τ) : Decidable (s.Permits a) :=
  match a with
  | .queueInLoop _ .listen => .isFalse id
  | .queueInLoop _ (.user _) | .quit _ => inferInstanceAs (Decidable (_ ∨ _))
  | .wakeQueued _ | .wakeQuit _ => .isTrue trivial
  | .loop | .test | .poll _ | .handleRead | .doPendingFunctors | .swap | .next | .endRound =>
    inferInstanceAs (Decidable (_ = _))

instance (a : EventLoopThread.Action φ τ) : Decidable (Own a) :=
  match a with
  | .start | .startLoop | .destroy _ | .call | .quit | .join => .isFalse id
  | .publish | .lock | .clear | .unlock | .leave | .on _ => .isTrue trivial

instance (s : Startup φ τ) (a : Action φ τ) : Decidable (s.Enabled a) :=
  match a with
  | .setThreadNum _ | .setThreadInitcallback _ => inferInstanceAs (Decidable (_ = _))
  | .start _ => inferInstanceAs (Decidable ((_ = _ ∧ (_ = _ → LoopPc.User _)) ∧ (_ ∨ _ ∧ _ ≠ _)))
  | .test _ _ => inferInstanceAs (Decidable (_ ≠ _))
  | .startLoop _ => .isTrue trivial
  | .leaveCallback _ | .runInLoop _ _ => inferInstanceAs (Decidable (_ = _ ∧ _ = _))
  | .callback _ => inferInstanceAs (Decidable (_ = _ ∧ _ = _))
  | .thread _ a => inferInstanceAs (Decidable (Own a ∧ _ = _))
  | .base a _ => inferInstanceAs (Decidable (s.Permits a))
  | .newConnection =>
    inferInstanceAs (Decidable (_ = _ ∧ _ = _ ∧ (_ = _ ∨ _ = _) ∧ Entry.Mentions _ _ ∧ _ = _))

/-- A step; one that cannot be taken changes nothing. -/
def step (s : Startup φ τ) (a : Action φ τ) : Except Fault (Startup φ τ) :=
  if s.Enabled a then s.perform a else .ok s

end Startup

end Muduo
