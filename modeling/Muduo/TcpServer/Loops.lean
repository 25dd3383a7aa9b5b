import Muduo.TcpConnection.Threads
import Muduo.TcpServer

/-!
# The server and its loops

A `TcpServer` accepts connections on its own loop, and spreads them over the loops of its pool. Each
loop has a thread, a poller and a queue, and `Loops` is all of them together: a step is taken by the
thread of one loop, and the steps of different threads interleave. A thread handles an event or takes
a round of functors when it is inside neither; what it is inside of is a stack of `Activation`s. They
are cut where a thread has still to reach another loop, or the other connections of its own.

What the server does with a connection hops between two loops: `newConnection` hands
`conneectEstableished` to the loop of the connection, `removeConnection` hands
`removeConnectionInLoop` to the loop of the server, and this hands `conneectDestroyed` back. Every
hop but the last is made by `runInLoop`, which on the thread of the loop calls the functor at once.

User code runs on the loop of its connection, and calls it there. (What the calls of other threads
can do to one connection is the subject of `Muduo.TcpConnection.Threads`.) The pollers hold the
channels of connections only: `weakupChannel_` of a loop and the channel of the listening socket are
left out, whose descriptors are open all the time and so never those of a connection.
-/

namespace Muduo

open Run

variable {ℓ : Type}

/-! ## States -/

/-- A function of a connection whose runs are logged. -/
inductive Ran
  | conneectEstableished
  | handleClose
  | conneectDestroyed
  deriving DecidableEq

/-- What a thread has entered and not left. -/
inductive Activation
  /-- `newConnection`, before its `runInLoop`. -/
  | newConnection (conn : ℕ)
  /-- `handleEvent`, with the callbacks still to run; `guard` is whether `guard` holds the owner. -/
  | handleEvent (conn : ℕ) (guard : Bool) (callbacks : List EventCallback)
  /-- `removeConnection`, which `handleClose` has called. -/
  | removeConnection (conn : ℕ)
  /-- The functor `removeConnectionInLoop`, before `connections_.erase`. -/
  | removeConnectionInLoop (conn : ℕ)
  /-- The functor `removeConnectionInLoop`, after `connections_.erase`. -/
  | erased (conn : ℕ)
  deriving DecidableEq

/-- A server with its connections and its loops. A connection is named by its place among those that
have been created. -/
structure Loops (ℓ : Type) where
  server : TcpServer ℓ
  conn : ℕ → TcpConnection
  loop : ℓ → EventLoop ℕ
  /-- The functors of the present round of `doPendingFunctors` that have not been called. -/
  functors : ℓ → List (Functor ℕ)
  /-- What the thread of the loop is inside of, the innermost first. -/
  stack : ℓ → List Activation
  /-- The runs of `Ran`, each with its connection and the loop whose thread has run it. -/
  log : List (ℕ × Ran × ℓ)

/-- What the kernel and the user answer while a callback or a functor runs; `text` is what is then
at the address that a `sendInLoop` carries. -/
structure Answers where
  recv : Recv
  extraBuffer : List UInt8
  onMessage : Buffer → Buffer
  write : Write
  text : Text

/-- A callback, with the answers that it gets. -/
def EventCallback.event (answers : Answers) : EventCallback → Event
  | close => .close
  | error => .error
  | read => .read answers.recv answers.extraBuffer answers.onMessage
  | write => .write answers.write

/-- A call of the user on a connection, on the thread of its loop. -/
inductive UserCall
  | send (buf : Text) (write : Write)
  | shutdown
  | setWriteCompleteCallback (cb : Bool)
  | setHighWaterMarkCallback (cb : Bool) (highWaterMark : ℕ)

/-- The call runs on the connection. -/
def UserCall.exec {ι : Type} (w : World ι) : UserCall → Except Fault (World ι)
  | send buf write => TcpConnection.send w buf.1 write
  | shutdown => .ok (TcpConnection.shutdown w true)
  | setWriteCompleteCallback cb => .ok { w with conn := w.conn.setWriteCompleteCallback cb }
  | setHighWaterMarkCallback cb mark =>
    .ok { w with conn := w.conn.setHighWaterMarkCallback cb mark }

/-- The functor binds a `TcpConnectionPtr`; the others bind `this`. -/
def Task.Strong : Task → Prop
  | .sendInLoop _ _ | .shutdownInLoop => False
  | _ => True

instance (task : Task) : Decidable task.Strong :=
  match task with
  | .sendInLoop _ _ | .shutdownInLoop => .isFalse id
  | .writeCompleteCallback | .highWaterMarkCallback _ | .conneectEstableished
  | .conneectDestroyed | .removeConnectionInLoop => .isTrue trivial

/-- The activation is a functor that binds the connection, or has locked its guard. -/
def Activation.Holds (conn : ℕ) : Activation → Prop
  | handleEvent c guard _ => c = conn ∧ guard = true
  | removeConnectionInLoop c | erased c => c = conn
  | newConnection _ | removeConnection _ => False

instance (conn : ℕ) (a : Activation) : Decidable (a.Holds conn) :=
  match a with
  | .handleEvent _ _ _ => inferInstanceAs (Decidable (_ = _ ∧ _ = _))
  | .removeConnectionInLoop _ | .erased _ => inferInstanceAs (Decidable (_ = _))
  | .newConnection _ | .removeConnection _ => .isFalse id

namespace Loops

/-- A server that has created no connection, and whose loops are idle. Of the channels of a poller only
those of connections are modelled, so that the pollers are empty. -/
def start (server : TcpServer ℓ) : Loops ℓ where
  server := server
  conn _ := .construct 0
  loop _ := ⟨.construct, []⟩
  functors _ := []
  stack _ := []
  log := []

/-- The functors of the loop that have not been called. -/
def queue (s : Loops ℓ) (l : ℓ) : List (Functor ℕ) :=
  s.functors l ++ (s.loop l).pendingFunctors_

/-- The loop of the server, and those of its pool. -/
def all (s : Loops ℓ) : List ℓ := s.server.loop_ :: s.server.threadPool_.loops_

/-- A strong reference to the connection: its entry of `connections_`, a functor that is queued or
runs, or the guard of a `handleEvent`. -/
def Held (s : Loops ℓ) (conn : ℕ) : Prop :=
  (∃ c ∈ s.server.created[conn]?, s.server.connections_ c.name_ = some conn) ∨
    ∃ l ∈ s.all, (∃ f ∈ s.queue l, f.conn = conn ∧ f.task.Strong) ∨
      ∃ a ∈ s.stack l, a.Holds conn

instance (s : Loops ℓ) (conn : ℕ) : Decidable (s.Held conn) :=
  inferInstanceAs (Decidable (_ ∨ ∃ l ∈ s.all, (∃ f ∈ s.queue l, _ ∧ _) ∨ ∃ a ∈ s.stack l, _))

/-- The poller of the loop holds the channel of the connection. -/
def InPoller (s : Loops ℓ) (l : ℓ) (conn : ℕ) : Prop :=
  ((s.loop l).poller.entry (s.conn conn).channel_.fd_).Mentions conn

instance (s : Loops ℓ) (l : ℓ) (conn : ℕ) : Decidable (s.InPoller l conn) :=
  inferInstanceAs (Decidable (Entry.Mentions _ _))

/-- The thread of the loop handles no event, and its round of functors has ended. -/
def Idle (s : Loops ℓ) (l : ℓ) : Prop := s.stack l = [] ∧ s.functors l = []

instance (s : Loops ℓ) (l : ℓ) : Decidable (s.Idle l) := inferInstanceAs (Decidable (_ = _ ∧ _ = _))

/-- The runs of the connection's functions, each with the loop whose thread has run it. -/
def history (s : Loops ℓ) (conn : ℕ) : List (Ran × ℓ) :=
  s.log.filterMap fun (c, f, l) => if c = conn then some (f, l) else none

/-! ## Functions -/

/-- `getLoop` of the connection. -/
def getLoop (s : Loops ℓ) (conn : ℕ) : Except Fault ℓ :=
  match s.server.created[conn]? with
  | some c => .ok c.loop_
  | none => .error .outOfBounds

/-- The connection as its functions see it, on the loop `l`. -/
def world (s : Loops ℓ) (l : ℓ) (conn : ℕ) : World ℕ := ⟨conn, s.conn conn, s.loop l, []⟩

/-- The thread of `l` has run a function of the connection. -/
def note (s : Loops ℓ) (l : ℓ) (conn : ℕ) (f : Ran) : Loops ℓ :=
  { s with log := s.log ++ [(conn, f, l)] }

variable [DecidableEq ℓ]

/-- The connection and its loop `l` have become those of `w`. -/
def put (s : Loops ℓ) (l : ℓ) (conn : ℕ) (w : World ℕ) : Loops ℓ :=
  { s with conn := Function.update s.conn conn w.conn, loop := Function.update s.loop l w.loop }

/-- The thread of `l` is inside of `activations`. -/
def goto (s : Loops ℓ) (l : ℓ) (activations : List Activation) : Loops ℓ :=
  { s with stack := Function.update s.stack l activations }

/-- The thread of `l` enters `a`. -/
def enter (s : Loops ℓ) (l : ℓ) (a : Activation) : Loops ℓ := s.goto l (a :: s.stack l)

/-- The functors `fs` of the round are left. -/
def round (s : Loops ℓ) (l : ℓ) (fs : List (Functor ℕ)) : Loops ℓ :=
  { s with functors := Function.update s.functors l fs }

/-- The queue of the loop becomes `fs`. -/
def setPending (s : Loops ℓ) (l : ℓ) (fs : List (Functor ℕ)) : Loops ℓ :=
  let loop := { s.loop l with pendingFunctors_ := fs }
  { s with loop := Function.update s.loop l loop }

/-- `queueInLoop` of the loop `l`. -/
def queueInLoop (s : Loops ℓ) (l : ℓ) (cb : Functor ℕ) : Loops ℓ :=
  s.setPending l ((s.loop l).pendingFunctors_ ++ [cb])

/-- `functors.swap(pendingFunctors_)`. -/
def swap (s : Loops ℓ) (l : ℓ) : Loops ℓ :=
  (s.round l (s.loop l).pendingFunctors_).setPending l []

/-- Run a function of the connection, and return its effects. -/
def exec (s : Loops ℓ) (conn : ℕ) (f : World ℕ → Except Fault (World ℕ)) :
    Except Fault (Loops ℓ × List Effect) := do
  let ioLoop ← s.getLoop conn
  let w ← f (s.world ioLoop conn)
  return (s.put ioLoop conn w, w.trace)

/-- A run of a function that is logged, on the thread of `l`. -/
def execNoted (s : Loops ℓ) (l : ℓ) (conn : ℕ) (ran : Ran)
    (f : World ℕ → Except Fault (World ℕ)) : Except Fault (Loops ℓ) := do
  let (s, _) ← s.exec conn f
  return s.note l conn ran

/-- The functor `cb` runs on the thread of `l`. A user callback does nothing itself; the calls it
makes are further steps. -/
def call (s : Loops ℓ) (l : ℓ) (answers : Answers) (cb : Functor ℕ) : Except Fault (Loops ℓ) :=
  match cb.task with
  | .conneectEstableished =>
    s.execNoted l cb.conn .conneectEstableished TcpConnection.conneectEstableished
  | .conneectDestroyed => s.execNoted l cb.conn .conneectDestroyed TcpConnection.conneectDestroyed
  | .removeConnectionInLoop => .ok (s.enter l (.removeConnectionInLoop cb.conn))
  | .sendInLoop _ len => do
    return (← s.exec cb.conn fun w =>
      TcpConnection.sendInLoop w answers.text.1 len answers.write).1
  | .shutdownInLoop => do
    return (← s.exec cb.conn fun w => .ok (TcpConnection.shutdownInLoop w)).1
  | .writeCompleteCallback | .highWaterMarkCallback _ => .ok s

/-- `runInLoop` of the loop `l`, called on the thread of `t`. -/
def runInLoop (s : Loops ℓ) (t l : ℓ) (answers : Answers) (cb : Functor ℕ) :
    Except Fault (Loops ℓ) :=
  if t = l then s.call t answers cb else .ok (s.queueInLoop l cb)

/-- A callback of the channel runs on the thread of `l`. A close calls `closeCallback_`, which is
`removeConnection` of the server. -/
def handle (s : Loops ℓ) (l : ℓ) (conn : ℕ) (e : Event) : Except Fault (Loops ℓ) := do
  let (s, effects) ← s.exec conn e.op.exec
  return if .closeCallback ∈ effects then
    (s.note l conn .handleClose).enter l (.removeConnection conn) else s

/-- The acceptor calls `newConnection`, which goes on with `runInLoop`. -/
def accept (s : Loops ℓ) (sockFd : ℕ) (localAddr peerAddr : InetAddress) (complete : Bool) :
    Except Fault (Loops ℓ) := do
  let conn := s.server.created.length
  let server ← s.server.newConnection sockFd localAddr peerAddr
  return { s with
    server
    conn := Function.update s.conn conn
      ((TcpConnection.construct sockFd).setWriteCompleteCallback complete) }.enter
    s.server.loop_ (.newConnection conn)

/-- `handleEvent` of the channel of the connection, up to its callbacks. -/
def dispatch (s : Loops ℓ) (l : ℓ) (conn : ℕ) (revents : Mask) : Loops ℓ :=
  let channel := (s.conn conn).channel_.set_revents revents
  { s with conn := Function.update s.conn conn { s.conn conn with channel_ := channel } }.enter l
    (.handleEvent conn (channel.tied_ && s.Held conn) (channel.handleEvent (s.Held conn)))

/-- The thread of `l` goes on with what it is inside of. -/
def proceed (s : Loops ℓ) (l : ℓ) (answers : Answers) : Except Fault (Loops ℓ) :=
  match s.stack l with
  | [] => .ok s
  | .newConnection conn :: rest => do
    let ioLoop ← s.getLoop conn
    (s.goto l rest).runInLoop l ioLoop answers ⟨conn, .conneectEstableished⟩
  | .handleEvent _ _ [] :: rest => .ok (s.goto l rest)
  | .handleEvent conn guard (cb :: callbacks) :: rest =>
    (s.goto l (.handleEvent conn guard callbacks :: rest)).handle l conn (cb.event answers)
  | .removeConnection conn :: rest =>
    (s.goto l rest).runInLoop l s.server.loop_ answers ⟨conn, .removeConnectionInLoop⟩
  | .removeConnectionInLoop conn :: rest =>
    .ok ({ s.goto l rest with server := s.server.removeConnectionInLoop conn }.enter l
      (.erased conn))
  | .erased conn :: rest => do
    let ioLoop ← s.getLoop conn
    return (s.goto l rest).queueInLoop ioLoop ⟨conn, .conneectDestroyed⟩

/-! ## Steps -/

/-- A step. -/
inductive Action (ℓ : Type)
  /-- The acceptor accepts a connection, on the loop of the server. -/
  | accept (sockFd : ℕ) (localAddr peerAddr : InetAddress) (complete : Bool)
  /-- An event of the channel of the connection, on the loop `l`. -/
  | dispatch (l : ℓ) (conn : ℕ) (revents : Mask)
  | proceed (l : ℓ) (answers : Answers)
  /-- The thread of `l` takes its queue for a round of `doPendingFunctors`. -/
  | swap (l : ℓ)
  /-- The thread of `l` calls the next functor of the round. -/
  | next (l : ℓ) (answers : Answers)
  /-- The user calls the connection, on the thread of its loop. -/
  | user (conn : ℕ) (call : UserCall)

/-- The steps that a thread takes between others. The kernel hands out descriptors that are not
open; the descriptor of a connection is open as long as the connection is held. -/
def Enabled (s : Loops ℓ) : Action ℓ → Prop
  | .accept sockFd _ _ _ => s.Idle s.server.loop_ ∧
    ∀ conn < s.server.created.length, (s.conn conn).channel_.fd_ = sockFd → ¬s.Held conn
  | .dispatch l conn _ => s.Idle l ∧ s.InPoller l conn
  | .proceed _ _ => True
  | .swap l => s.Idle l
  | .next l _ => s.stack l = []
  | .user conn _ => conn < s.server.created.length

instance (s : Loops ℓ) (a : Action ℓ) : Decidable (s.Enabled a) :=
  match a with
  | .accept _ _ _ _ => inferInstanceAs (Decidable (_ ∧ ∀ conn < _, _ = _ → ¬_))
  | .dispatch _ _ _ => inferInstanceAs (Decidable (_ ∧ _))
  | .proceed _ _ => .isTrue trivial
  | .swap l => inferInstanceAs (Decidable (s.Idle l))
  | .next _ _ => inferInstanceAs (Decidable (_ = _))
  | .user _ _ => inferInstanceAs (Decidable (_ < _))

/-- A step that can be taken. -/
def perform (s : Loops ℓ) : Action ℓ → Except Fault (Loops ℓ)
  | .accept sockFd localAddr peerAddr complete => s.accept sockFd localAddr peerAddr complete
  | .dispatch l conn revents => .ok (s.dispatch l conn revents)
  | .proceed l answers => s.proceed l answers
  | .swap l => .ok (s.swap l)
  | .next l answers =>
    match s.functors l with
    | [] => .ok s
    | f :: fs => (s.round l fs).call l answers f
  | .user conn call => do return (← s.exec conn call.exec).1

/-- A step; one that cannot be taken changes nothing. -/
def step (s : Loops ℓ) (a : Action ℓ) : Except Fault (Loops ℓ) :=
  if s.Enabled a then s.perform a else .ok s

end Loops

end Muduo
