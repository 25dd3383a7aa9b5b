import Muduo.Buffer
import Muduo.EpollPoller.Agreement

/-!
# The connection

`TcpConnection` holds its state, its channel and its two buffers. Its functions follow
`TcpConnection.cpp`, each as a function of a `World`: the connection, the loop it belongs to, and a
trace of what it has done that is seen outside (`Effect`). The kernel's answers are arguments. What
the functions hand to `runInLoop` and `queueInLoop` are values of `Functor`, so that the queue of a
loop is a list.

A user callback is an effect, and the calls it makes on the connection are further steps of the run.
After a callback most of the functions do nothing but return; `conneectDestroyed` still removes the
channel, and `handleClose` calls `closeCallback_`.
-/

namespace Muduo

open Run

variable {ι : Type}

/-- `TcpConnection::StateE`. -/
inductive StateE
  | kDisconnected
  | kConnecting
  | kConnected
  | kDisconnecting
  deriving DecidableEq

/-- `TcpConnection`. Of a callback it only looks at whether it is set; `connectionCallback_`,
`messageCallback_` and `closeCallback_` are called without a test. -/
structure TcpConnection where
  state_ : StateE
  channel_ : Channel
  inputBuffer_ : Buffer
  outputBuffer_ : Buffer
  highWaterMark_ : ℕ
  writeCompleteCallback_ : Bool
  highWaterMarkCallback_ : Bool

/-- An address in the memory of the program. -/
abbrev Address := ℕ

/-- What a functor bound to a connection runs. `sendInLoop` carries a pointer to the bytes. -/
inductive Task
  | sendInLoop (data : Address) (len : ℤ)
  | shutdownInLoop
  | writeCompleteCallback
  | highWaterMarkCallback (size : ℕ)
  | conneectEstableished
  | conneectDestroyed
  | removeConnectionInLoop
  deriving DecidableEq

/-- The functor calls the user back. -/
def Task.IsCallback : Task → Prop
  | .writeCompleteCallback | .highWaterMarkCallback _ => True
  | _ => False

/-- `EventLoop::Functor`. -/
structure Functor (ι : Type) where
  conn : ι
  task : Task
  deriving DecidableEq

/-- `EventLoop`, with what its connections use of it. -/
structure EventLoop (ι : Type) where
  poller : EpollPoller ι
  pendingFunctors_ : List (Functor ι)

/-- What a connection does that is seen outside of it. -/
inductive Effect
  /-- A `::write` of `count` bytes. -/
  | write (count : ℕ) (wrote : Wrote)
  | shutdownWrite
  /-- A call of `connectionCallback_`, which sees the state. -/
  | connectionCallback (state : StateE)
  | messageCallback
  | closeCallback
  /-- A functor bound to the connection is put into the queue of its loop. -/
  | queued (task : Task)
  deriving DecidableEq

/-- A connection, known to others as `self`, with its loop. -/
structure World (ι : Type) where
  self : ι
  conn : TcpConnection
  loop : EventLoop ι
  trace : List Effect

namespace TcpConnection

/-- The constructor, which sets the four callbacks of the channel. -/
def construct (sockfd : ℕ) : TcpConnection where
  state_ := .kConnecting
  channel_ := { Channel.construct sockfd with
    readCallBack_ := true
    writeCallBack_ := true
    closeCallBack_ := true
    errorCallBack_ := true }
  inputBuffer_ := .construct Buffer.kInitialSize
  outputBuffer_ := .construct Buffer.kInitialSize
  highWaterMark_ := 64 * 1024 * 1024
  writeCompleteCallback_ := false
  highWaterMarkCallback_ := false

/-- `setWriteCompleteCallback`; `cb` is whether the callback can be called. -/
def setWriteCompleteCallback (c : TcpConnection) (cb : Bool) : TcpConnection :=
  { c with writeCompleteCallback_ := cb }

/-- `setHighWaterMarkCallback`, with the mark. -/
def setHighWaterMarkCallback (c : TcpConnection) (cb : Bool) (highWaterMark : ℕ) : TcpConnection :=
  { c with highWaterMarkCallback_ := cb, highWaterMark_ := highWaterMark }

/-- `setState`. -/
def setState (w : World ι) (state : StateE) : World ι := { w with conn.state_ := state }

/-- The connection does something that is seen outside. -/
def emit (w : World ι) (e : Effect) : World ι := { w with trace := w.trace ++ [e] }

/-- The output buffer becomes `out`. -/
def setOutput (w : World ι) (out : Buffer) : World ι := { w with conn.outputBuffer_ := out }

/-- `loop_->queueInLoop` of a functor bound to this connection. -/
def queueInLoop (w : World ι) (task : Task) : World ι :=
  emit { w with loop.pendingFunctors_ := w.loop.pendingFunctors_ ++ [⟨w.self, task⟩] } (.queued task)

/-- A call on `channel_`, which reaches the poller through `loop_`. -/
def callChannel (w : World ι) (call : Channel.Call) : Except Fault (World ι) := do
  let (p, c) ← call.exec w.loop.poller w.self w.conn.channel_
  return { w with conn.channel_ := c, loop.poller := p }

/-- `shutdownInLoop`: a channel that counts as writing puts the half-close off. -/
def shutdownInLoop (w : World ι) : World ι :=
  if w.conn.channel_.isWriting then w else emit w .shutdownWrite

/-- The direct `::write` of `sendInLoop`, with `nwrote`, `remaining` and `faultError` after it. -/
def writeDirectly (w : World ι) (data : List UInt8) (len : ℤ) (write : Write) :
    Except Fault (World ι × ℕ × ℕ × Bool) := do
  let wrote ← sysWrite data 0 (castSize len) write
  let w := emit w (.write (castSize len) wrote)
  match wrote with
  | .handed bytes =>
    let remaining := castSize (len - bytes.length)
    let w := if remaining = 0 ∧ w.conn.writeCompleteCallback_ then
        queueInLoop w .writeCompleteCallback
      else w
    return (w, bytes.length, remaining, false)
  | .failed errno =>
    return (w, 0, castSize len,
      errno != EWOULDBLOCK && (errno == EPIPE || errno == ECONNRESET))

/-- Queue `highWaterMarkCallback_` when `remaining` more bytes take the output buffer over the
mark. -/
def checkHighWaterMark (w : World ι) (remaining : ℕ) : World ι :=
  let oldLen := w.conn.outputBuffer_.readableBytes
  if w.conn.highWaterMark_ ≤ sizeWrap (oldLen + remaining) ∧ oldLen < w.conn.highWaterMark_ ∧
      w.conn.highWaterMarkCallback_ then
    queueInLoop w (.highWaterMarkCallback (sizeWrap (oldLen + remaining)))
  else w

/-- The end of `sendInLoop`, which saves the remaining bytes in the output buffer. -/
def saveRemaining (w : World ι) (data : List UInt8) (nwrote remaining : ℕ) :
    Except Fault (World ι) := do
  let w := checkHighWaterMark w remaining
  let out ← w.conn.outputBuffer_.append (data.drop nwrote) remaining
  let w := setOutput w out
  if w.conn.channel_.isWriting then return w else callChannel w .enableWriting

/-- `sendInLoop(data, len)`; `data` is the memory its first argument points to. -/
def sendInLoop (w : World ι) (data : List UInt8) (len : ℤ) (write : Write) :
    Except Fault (World ι) :=
  if w.conn.state_ = .kDisconnected then .ok w
  else do
    let direct := if !w.conn.channel_.isWriting ∧ w.conn.outputBuffer_.readableBytes = 0 then
        writeDirectly w data len write
      else .ok (w, 0, castSize len, false)
    let (w, nwrote, remaining, faultError) ← direct
    if !faultError ∧ 0 < remaining then saveRemaining w data nwrote remaining else return w

/-- `send` on the loop thread. -/
def send (w : World ι) (buf : List UInt8) (write : Write) : Except Fault (World ι) :=
  if w.conn.state_ = .kConnected then sendInLoop w buf (castInt buf.length) write
  else .error .assertion

/-- `shutdown`, as one step; `inLoop` is `isInLoopthread()`. -/
def shutdown (w : World ι) (inLoop : Bool) : World ι :=
  if w.conn.state_ = .kConnected then
    let w := setState w .kDisconnecting
    if inLoop then shutdownInLoop w else queueInLoop w .shutdownInLoop
  else w

/-- `conneectEstableished`: the channel is tied and reads, and the user is told. -/
def conneectEstableished (w : World ι) : Except Fault (World ι) := do
  let w := setState w .kConnected
  let w ← callChannel { w with conn.channel_ := w.conn.channel_.tie } .enableReading
  return emit w (.connectionCallback w.conn.state_)

/-- What `conneectDestroyed` and `handleClose` both begin with. -/
def disconnect (w : World ι) : Except Fault (World ι) := do
  let w ← callChannel (setState w .kDisconnected) .disableAll
  return emit w (.connectionCallback w.conn.state_)

/-- `conneectDestroyed`: a connection that is `kConnected` is disconnected first. -/
def conneectDestroyed (w : World ι) : Except Fault (World ι) := do
  let disconnected := if w.conn.state_ = .kConnected then disconnect w else .ok w
  callChannel (← disconnected) .remove

/-- The part of `handleWrite` that runs when the output buffer has been emptied. -/
def drained (w : World ι) : Except Fault (World ι) := do
  let w ← callChannel w .disableWriting
  let w := if w.conn.writeCompleteCallback_ then queueInLoop w .writeCompleteCallback else w
  return if w.conn.state_ = .kDisconnecting then shutdownInLoop w else w

/-- The part of `handleWrite` that runs when `n > 0` bytes have been written. -/
def advance (w : World ι) (n : ℕ) : Except Fault (World ι) :=
  let w := setOutput w (w.conn.outputBuffer_.retrieve n)
  if w.conn.outputBuffer_.readableBytes = 0 then drained w else .ok w

/-- `handleWrite`: one write of the output buffer, when the channel counts as writing. -/
def handleWrite (w : World ι) (write : Write) : Except Fault (World ι) :=
  if w.conn.channel_.isWriting then do
    let wrote ← w.conn.outputBuffer_.writeFd write
    let w := emit w (.write w.conn.outputBuffer_.readableBytes wrote)
    match wrote with
    | .handed bytes => if 0 < bytes.length then advance w bytes.length else return w
    | .failed _ => return w
  else .ok w

/-- `handleClose`, behind its assertion. -/
def handleClose (w : World ι) : Except Fault (World ι) :=
  if w.conn.state_ = .kConnected ∨ w.conn.state_ = .kDisconnecting then do
    return emit (← disconnect w) .closeCallback
  else .error .assertion

/-- `handleError` asks for the pending error of the socket, and logs it. -/
def handleError (w : World ι) : World ι := w

/-- `handleRead`; `onMessage` is what the user's `messageCallback_` does to the input buffer. -/
def handleRead (w : World ι) (recv : Recv) (extraBuffer : List UInt8) (onMessage : Buffer → Buffer) :
    Except Fault (World ι) := do
  let (n, input) ← w.conn.inputBuffer_.readFd recv extraBuffer
  if 0 < n then return emit { w with conn.inputBuffer_ := onMessage input } .messageCallback
  else
    let w := { w with conn.inputBuffer_ := input }
    if n = 0 then handleClose w else return handleError w

/-- The destructor. -/
def destruct (w : World ι) : Except Fault Unit :=
  if w.conn.state_ = .kDisconnected then .ok () else .error .assertion

end TcpConnection

end Muduo
