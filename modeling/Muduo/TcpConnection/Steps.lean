import Muduo.TcpConnection.Refinement

/-!
# The steps of an established connection

An `Op` is a step that the loop of an established connection takes on it. `Op.exec_ok` says what
each does to the link of the connection (`Op.link`), and `World.Established.spec` what the link is
that a run starts from.
-/

namespace Muduo

open Run

variable {ι : Type}

/-- The bytes of a send, as many as an `int` can count. -/
structure Message where
  bytes : List UInt8
  length_le : bytes.length ≤ INT_MAX

namespace TcpConnection

/-- A step on an established connection, taken on its loop thread. -/
inductive Op
  | sendInLoop (m : Message) (write : Write)
  | handleRead (recv : Recv) (extraBuffer : List UInt8) (onMessage : Buffer → Buffer)
  | handleWrite (write : Write)
  | handleClose
  | handleError
  | shutdown (inLoop : Bool)
  | shutdownInLoop

/-- The function of the source that the operation stands for. -/
def Op.exec (w : World ι) : Op → Except Fault (World ι)
  | .sendInLoop m write => TcpConnection.sendInLoop w m.bytes m.bytes.length write
  | .handleRead recv extraBuffer onMessage => TcpConnection.handleRead w recv extraBuffer onMessage
  | .handleWrite write => TcpConnection.handleWrite w write
  | .handleClose => TcpConnection.handleClose w
  | .handleError => .ok (TcpConnection.handleError w)
  | .shutdown inLoop => .ok (TcpConnection.shutdown w inLoop)
  | .shutdownInLoop => .ok (TcpConnection.shutdownInLoop w)

/-- The step on the link. -/
def Op.link (w : World ι) : Op → Link ι
  | .sendInLoop m write => w.link.send m.bytes write
  | .handleRead recv extraBuffer _ =>
    match w.conn.inputBuffer_.readFd recv extraBuffer with
    | .ok (n, _) => w.link.handleRead n
    | .error _ => w.link
  | .handleWrite write => w.link.handleWrite write
  | .handleClose => w.link.handleClose
  | .handleError => w.link
  | .shutdown inLoop => w.link.shutdown inLoop
  | .shutdownInLoop => w.link.shutdownInLoop

theorem Op.exec_ok {w w' : World ι} (hw : w.Sound) {op : Op} (h : op.exec w = .ok w') :
    w.Refines w' (op.link w) := by
  cases op with
  | sendInLoop m write => exact sendInLoop_ok hw m.length_le h
  | handleRead recv extraBuffer onMessage =>
    obtain ⟨n, input, hread, -, hrefines⟩ := handleRead_ok hw h
    simpa only [Op.link, hread] using hrefines
  | handleWrite write => exact handleWrite_ok hw h
  | handleClose => exact (handleClose_ok hw h).2
  | handleError =>
    obtain rfl := Except.ok.inj h
    exact .of_eq hw rfl rfl rfl rfl
  | shutdown inLoop =>
    obtain rfl := Except.ok.inj h
    exact shutdown_spec hw inLoop
  | shutdownInLoop =>
    obtain rfl := Except.ok.inj h
    exact shutdownInLoop_spec hw

/-- What a step makes of the link `l`, for the state and the callbacks. -/
inductive Op.Moves (l l' : Link ι) : Prop
  /-- Neither `connectionCallback_` nor `closeCallback_` is called. -/
  | inside (hextends : l.Extends l')
      (hstate : l'.state_ = l.state_ ∨ l.state_ = .kConnected ∧ l'.state_ = .kDisconnecting)
  | closes (hlive : l.state_ = .kConnected ∨ l.state_ = .kDisconnecting)
      (heq : l' = l.handleClose)

theorem Op.exec_moves {w w' : World ι} (hw : w.Sound) {op : Op} (h : op.exec w = .ok w') :
    Op.Moves w.link w'.link := by
  rw [(Op.exec_ok hw h).link_eq]
  cases op with
  | sendInLoop m write => exact .inside (w.link.extends_send _ _) (.inl (by simp [Op.link]))
  | handleRead recv extraBuffer onMessage =>
    obtain ⟨n, input, hread, hclose, -⟩ := handleRead_ok hw h
    simp only [Op.link, hread, Link.handleRead]
    split
    · exact .inside (w.link.extends_emit (by simp) (by simp)) (.inl rfl)
    · split
      next hzero => exact .closes (hclose hzero) rfl
      next => exact .inside (.of_eq rfl) (.inl rfl)
  | handleWrite write => exact .inside (w.link.extends_handleWrite _) (.inl (by simp [Op.link]))
  | handleClose => exact .closes (handleClose_ok hw h).1 rfl
  | handleError => exact .inside (.of_eq rfl) (.inl rfl)
  | shutdown inLoop =>
    refine .inside (w.link.extends_shutdown inLoop) ?_
    simp only [Op.link, Link.shutdown]
    split
    next hstate => cases inLoop <;> exact .inr ⟨hstate, by simp⟩
    next => exact .inl rfl
  | shutdownInLoop => exact .inside (w.link.extends_shutdownInLoop) (.inl (by simp [Op.link]))

end TcpConnection

/-! ## Established connections -/

/-- A connection as `TcpServer::newConnection` makes it, for a descriptor that its poller does not
hold. Whether the optional callbacks are set, and at which mark, is left open. -/
structure World.Fresh (w : World ι) : Prop where
  conn_eq : ∃ fd complete high mark, w.conn = ((TcpConnection.construct fd).setWriteCompleteCallback
    complete).setHighWaterMarkCallback high mark
  entry_eq : w.loop.poller.entry w.conn.channel_.fd_ = ⟨none, none⟩
  trace_eq : w.trace = []

/-- A connection whose `conneectEstableished` has run. -/
def World.Established (w : World ι) : Prop :=
  ∃ w₀ : World ι, w₀.Fresh ∧ TcpConnection.conneectEstableished w₀ = .ok w

theorem World.Fresh.sound {w : World ι} (hw : w.Fresh) : w.Sound := by
  obtain ⟨fd, complete, high, mark, hconn⟩ := hw.conn_eq
  refine ⟨?_, ?_⟩
  · rw [hconn]
    exact Buffer.construct_valid Buffer.kInitialSize
  · rw [Agrees, hw.entry_eq, hconn]
    rfl

/-- A new connection can be established. -/
theorem World.Fresh.established {w₀ : World ι} (hw₀ : w₀.Fresh) :
    ∃ w, TcpConnection.conneectEstableished w₀ = .ok w ∧ w.Established := by
  obtain ⟨w, hw, -⟩ := TcpConnection.conneectEstableished_spec hw₀.sound
  exact ⟨w, hw, w₀, hw₀, hw⟩

/-- The link of an established connection. -/
structure Link.Initial (l : Link ι) : Prop where
  state_eq : l.state_ = .kConnected
  events_eq : l.channel_.events_ = Channel.kReadEvent
  index_eq : l.channel_.index_ = .kAdd
  pending_eq : l.pending = []
  trace_eq : l.trace = [.connectionCallback .kConnected]

theorem World.Established.spec {w : World ι} (hw : w.Established) : w.Sound ∧ w.link.Initial := by
  obtain ⟨w₀, hw₀, h⟩ := hw
  obtain ⟨w', hw', hrefines⟩ := TcpConnection.conneectEstableished_spec hw₀.sound
  obtain rfl := Except.ok.inj (hw'.symm.trans h)
  obtain ⟨fd, complete, high, mark, hconn⟩ := hw₀.conn_eq
  refine ⟨hrefines.sound, ?_⟩
  rw [hrefines.link_eq]
  refine ⟨rfl, ?_, ?_, ?_, ?_⟩
  · simp [Link.conneectEstableished, World.link, hconn, TcpConnection.construct, Channel.construct,
      TcpConnection.setHighWaterMarkCallback, TcpConnection.setWriteCompleteCallback, Channel.tie,
      Channel.Call.after, Channel.watched]
  · simp [Link.conneectEstableished, World.link, hconn, TcpConnection.construct, Channel.construct,
      TcpConnection.setHighWaterMarkCallback, TcpConnection.setWriteCompleteCallback, Channel.tie,
      Channel.Call.after, Channel.watched, Index.updated]
  · simp [Link.conneectEstableished, World.link, hconn, TcpConnection.construct,
      TcpConnection.setHighWaterMarkCallback, TcpConnection.setWriteCompleteCallback]
  · simp [Link.conneectEstableished, World.link, hw₀.trace_eq]

namespace TcpConnection

/-- The byte `65`. -/
def letter : Message := ⟨[65], by decide⟩

/-- The kernel takes everything. -/
def takesAll : Write := fun n => .wrote n (Nat.le_refl n)

/-- A new connection for the descriptor `5`, with or without a `writeCompleteCallback_`. -/
def newWorld (complete : Bool) : World Unit :=
  ⟨(), (construct 5).setWriteCompleteCallback complete, ⟨.construct, []⟩, []⟩

theorem newWorld_fresh (complete : Bool) : (newWorld complete).Fresh :=
  ⟨⟨5, complete, false, 64 * 1024 * 1024, rfl⟩, rfl, rfl⟩

end TcpConnection

end Muduo
