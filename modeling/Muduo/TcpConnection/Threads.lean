import Muduo.TcpConnection.Stream

/-!
# A connection and its threads

`send` and `shutdown` may be called from any thread. On the loop thread they run to their end; on
another thread each is a test of the state, for `shutdown` a store to it, and then a functor for the
loop. `Threads` is a connection with the loop that serves it and the other threads, the functors of
the current round of `doPendingFunctors`, and the memory that holds the strings: a queued
`sendInLoop` refers to its string by address. A step of the loop thread reads the state at most
once before it stores to it, so that it is one step here; only `conneectDestroyed` can be overtaken
between its test and its store, and takes two.

`Base` is what holds in every run, and what the runs of the two following modules start from.
-/

namespace Muduo

open Run

variable {ι τ : Type}

/-- A `std::string` of the program. -/
abbrev Text := { l : List UInt8 // l.length ≤ maxSize }

/-- Where a thread other than the loop thread is. -/
inductive Pc
  | idle
  /-- In `send(buf)`, about to queue `sendInLoop`; `buf` is the string at `data`. -/
  | sending (data : Address) (buf : Text)
  /-- In `shutdown`, after its test. -/
  | tested
  /-- In `shutdown`, after its store. -/
  | stored
  deriving DecidableEq

/-- What a run leaves in its log. -/
inductive Mark
  /-- A `send` has returned. -/
  | returned (buf : List UInt8)
  /-- `shutdown` is called, and finds the connection connected or not. -/
  | shutdownCalled (connected : Bool)
  /-- A `shutdownInLoop` that a `shutdown` has asked for has run. -/
  | shutdownRan
  | effect (e : Effect)
  deriving DecidableEq

/-- A connection with its loop thread and the other threads. -/
structure Threads (ι τ : Type) where
  world : World ι
  /-- The functors of the current round of `doPendingFunctors` that have not run. -/
  functors : List (Functor ι)
  /-- The loop thread is between the test and the store of `conneectDestroyed`. -/
  destroying : Bool
  memory : Address → Text
  thread : τ → Pc
  log : List Mark

/-- A callback of the channel, as `handleEventWithGuard` runs it. -/
inductive Event
  | close
  | error
  | read (recv : Recv) (extraBuffer : List UInt8) (onMessage : Buffer → Buffer)
  | write (answer : Write)

/-- The handler of the connection that the event runs. -/
def Event.op : Event → TcpConnection.Op
  | close => .handleClose
  | error => .handleError
  | read recv extraBuffer onMessage => .handleRead recv extraBuffer onMessage
  | write answer => .handleWrite answer

namespace Threads

/-! ## Steps -/

/-- The connection has become `w`; its new effects are logged. -/
def moved (s : Threads ι τ) (w : World ι) : Threads ι τ :=
  { s with
    world := w
    log := s.log ++ (w.trace.drop s.world.trace.length).map .effect }

/-- Run a function of the connection. -/
def exec (s : Threads ι τ) (f : World ι → Except Fault (World ι)) : Except Fault (Threads ι τ) := do
  return s.moved (← f s.world)

/-- Something is marked in the log. -/
def note (s : Threads ι τ) (m : Mark) : Threads ι τ := { s with log := s.log ++ [m] }

/-- `queueInLoop` of a functor of the connection. -/
def queueInLoop (s : Threads ι τ) (task : Task) : Except Fault (Threads ι τ) :=
  s.exec fun w => .ok (TcpConnection.queueInLoop w task)

/-- `shutdownInLoop`, which is marked in the log. -/
def shutdownInLoop (s : Threads ι τ) : Except Fault (Threads ι τ) := do
  return (← s.exec fun w => .ok (TcpConnection.shutdownInLoop w)).note .shutdownRan

/-- `conneectDestroyed` up to its store, or all of it when there is none. -/
def conneectDestroyed (s : Threads ι τ) : Except Fault (Threads ι τ) :=
  if s.world.conn.state_ = .kConnected then .ok { s with destroying := true }
  else s.exec fun w => TcpConnection.callChannel w .remove

/-- `conneectDestroyed` from its store on. -/
def finishDestroyed (s : Threads ι τ) : Except Fault (Threads ι τ) :=
  { s with destroying := false }.exec fun w => do
    TcpConnection.callChannel (← TcpConnection.disconnect w) .remove

/-- Run a functor. A user callback does nothing to the connection itself; the calls it makes are
further steps. -/
def call (s : Threads ι τ) (write : Write) : Task → Except Fault (Threads ι τ)
  | .sendInLoop data len =>
    s.exec fun w => TcpConnection.sendInLoop w (s.memory data).1 len write
  | .shutdownInLoop => s.shutdownInLoop
  | .writeCompleteCallback | .highWaterMarkCallback _ => .ok s
  | .conneectEstableished => s.exec TcpConnection.conneectEstableished
  | .conneectDestroyed => s.conneectDestroyed
  | .removeConnectionInLoop => s.queueInLoop .conneectDestroyed

/-- `send` on the loop thread. -/
def send (s : Threads ι τ) (data : Address) (write : Write) : Except Fault (Threads ι τ) := do
  return (← s.exec fun w => TcpConnection.send w (s.memory data).1 write).note
    (.returned (s.memory data).1)

/-- `shutdown` on the loop thread. -/
def shutdown (s : Threads ι τ) : Except Fault (Threads ι τ) := do
  let connected := s.world.conn.state_ = .kConnected
  let s ← (s.note (.shutdownCalled connected)).exec fun w => .ok (TcpConnection.shutdown w true)
  return if connected then s.note .shutdownRan else s

/-- A connection with threads that have not called yet. -/
def start (w : World ι) (memory : Address → Text) : Threads ι τ where
  world := w
  functors := []
  destroying := false
  memory := memory
  thread _ := .idle
  log := w.trace.map .effect

/-- A step. -/
inductive Action (τ : Type)
  /-- The loop thread handles an event. -/
  | event (e : Event)
  /-- The loop thread calls `send` with the string at `data`. -/
  | send (data : Address) (write : Write)
  /-- The loop thread calls `shutdown`. -/
  | shutdown
  /-- The loop thread takes the queue for a round of `doPendingFunctors`. -/
  | swap
  /-- The loop thread runs the next functor of the round. -/
  | next (write : Write)
  /-- The server runs `conneectDestroyed` on the loop thread. -/
  | conneectDestroyed
  | finishDestroyed
  /-- The server queues `conneectDestroyed`. -/
  | queueDestroyed
  /-- The thread `t` calls `send` with the string at `data`. -/
  | callSend (t : τ) (data : Address)
  | queueSend (t : τ)
  | callShutdown (t : τ)
  | storeShutdown (t : τ)
  | queueShutdown (t : τ)
  /-- Some thread changes the string at `data`, or shortens or destroys it: `text` is what can be
  read there afterwards. -/
  | overwrite (data : Address) (text : Text)

/-- The steps that the loop thread takes between others. Events are handled between two rounds of
functors. -/
def Enabled (s : Threads ι τ) : Action τ → Prop
  | .event _ | .swap => s.destroying = false ∧ s.functors = []
  | .send _ _ | .shutdown | .next _ | .conneectDestroyed => s.destroying = false
  | .finishDestroyed => s.destroying = true
  | _ => True

instance (s : Threads ι τ) (a : Action τ) : Decidable (s.Enabled a) :=
  match a with
  | .event _ | .swap => inferInstanceAs (Decidable (_ = _ ∧ _ = _))
  | .send _ _ | .shutdown | .next _ | .conneectDestroyed | .finishDestroyed =>
    inferInstanceAs (Decidable (_ = _))
  | .queueDestroyed | .callSend _ _ | .queueSend _ | .callShutdown _ | .storeShutdown _ |
    .queueShutdown _ | .overwrite _ _ => .isTrue trivial

variable [DecidableEq τ]

/-- The thread `t` goes to `pc`. -/
def enter (s : Threads ι τ) (t : τ) (pc : Pc) : Threads ι τ :=
  { s with thread := Function.update s.thread t pc }

/-- The first part of `send` on the thread `t`. -/
def callSend (s : Threads ι τ) (t : τ) (data : Address) : Except Fault (Threads ι τ) :=
  if s.world.conn.state_ = .kConnected then .ok (s.enter t (.sending data (s.memory data)))
  else .error .assertion

/-- The second part of `send` on the thread `t`: the functor is queued, with the address of the
bytes. -/
def queueSend (s : Threads ι τ) (t : τ) (data : Address) (buf : Text) :
    Except Fault (Threads ι τ) := do
  return ((← s.queueInLoop (.sendInLoop data (castInt buf.1.length))).enter t .idle).note
    (.returned buf.1)

/-- The first part of `shutdown` on the thread `t`. -/
def callShutdown (s : Threads ι τ) (t : τ) : Threads ι τ :=
  if s.world.conn.state_ = .kConnected then (s.note (.shutdownCalled true)).enter t .tested
  else s.note (.shutdownCalled false)

/-- The second part of `shutdown` on the thread `t`: the store, whatever the state is by now. -/
def storeShutdown (s : Threads ι τ) (t : τ) : Threads ι τ :=
  { s with world := TcpConnection.setState s.world .kDisconnecting }.enter t .stored

/-- The last part of `shutdown` on the thread `t`. -/
def queueShutdown (s : Threads ι τ) (t : τ) : Except Fault (Threads ι τ) := do
  return (← s.queueInLoop .shutdownInLoop).enter t .idle

/-- A step that can be taken. -/
def perform (s : Threads ι τ) : Action τ → Except Fault (Threads ι τ)
  | .event e => s.exec fun w => e.op.exec w
  | .send data write => s.send data write
  | .shutdown => s.shutdown
  | .swap => .ok { s with
      functors := s.world.loop.pendingFunctors_
      world.loop.pendingFunctors_ := [] }
  | .next write =>
    match s.functors with
    | [] => .ok s
    | f :: fs => { s with functors := fs }.call write f.task
  | .conneectDestroyed => s.conneectDestroyed
  | .finishDestroyed => s.finishDestroyed
  | .queueDestroyed => s.queueInLoop .conneectDestroyed
  | .callSend t data => if s.thread t = .idle then s.callSend t data else .ok s
  | .queueSend t =>
    match s.thread t with
    | .sending data buf => s.queueSend t data buf
    | _ => .ok s
  | .callShutdown t => .ok (if s.thread t = .idle then s.callShutdown t else s)
  | .storeShutdown t => .ok (if s.thread t = .tested then s.storeShutdown t else s)
  | .queueShutdown t => if s.thread t = .stored then s.queueShutdown t else .ok s
  | .overwrite data text => .ok { s with memory := Function.update s.memory data text }

/-- A step; one that cannot be taken changes nothing. -/
def step (s : Threads ι τ) (a : Action τ) : Except Fault (Threads ι τ) :=
  if s.Enabled a then s.perform a else .ok s

end Threads

/-! ## What the steps of the connection do to a half-close -/

namespace Link

/-- The calls of `shutdownWrite` so far. -/
def halfCloses (l : Link ι) : ℕ := l.trace.count .shutdownWrite

/-- From `l` to `l'` the connection keeps its state, and is not half-closed. -/
structure Calm (l l' : Link ι) : Prop where
  state_eq : l'.state_ = l.state_
  halfCloses_eq : l'.halfCloses = l.halfCloses
  grows : l.Grows l'

variable {l l' : Link ι}

theorem halfCloses_of_append {news : List Effect} (h : l'.trace = l.trace ++ news)
    (hnews : .shutdownWrite ∉ news) : l'.halfCloses = l.halfCloses := by
  rw [halfCloses, h, List.count_append, List.count_eq_zero.2 hnews, Nat.add_zero, halfCloses]

theorem complete_halfCloses (l : Link ι) : l.complete.halfCloses = l.halfCloses := by
  refine halfCloses_of_append l.complete_trace ?_
  split <;> simp

theorem saveRemaining_halfCloses (l : Link ι) (rest : List UInt8) :
    (l.saveRemaining rest).halfCloses = l.halfCloses := by
  obtain ⟨news, htrace, hnews⟩ := l.saveRemaining_trace rest
  refine halfCloses_of_append htrace fun hmem => ?_
  obtain ⟨size, hsize⟩ := hnews _ hmem
  cases hsize

theorem emit_halfCloses (l : Link ι) {e : Effect} (he : e ≠ .shutdownWrite) :
    (l.emit e).halfCloses = l.halfCloses :=
  halfCloses_of_append rfl (by simpa using he.symm)

theorem shutdownInLoop_halfCloses (l : Link ι) : l.shutdownInLoop.halfCloses =
    l.halfCloses + if l.channel_.isWriting then 0 else 1 := by
  rw [halfCloses, shutdownInLoop_trace, List.count_append]
  split <;> simp [halfCloses]

theorem send_calm (l : Link ι) (m : List UInt8) (write : Write) : l.Calm (l.send m write) := by
  refine ⟨l.send_state m write, ?_, l.grows_send m write⟩
  have hsends := l.send_sends m write
  generalize l.send m write = l' at hsends ⊢
  cases hsends with
  | disconnected | skipped => rfl
  | dropped | rejected => exact l.emit_halfCloses (by simp)
  | finished => exact (complete_halfCloses _).trans (l.emit_halfCloses (by simp))
  | saved => exact (saveRemaining_halfCloses _ _).trans (l.emit_halfCloses (by simp))
  | buffered => exact l.saveRemaining_halfCloses m

/-- What an event can do to a half-close. -/
inductive Handles (l l' : Link ι) : Prop
  /-- Nothing. If nothing waits any more, it was written, and the state is not `kDisconnecting`. -/
  | calm (hcalm : l.Calm l')
      (hwriting : l'.channel_.isWriting = true → l.channel_.isWriting = true)
      (hpending : l'.pending = [] → l.pending = [] ∨
        l.channel_.isWriting = true ∧ l.state_ ≠ .kDisconnecting)
  /-- The last byte is written, and the connection half-closed. -/
  | halfClose (hstate : l.state_ = .kDisconnecting) (hwriting : l.channel_.isWriting = true)
      (hstate' : l'.state_ = .kDisconnecting) (hwriting' : l'.channel_.isWriting = false)
      (hcount : l'.halfCloses = l.halfCloses + 1) (hgrows : l.Grows l')
  | close (heq : l' = l.handleClose)

theorem isWriting_after_disableWriting (c : Channel) :
    (Channel.Call.disableWriting.after c).isWriting = false := by
  simp [Channel.Call.after, Channel.watched, Channel.isWriting, Mask.meets, BitVec.and_assoc]

theorem handleWrite_handles (l : Link ι) (write : Write) : l.Handles (l.handleWrite write) := by
  have hgrows := l.grows_handleWrite write
  have hstate := l.handleWrite_state write
  have hwrites := l.handleWrite_writes write
  generalize l.handleWrite write = l' at hgrows hstate hwrites ⊢
  cases hwrites with
  | idle => exact .calm ⟨rfl, rfl, hgrows⟩ id .inl
  | none => exact .calm ⟨rfl, l.emit_halfCloses (by simp), hgrows⟩ id .inl
  | @some _ n _ hlt _ =>
    refine .calm ⟨rfl, l.emit_halfCloses (by simp), hgrows⟩ id fun hnil => ?_
    simp only [setPending_pending, List.drop_eq_nil_iff] at hnil
    omega
  | all hwriting =>
    have hoff := isWriting_after_disableWriting l.channel_
    have hcount : ((((l.emit (.write l.pending.length (.handed l.pending))).setPending []).call
        .disableWriting).complete).halfCloses = l.halfCloses :=
      (complete_halfCloses _).trans (l.emit_halfCloses (by simp))
    by_cases hdisconnecting : l.state_ = .kDisconnecting
    · refine .halfClose hdisconnecting hwriting (hstate.trans hdisconnecting) (by simpa using hoff)
        ?_ hgrows
      simp only [drained, complete_fields, call_state_, setPending_state_, emit_state_,
        hdisconnecting, if_true, shutdownInLoop_halfCloses, hcount, call_channel_,
        setPending_channel_, emit_channel_, hoff]
      simp
    · refine .calm ⟨hstate, ?_, hgrows⟩ (by simp [hoff]) fun _ => .inr ⟨hwriting, hdisconnecting⟩
      simp only [drained, complete_fields, call_state_, setPending_state_, emit_state_,
        hdisconnecting, if_false, hcount]

theorem handleClose_trace (l : Link ι) : l.handleClose.trace =
    l.trace ++ [.connectionCallback .kDisconnected, .closeCallback] := by
  simp [handleClose, disconnect]

theorem handleClose_halfCloses (l : Link ι) : l.handleClose.halfCloses = l.halfCloses :=
  halfCloses_of_append l.handleClose_trace (by simp)

theorem handleRead_halfCloses (l : Link ι) (n : ℤ) : (l.handleRead n).halfCloses = l.halfCloses := by
  unfold handleRead
  split
  · exact l.emit_halfCloses (by simp)
  · split
    · exact l.handleClose_halfCloses
    · rfl

end Link

theorem Event.handles (e : Event) (w : World ι) : w.link.Handles (e.op.link w) := by
  have hsame : w.link.Handles w.link := .calm ⟨rfl, rfl, .of_eq List.prefix_rfl rfl⟩ id .inl
  cases e with
  | close => exact .close rfl
  | error => exact hsame
  | read recv extraBuffer onMessage =>
    simp only [Event.op, TcpConnection.Op.link]
    split
    · unfold Link.handleRead
      split
      · exact .calm ⟨rfl, w.link.emit_halfCloses (by simp), w.link.grows_emit _⟩ id .inl
      · split
        · exact .close rfl
        · exact hsame
    · exact hsame
  | write answer => exact w.link.handleWrite_handles answer

theorem Event.grows (e : Event) (w : World ι) : w.link.Grows (e.op.link w) := by
  cases e.handles w with
  | calm hcalm => exact hcalm.grows
  | halfClose _ _ _ _ _ hgrows => exact hgrows
  | close heq => exact heq ▸ w.link.grows_handleClose

theorem Event.link_self (e : Event) (w : World ι) : (e.op.link w).self = w.self := by
  cases e with
  | close | error => rfl
  | read recv extraBuffer onMessage =>
    simp only [op, TcpConnection.Op.link]
    split
    · exact w.link.handleRead_self _
    · rfl
  | write answer => exact w.link.handleWrite_self answer

/-- What `sendInLoop` can do when its `len` is an `int`: nothing, a write that fails, or the send of
as many bytes as `len` says. -/
theorem TcpConnection.sendInLoop_cases {w w' : World ι} (hw : w.Sound) {data : Text} {len : ℤ}
    (hlen : -2 ^ 31 ≤ len ∧ len < 2 ^ 31) {write : Write}
    (h : TcpConnection.sendInLoop w data.1 len write = .ok w') :
    ∃ l, w.Refines w' l ∧ (l = w.link ∨ (∃ n errno, l = w.link.emit (.write n (.failed errno))) ∨
      l = w.link.send (data.1.take len.toNat) write) := by
  have hmax : data.1.length ≤ maxSize := data.2
  by_cases hin : 0 ≤ len ∧ len.toNat ≤ data.1.length
  · obtain ⟨n, rfl⟩ := Int.eq_ofNat_of_zero_le hin.1
    exact ⟨_, sendInLoop_take hw hmax hin.2 h, .inr (.inr rfl)⟩
  · have hout : data.1.length < castSize len := by
      unfold castSize
      unfold maxSize at hmax
      omega
    rcases sendInLoop_out hw hmax hout h with rfl | ⟨errno, hrefines⟩
    · exact ⟨_, .of_eq hw rfl rfl rfl rfl, .inl rfl⟩
    · exact ⟨_, hrefines, .inr (.inl ⟨_, errno, rfl⟩)⟩

/-- `send` on the loop thread returns on a connected connection only. -/
theorem TcpConnection.send_ok {w w' : World ι} {buf : List UInt8} {write : Write}
    (h : TcpConnection.send w buf write = .ok w') : w.conn.state_ = .kConnected ∧
      TcpConnection.sendInLoop w buf (castInt buf.length) write = .ok w' := by
  unfold TcpConnection.send at h
  split at h
  next hstate => exact ⟨hstate, h⟩
  next => cases h

/-! ## What a step does -/

namespace Threads

variable {s t : Threads ι τ}

theorem exec_ok {f : World ι → Except Fault (World ι)} (h : s.exec f = .ok t) :
    ∃ w, f s.world = .ok w ∧ t = s.moved w := by
  obtain ⟨w, hw, ht⟩ := bind_eq_ok.1 h
  exact ⟨w, hw, (Except.ok.inj ht).symm⟩

theorem queueInLoop_ok {task : Task} (h : s.queueInLoop task = .ok t) :
    t = s.moved (TcpConnection.queueInLoop s.world task) := by
  obtain ⟨w, hw, rfl⟩ := exec_ok h
  exact congrArg s.moved (Except.ok.inj hw).symm

theorem shutdownInLoop_ok (h : s.shutdownInLoop = .ok t) :
    t = (s.moved (TcpConnection.shutdownInLoop s.world)).note .shutdownRan := by
  obtain ⟨u, hu, h⟩ := bind_eq_ok.1 h
  obtain ⟨w, hw, rfl⟩ := exec_ok hu
  obtain rfl := Except.ok.inj hw
  exact (Except.ok.inj h).symm

/-- A `shutdown` on the loop thread half-closes the connection or changes nothing. -/
theorem shutdown_ok (h : s.shutdown = .ok t) :
    (s.world.conn.state_ = .kConnected ∧ t = ((s.note (.shutdownCalled true)).moved
      (TcpConnection.shutdown s.world true)).note .shutdownRan) ∨
    (s.world.conn.state_ ≠ .kConnected ∧ t = s.note (.shutdownCalled false)) := by
  obtain ⟨u, hu, h⟩ := bind_eq_ok.1 h
  obtain ⟨w, hw, rfl⟩ := exec_ok hu
  obtain rfl := Except.ok.inj hw
  obtain rfl := Except.ok.inj h
  by_cases hconnected : s.world.conn.state_ = .kConnected
  · exact .inl ⟨hconnected, by simp [hconnected, Threads.note, Threads.moved]⟩
  · refine .inr ⟨hconnected, ?_⟩
    simp [hconnected, Threads.note, Threads.moved, TcpConnection.shutdown]

/-- `conneectDestroyed` stops before its store, or removes the channel. -/
theorem conneectDestroyed_ok (h : s.conneectDestroyed = .ok t) :
    (s.world.conn.state_ = .kConnected ∧ t = { s with destroying := true }) ∨
    ∃ w, TcpConnection.callChannel s.world .remove = .ok w ∧ t = s.moved w := by
  unfold conneectDestroyed at h
  split at h
  next hconnected => exact .inl ⟨hconnected, (Except.ok.inj h).symm⟩
  next => exact .inr (exec_ok h)

/-- The end of `conneectDestroyed` disconnects the connection and removes its channel. -/
theorem finishDestroyed_ok (hs : s.world.Sound) (h : s.finishDestroyed = .ok t) :
    ∃ w, t = { s with destroying := false }.moved w ∧
      s.world.Refines w (s.world.link.disconnect.call .remove) := by
  obtain ⟨w, hw, rfl⟩ := exec_ok h
  obtain ⟨u, hu, hw⟩ := bind_eq_ok.1 hw
  obtain ⟨v, hv, hdisconnect⟩ := TcpConnection.disconnect_spec hs
  obtain rfl := Except.ok.inj (hv.symm.trans hu)
  have hremove := TcpConnection.callChannel_ok hdisconnect.sound hw
  rw [hdisconnect.link_eq] at hremove
  exact ⟨w, rfl, hdisconnect.trans hremove⟩

variable [DecidableEq τ]

/-- What a step does. -/
inductive Steps (s : Threads ι τ) : Action τ → Threads ι τ → Prop
  | stay (a : Action τ) (hnext : ∀ write, a = .next write → s.Enabled a → s.functors = [])
      (hstore : ∀ i, a = .storeShutdown i → s.thread i ≠ .tested) : Steps s a s
  | event (e : Event) (w : World ι) (hw : e.op.exec s.world = .ok w) : Steps s (.event e) (s.moved w)
  | send (data : Address) (write : Write) (w : World ι) (hconnected : s.world.conn.state_ = .kConnected)
      (hw : TcpConnection.sendInLoop s.world (s.memory data).1 (castInt (s.memory data).1.length)
        write = .ok w) : Steps s (.send data write) ((s.moved w).note (.returned (s.memory data).1))
  | shutdown (t : Threads ι τ) (h : s.shutdown = .ok t) : Steps s .shutdown t
  | swap (hfunctors : s.functors = []) : Steps s .swap { s with
      functors := s.world.loop.pendingFunctors_
      world.loop.pendingFunctors_ := [] }
  | next (f : Functor ι) (fs : List (Functor ι)) (write : Write) (t : Threads ι τ)
      (henabled : s.Enabled (.next write)) (hfunctors : s.functors = f :: fs)
      (h : { s with functors := fs }.call write f.task = .ok t) : Steps s (.next write) t
  | conneectDestroyed (t : Threads ι τ) (h : s.conneectDestroyed = .ok t) :
      Steps s .conneectDestroyed t
  | finishDestroyed (t : Threads ι τ) (hdestroying : s.destroying = true)
      (h : s.finishDestroyed = .ok t) : Steps s .finishDestroyed t
  | queueDestroyed (t : Threads ι τ) (h : s.queueInLoop .conneectDestroyed = .ok t) :
      Steps s .queueDestroyed t
  | callSend (i : τ) (data : Address) (hidle : s.thread i = .idle)
      (hconnected : s.world.conn.state_ = .kConnected) :
      Steps s (.callSend i data) (s.enter i (.sending data (s.memory data)))
  | queueSend (i : τ) (data : Address) (buf : Text) (u : Threads ι τ)
      (hi : s.thread i = .sending data buf)
      (hu : s.queueInLoop (.sendInLoop data (castInt buf.1.length)) = .ok u) :
      Steps s (.queueSend i) ((u.enter i .idle).note (.returned buf.1))
  | callShutdown (i : τ) (hidle : s.thread i = .idle)
      (hconnected : s.world.conn.state_ = .kConnected) :
      Steps s (.callShutdown i) ((s.note (.shutdownCalled true)).enter i .tested)
  | callShutdownLate (i : τ) (hstate : s.world.conn.state_ ≠ .kConnected) :
      Steps s (.callShutdown i) (s.note (.shutdownCalled false))
  | storeShutdown (i : τ) (hi : s.thread i = .tested) :
      Steps s (.storeShutdown i) (s.storeShutdown i)
  | queueShutdown (i : τ) (u : Threads ι τ) (hi : s.thread i = .stored)
      (hu : s.queueInLoop .shutdownInLoop = .ok u) : Steps s (.queueShutdown i) (u.enter i .idle)
  | overwrite (data : Address) (text : Text) : Steps s (.overwrite data text)
      { s with memory := Function.update s.memory data text }

theorem step_ok {a : Action τ} (h : s.step a = .ok t) : s.Steps a t := by
  have hsame (hnext : ∀ write, a = .next write → s.Enabled a → s.functors = [])
      (hstore : ∀ i, a = .storeShutdown i → s.thread i ≠ .tested)
      (h : Except.ok s = (.ok t : Except Fault (Threads ι τ))) : s.Steps a t :=
    Except.ok.inj h ▸ .stay a hnext hstore
  unfold step at h
  split at h
  next henabled =>
    cases a with
    | event e =>
      have h : s.exec (fun w => e.op.exec w) = .ok t := h
      obtain ⟨w, hw, rfl⟩ := exec_ok h
      exact .event e w hw
    | send data write =>
      obtain ⟨u, hu, h⟩ := bind_eq_ok.1 h
      obtain ⟨w, hw, rfl⟩ := exec_ok hu
      obtain rfl := Except.ok.inj h
      obtain ⟨hconnected, hw⟩ := TcpConnection.send_ok hw
      exact .send data write w hconnected hw
    | shutdown => exact .shutdown t h
    | swap => exact Except.ok.inj h ▸ .swap henabled.2
    | next write =>
      simp only [perform] at h
      split at h
      next hnil => exact hsame (fun _ _ _ => hnil) (by simp) h
      next f fs hfunctors => exact .next f fs write t henabled hfunctors h
    | conneectDestroyed => exact .conneectDestroyed t h
    | finishDestroyed => exact .finishDestroyed t henabled h
    | queueDestroyed => exact .queueDestroyed t h
    | callSend i data =>
      simp only [perform, callSend] at h
      split at h
      next hidle =>
        split at h
        next hconnected => exact Except.ok.inj h ▸ .callSend i data hidle hconnected
        next => cases h
      next => exact hsame (by simp) (by simp) h
    | queueSend i =>
      simp only [perform] at h
      split at h
      next data buf hi =>
        obtain ⟨u, hu, h⟩ := bind_eq_ok.1 h
        exact Except.ok.inj h ▸ .queueSend i data buf u hi hu
      next => exact hsame (by simp) (by simp) h
    | callShutdown i =>
      obtain rfl := Except.ok.inj h
      split
      next hidle =>
        unfold callShutdown
        split
        next hconnected => exact .callShutdown i hidle hconnected
        next hstate => exact .callShutdownLate i hstate
      next => exact .stay _ (by simp) (by simp)
    | storeShutdown i =>
      obtain rfl := Except.ok.inj h
      split
      next hi => exact .storeShutdown i hi
      next hi => exact .stay _ (by simp) (by simpa using hi)
    | queueShutdown i =>
      simp only [perform] at h
      split at h
      next hi =>
        obtain ⟨u, hu, h⟩ := bind_eq_ok.1 h
        exact Except.ok.inj h ▸ .queueShutdown i u hi hu
      next => exact hsame (by simp) (by simp) h
    | overwrite data text => exact Except.ok.inj h ▸ .overwrite data text
  next hdisabled =>
    refine hsame (fun _ _ henabled => absurd henabled hdisabled) ?_ h
    rintro i rfl
    exact absurd trivial hdisabled

end Threads

/-! ## The invariant -/

/-- A task that a run can queue. -/
def Task.Queued : Task → Prop
  | .sendInLoop _ len => -2 ^ 31 ≤ len ∧ len < 2 ^ 31
  | .conneectEstableished => False
  | _ => True

theorem Task.IsCallback.queued {task : Task} (h : task.IsCallback) : task.Queued := by
  cases task <;> first | exact trivial | exact absurd h id

/-- The effects in a log. -/
def effects (log : List Mark) : List Effect :=
  log.filterMap fun
    | .effect e => some e
    | _ => none

@[simp] theorem effects_append (log news : List Mark) :
    effects (log ++ news) = effects log ++ effects news := List.filterMap_append

@[simp] theorem effects_map (es : List Effect) : effects (es.map .effect) = es := by
  rw [effects, List.filterMap_map]
  exact List.filterMap_some

namespace Threads

/-- The functors that have not run. -/
def queue (s : Threads ι τ) : List (Functor ι) := s.functors ++ s.world.loop.pendingFunctors_

/-- A `shutdown` has got past its store. -/
def Asked (s : Threads ι τ) : Prop :=
  .shutdownRan ∈ s.log ∨ s.world.link.halfCloses ≠ 0 ∨ (∃ f ∈ s.queue, f.task = .shutdownInLoop) ∨
    ∃ t, s.thread t = .stored

/-- The invariant of every run. -/
structure Base (s : Threads ι τ) : Prop where
  sound : s.world.Sound
  effects_eq : effects s.log = s.world.trace
  state_ne : s.world.conn.state_ ≠ .kConnecting
  tasks : ∀ f ∈ s.queue, f.task.Queued
  asked : s.Asked → s.world.conn.state_ ≠ .kConnected

variable {s t : Threads ι τ}

/-- The queue grows by calls back to the user. -/
theorem queue_moved {w : World ι} (h : s.world.link.Grows w.link) :
    ∃ news, (s.moved w).queue = s.queue ++ news ∧ ∀ f ∈ news, f.task.IsCallback := by
  obtain ⟨news, hqueue, hnews⟩ := h.queue
  refine ⟨news, ?_, hnews⟩
  rw [queue, show (s.moved w).world.loop.pendingFunctors_ = _ from hqueue, ← List.append_assoc]
  rfl

theorem effects_moved (hs : effects s.log = s.world.trace) {w : World ι}
    (h : s.world.trace <+: w.trace) : effects (s.moved w).log = w.trace := by
  obtain ⟨news, hnews⟩ := h
  simp [moved, hs, ← hnews]

theorem mem_moved {w : World ι} {m : Mark} (hm : ∀ e, m ≠ .effect e) :
    m ∈ (s.moved w).log ↔ m ∈ s.log := by
  rw [moved, List.mem_append, or_iff_left]
  intro hmem
  obtain ⟨e, -, he⟩ := List.mem_map.1 hmem
  exact hm e he.symm

/-- The connection makes a step to the link `l`. -/
theorem Base.moved (hs : s.Base) {w : World ι} {l : Link ι} (hrefines : s.world.Refines w l)
    (htrace : s.world.trace <+: l.trace) (hstate : l.state_ ≠ .kConnecting)
    (htasks : ∀ f ∈ l.queue, f ∈ s.world.loop.pendingFunctors_ ∨ f.task.Queued)
    (hasked : l.state_ = .kConnected → s.world.conn.state_ = .kConnected ∧
      l.halfCloses = s.world.link.halfCloses ∧
      ∀ f ∈ l.queue, f.task = .shutdownInLoop → f ∈ s.world.loop.pendingFunctors_) :
    (s.moved w).Base := by
  obtain ⟨hsound, rfl, -, -⟩ := hrefines
  refine ⟨hsound, effects_moved hs.effects_eq htrace, hstate, fun f hf => ?_, ?_⟩
  · rcases List.mem_append.1 hf with hf | hf
    · exact hs.tasks f (List.mem_append_left _ hf)
    · exact (htasks f hf).elim (fun h => hs.tasks f (List.mem_append_right _ h)) id
  · intro hdone hconnected
    obtain ⟨hold, hcount, hnew⟩ := hasked hconnected
    refine hs.asked ?_ hold
    rcases hdone with hran | hhalf | ⟨f, hf, htask⟩ | hstored
    · exact .inl ((mem_moved (by simp)).1 hran)
    · exact .inr (.inl (hcount ▸ hhalf))
    · refine .inr (.inr (.inl ⟨f, ?_, htask⟩))
      rcases List.mem_append.1 hf with hf | hf
      · exact List.mem_append_left _ hf
      · exact List.mem_append_right _ (hnew f hf htask)
    · exact .inr (.inr (.inr hstored))

theorem Base.calm (hs : s.Base) {w : World ι} {l : Link ι} (hrefines : s.world.Refines w l)
    (hcalm : s.world.link.Calm l) : (s.moved w).Base := by
  refine hs.moved hrefines hcalm.grows.trace (hcalm.state_eq ▸ hs.state_ne) (fun f hf => ?_) ?_
  · exact (hcalm.grows.mem_queue hf).imp_right Task.IsCallback.queued
  · intro hconnected
    refine ⟨hcalm.state_eq.symm.trans hconnected, hcalm.halfCloses_eq, fun f hf htask => ?_⟩
    refine (hcalm.grows.mem_queue hf).resolve_right fun hcallback => ?_
    rw [htask] at hcallback
    exact hcallback

/-- A step after which the connection is not connected. -/
theorem Base.disconnected (hs : s.Base) {w : World ι} {l : Link ι} (hrefines : s.world.Refines w l)
    (hgrows : s.world.link.Grows l)
    (hstate : l.state_ = .kDisconnecting ∨ l.state_ = .kDisconnected) : (s.moved w).Base := by
  have hne : l.state_ ≠ .kConnecting ∧ l.state_ ≠ .kConnected := by
    rcases hstate with h | h <;> simp [h]
  refine hs.moved hrefines hgrows.trace hne.1 (fun f hf => ?_) fun h => absurd h hne.2
  exact (hgrows.mem_queue hf).imp_right Task.IsCallback.queued

/-- A mark in the log that is neither an effect nor a `shutdownInLoop` that has run. -/
theorem Base.note (hs : s.Base) {m : Mark} (hm : ∀ e, m ≠ .effect e)
    (hran : m = .shutdownRan → s.world.conn.state_ ≠ .kConnected) : (s.note m).Base := by
  refine ⟨hs.sound, ?_, hs.state_ne, hs.tasks, ?_⟩
  · have hnone : effects [m] = [] := by
      cases m with
      | effect e => exact absurd rfl (hm e)
      | _ => rfl
    rw [Threads.note, effects_append, hnone, List.append_nil, hs.effects_eq]
  · rintro (hmem | hasked)
    · rcases List.mem_append.1 hmem with hmem | hmem
      · exact hs.asked (.inl hmem)
      · exact hran (List.mem_singleton.1 hmem).symm
    · exact hs.asked (.inr hasked)

/-- The next functor is taken from the round. -/
theorem Base.pop (hs : s.Base) {f : Functor ι} {fs : List (Functor ι)}
    (hfunctors : s.functors = f :: fs) :
    Base { s with functors := fs } ∧ f.task.Queued ∧
      (f.task = .shutdownInLoop → s.world.conn.state_ ≠ .kConnected) := by
  have hsub : ∀ g ∈ fs ++ s.world.loop.pendingFunctors_, g ∈ s.queue := by
    intro g hg
    rw [queue, hfunctors]
    exact List.mem_cons_of_mem f hg
  have hmem : f ∈ s.queue := by simp [queue, hfunctors]
  refine ⟨⟨hs.sound, hs.effects_eq, hs.state_ne, fun g hg => hs.tasks g (hsub g hg), ?_⟩,
    hs.tasks f hmem, fun htask => hs.asked (.inr (.inr (.inl ⟨f, hmem, htask⟩)))⟩
  rintro (hran | hhalf | ⟨g, hg, htask⟩ | hstored)
  · exact hs.asked (.inl hran)
  · exact hs.asked (.inr (.inl hhalf))
  · exact hs.asked (.inr (.inr (.inl ⟨g, hsub g hg, htask⟩)))
  · exact hs.asked (.inr (.inr (.inr hstored)))

theorem Base.queueInLoop (hs : s.Base) {task : Task} (htask : task.Queued)
    (hshutdown : task = .shutdownInLoop → s.world.conn.state_ ≠ .kConnected)
    (h : s.queueInLoop task = .ok t) : t.Base := by
  obtain rfl := queueInLoop_ok h
  refine hs.moved (TcpConnection.queueInLoop_spec hs.sound task) (List.prefix_append _ _)
    hs.state_ne (fun f hf => ?_) fun hconnected => ⟨hconnected, ?_, fun f hf heq => ?_⟩
  · rcases List.mem_append.1 hf with hf | hf
    · exact .inl hf
    · obtain rfl := List.mem_singleton.1 hf
      exact .inr htask
  · exact s.world.link.emit_halfCloses (by simp)
  · rcases List.mem_append.1 hf with hf | hf
    · exact hf
    · obtain rfl := List.mem_singleton.1 hf
      exact absurd hconnected (hshutdown heq)

theorem Base.shutdownInLoop (hs : s.Base) (hstate : s.world.conn.state_ ≠ .kConnected)
    (h : s.shutdownInLoop = .ok t) : t.Base := by
  obtain rfl := shutdownInLoop_ok h
  have hrefines := TcpConnection.shutdownInLoop_spec hs.sound
  have hkeep : s.world.link.shutdownInLoop.state_ = s.world.conn.state_ := by simp
  have hqueue : s.world.link.shutdownInLoop.queue = s.world.loop.pendingFunctors_ :=
    s.world.link.shutdownInLoop_fields.2.2.2.1
  refine Base.note ?_ (by simp) fun _ => ?_
  · refine hs.moved hrefines s.world.link.grows_shutdownInLoop.trace (hkeep ▸ hs.state_ne)
      (fun f hf => .inl (hqueue ▸ hf)) fun hconnected => ?_
    exact absurd (hkeep.symm.trans hconnected) hstate
  · have hsame := congrArg Link.state_ hrefines.link_eq
    exact fun hconnected => hstate (hkeep.symm.trans (hsame.symm.trans hconnected))

theorem Base.conneectDestroyed (hs : s.Base) (h : s.conneectDestroyed = .ok t) : t.Base := by
  rcases conneectDestroyed_ok h with ⟨-, rfl⟩ | ⟨w, hw, rfl⟩
  · exact ⟨hs.sound, hs.effects_eq, hs.state_ne, hs.tasks, hs.asked⟩
  · exact hs.calm (TcpConnection.callChannel_ok hs.sound hw) ⟨rfl, rfl, .of_eq List.prefix_rfl rfl⟩

theorem Base.sendInLoop (hs : s.Base) {data : Text} {len : ℤ} (hlen : -2 ^ 31 ≤ len ∧ len < 2 ^ 31)
    {write : Write} {w : World ι} (h : TcpConnection.sendInLoop s.world data.1 len write = .ok w) :
    (s.moved w).Base := by
  obtain ⟨l, hrefines, hl⟩ := TcpConnection.sendInLoop_cases hs.sound hlen h
  refine hs.calm hrefines ?_
  rcases hl with rfl | ⟨n, errno, rfl⟩ | rfl
  · exact ⟨rfl, rfl, .of_eq List.prefix_rfl rfl⟩
  · exact ⟨rfl, s.world.link.emit_halfCloses (by simp), s.world.link.grows_emit _⟩
  · exact s.world.link.send_calm _ _

theorem Base.shutdown (hs : s.Base) (h : s.shutdown = .ok t) : t.Base := by
  rcases shutdown_ok h with ⟨hconnected, rfl⟩ | ⟨-, rfl⟩
  · have hrefines := TcpConnection.shutdown_spec hs.sound true
    have hstate : (s.world.link.shutdown true).state_ = .kDisconnecting := by
      simp [Link.shutdown, hconnected]
    have hstate' := (congrArg Link.state_ hrefines.link_eq).trans hstate
    refine Base.note ?_ (by simp) fun _ hne => absurd (hstate'.symm.trans hne) (by decide)
    exact (hs.note (by simp) (by simp)).disconnected hrefines s.world.link.grows_shutdown (.inl hstate)
  · exact hs.note (by simp) (by simp)

theorem Base.finishDestroyed (hs : s.Base) (h : s.finishDestroyed = .ok t) : t.Base := by
  obtain ⟨w, rfl, hrefines⟩ := finishDestroyed_ok hs.sound h
  have hbase : Base { s with destroying := false } :=
    ⟨hs.sound, hs.effects_eq, hs.state_ne, hs.tasks, hs.asked⟩
  exact hbase.disconnected hrefines (.of_eq (List.prefix_append _ _) rfl) (.inr rfl)

/-- A functor runs. -/
theorem Base.call (hs : s.Base) {write : Write} {task : Task} (htask : task.Queued)
    (hshutdown : task = .shutdownInLoop → s.world.conn.state_ ≠ .kConnected)
    (h : s.call write task = .ok t) : t.Base := by
  cases task with
  | sendInLoop data len =>
    have h : s.exec (fun w => TcpConnection.sendInLoop w (s.memory data).1 len write) = .ok t := h
    obtain ⟨w, hw, rfl⟩ := exec_ok h
    exact hs.sendInLoop htask hw
  | shutdownInLoop => exact hs.shutdownInLoop (hshutdown rfl) h
  | writeCompleteCallback | highWaterMarkCallback => exact Except.ok.inj h ▸ hs
  | conneectEstableished => exact absurd htask id
  | conneectDestroyed => exact hs.conneectDestroyed h
  | removeConnectionInLoop =>
    have hqueued : Task.conneectDestroyed.Queued := trivial
    exact hs.queueInLoop hqueued (by simp) h

variable [DecidableEq τ]

/-- A thread other than the loop thread moves on. -/
theorem Base.enter (hs : s.Base) (t : τ) {pc : Pc}
    (hpc : pc = .stored → s.world.conn.state_ ≠ .kConnected) : (s.enter t pc).Base := by
  refine ⟨hs.sound, hs.effects_eq, hs.state_ne, hs.tasks, ?_⟩
  rintro (hran | hhalf | hqueue | ⟨t', hstored⟩)
  · exact hs.asked (.inl hran)
  · exact hs.asked (.inr (.inl hhalf))
  · exact hs.asked (.inr (.inr (.inl hqueue)))
  · by_cases ht : t' = t
    · subst ht
      exact hpc (by simpa [Threads.enter] using hstored)
    · refine hs.asked (.inr (.inr (.inr ⟨t', ?_⟩)))
      simpa [Threads.enter, ht] using hstored

/-- **Every step keeps the invariant.** -/
theorem Base.step (hs : s.Base) {a : Action τ} (h : s.step a = .ok t) : t.Base := by
  cases step_ok h with
  | stay => exact hs
  | event e w hw =>
    have hrefines := TcpConnection.Op.exec_ok hs.sound hw
    cases e.handles s.world with
    | calm hcalm => exact hs.calm hrefines hcalm
    | halfClose _ _ hstate _ _ hgrows => exact hs.disconnected hrefines hgrows (.inl hstate)
    | close heq =>
      rw [heq] at hrefines
      exact hs.disconnected hrefines s.world.link.grows_handleClose (.inr rfl)
  | send data write w _ hw =>
    exact (hs.sendInLoop (castInt_range _) hw).note (by simp) (by simp)
  | shutdown _ h => exact hs.shutdown h
  | swap hfunctors =>
    have hqueue : s.queue = s.world.loop.pendingFunctors_ ++ [] := by
      simp [queue, hfunctors]
    refine ⟨⟨hs.sound.valid, hs.sound.agrees⟩, hs.effects_eq, hs.state_ne, ?_, ?_⟩
    · exact fun f hf => hs.tasks f (hqueue ▸ hf)
    · refine fun hasked => hs.asked ?_
      rw [Asked, hqueue]
      exact hasked
  | next f fs write _ _ hfunctors h =>
    obtain ⟨hpop, hqueued, hshutdown⟩ := hs.pop hfunctors
    exact hpop.call hqueued hshutdown h
  | conneectDestroyed _ h => exact hs.conneectDestroyed h
  | finishDestroyed _ _ h => exact hs.finishDestroyed h
  | queueDestroyed _ h =>
    have hqueued : Task.conneectDestroyed.Queued := trivial
    exact hs.queueInLoop hqueued (by simp) h
  | callSend i data => exact hs.enter i (by simp)
  | queueSend i data buf u _ hu =>
    have hqueued : Task.Queued (.sendInLoop data (castInt buf.1.length)) := castInt_range _
    exact ((hs.queueInLoop hqueued (by simp) hu).enter i (by simp)).note (by simp) (by simp)
  | callShutdown i => exact (hs.note (by simp) (by simp)).enter i (by simp)
  | callShutdownLate i => exact hs.note (by simp) (by simp)
  | storeShutdown i =>
    refine Base.enter ?_ i (by simp [TcpConnection.setState])
    refine ⟨⟨hs.sound.valid, hs.sound.agrees⟩, hs.effects_eq, ?_, hs.tasks, fun _ => ?_⟩
    · simp [TcpConnection.setState]
    · simp [TcpConnection.setState]
  | queueShutdown i u hi hu =>
    have hqueued : Task.shutdownInLoop.Queued := trivial
    have hne := hs.asked (.inr (.inr (.inr ⟨i, hi⟩)))
    exact (hs.queueInLoop hqueued (fun _ => hne) hu).enter i (by simp)
  | overwrite data text => exact ⟨hs.sound, hs.effects_eq, hs.state_ne, hs.tasks, hs.asked⟩

omit [DecidableEq τ] in
theorem start_base {w : World ι} (hw : w.Established) (hqueue : w.loop.pendingFunctors_ = [])
    (memory : Address → Text) : (start w memory : Threads ι τ).Base := by
  obtain ⟨hsound, hinitial⟩ := hw.spec
  have hstate : w.conn.state_ = .kConnected := hinitial.state_eq
  have hempty : (start w memory : Threads ι τ).queue = [] := by simp [queue, start, hqueue]
  refine ⟨hsound, effects_map _, ?_, by simp [hempty], ?_⟩
  · simp [start, hstate]
  · rintro (hran | hhalf | ⟨f, hf, -⟩ | ⟨t, hstored⟩)
    · simp [start] at hran
    · refine absurd ?_ hhalf
      rw [Link.halfCloses, show (start w memory : Threads ι τ).world.link.trace = _ from
        hinitial.trace_eq]
      rfl
    · simp [hempty] at hf
    · simp [start] at hstored

/-- A memory in which the string at an address is one byte, the address itself. -/
def oneByte : Address → Text := fun data => ⟨[.ofNat data], by simp [maxSize]⟩

end Threads

end Muduo
