import Muduo.TcpServer.Pollers
import Muduo.TcpServer.Settle

/-!
# What the user is told

The user of a server sees a connection through its callbacks: `connectionCallback_` when it is
established and when it closes, `messageCallback_` between the two, and the server through
`closeCallback_` at the end. `Told` is this order. It is kept along every run whose events are those
that `epoll_wait` reports, of channels in the interest set of the kernel (`Loops.contract`): no
thread then comes to handle the close of a connection that is not connected, so that the server comes
to rest from every state of such a run (`Loops.rests`).

What has to be shown is that an event is still handled in time. `Loops.closing` are the connections
that a thread may close with what it is inside of: one at most for each loop, and while it may, the
connection is live (`Calm`).
-/

namespace Muduo

open Run

variable {ι ℓ : Type}

/-! ## What is told -/

/-- The effect is a call of `connectionCallback_`, `messageCallback_` or `closeCallback_`. -/
def Effect.isCall : Effect → Bool
  | connectionCallback _ | messageCallback | closeCallback => true
  | write _ _ | shutdownWrite | queued _ => false

/-- What has been told of a connection, when it is in the state. -/
inductive Told : StateE → List Effect → Prop
  | connecting : Told .kConnecting []
  | live {state : StateE} (hlive : state = .kConnected ∨ state = .kDisconnecting) (messages : ℕ) :
      Told state (.connectionCallback .kConnected :: List.replicate messages .messageCallback)
  | closed (messages : ℕ) : Told .kDisconnected
      (.connectionCallback .kConnected :: List.replicate messages .messageCallback ++
        [.connectionCallback .kDisconnected, .closeCallback])

/-- What a turn tells of a connection, which it moves from a state to another. -/
inductive Tells : StateE → StateE → List Effect → Prop
  | nothing {x y : StateE} (hkeeps : x.Keeps y) : Tells x y []
  | up : Tells .kConnecting .kConnected [.connectionCallback .kConnected]
  | message {x : StateE} (hlive : x = .kConnected ∨ x = .kDisconnecting) :
      Tells x x [.messageCallback]
  | down {x : StateE} (hlive : x = .kConnected ∨ x = .kDisconnecting) :
      Tells x .kDisconnected [.connectionCallback .kDisconnected, .closeCallback]

/-- What is told next. -/
theorem Told.tells {x y : StateE} {es news : List Effect} (h : Told x es) (hnews : Tells x y news) :
    Told y (es ++ news) := by
  cases hnews with
  | nothing hkeeps =>
    rw [List.append_nil]
    rcases hkeeps with rfl | ⟨rfl, rfl⟩
    · exact h
    · cases h with
      | live _ messages => exact .live (.inr rfl) messages
  | up =>
    cases h with
    | connecting => exact .live (.inl rfl) 0
    | live hlive => simp at hlive
  | message hlive =>
    cases h with
    | connecting => simp at hlive
    | live _ messages =>
      rw [List.cons_append, ← List.replicate_succ']
      exact .live hlive (messages + 1)
    | closed => simp at hlive
  | down hlive =>
    cases h with
    | connecting => simp at hlive
    | live _ messages => exact .closed messages
    | closed => simp at hlive

/-! ## The calls of a turn -/

namespace Link

/-- The calls of the three callbacks, in order. -/
def calls (l : Link ι) : List Effect := l.trace.filter Effect.isCall

theorem calls_of_append {l l' : Link ι} {news : List Effect} (h : l'.trace = l.trace ++ news) :
    l'.calls = l.calls ++ news.filter Effect.isCall := by
  rw [calls, h, List.filter_append, calls]

section

variable (l : Link ι)

@[simp] theorem calls_emit_write (count : ℕ) (wrote : Wrote) :
    (l.emit (.write count wrote)).calls = l.calls := by
  simp [calls, Effect.isCall]

@[simp] theorem calls_complete : l.complete.calls = l.calls := by
  unfold complete
  split <;> simp [calls, Effect.isCall]

@[simp] theorem calls_shutdownInLoop : l.shutdownInLoop.calls = l.calls := by
  unfold shutdownInLoop
  split <;> simp [calls, Effect.isCall]

@[simp] theorem calls_saveRemaining (rest : List UInt8) :
    (l.saveRemaining rest).calls = l.calls := by
  have hcheck : (l.checkHighWaterMark rest.length).calls = l.calls := by
    unfold checkHighWaterMark
    split <;> simp [calls, Effect.isCall]
  rw [← hcheck]
  simp [calls, saveRemaining]

@[simp] theorem calls_drained : l.drained.calls = l.calls := by
  have hcomplete : (l.call .disableWriting).complete.calls = l.calls :=
    calls_complete (l.call .disableWriting)
  unfold drained
  simp only
  split
  · rw [calls_shutdownInLoop, hcomplete]
  · exact hcomplete

theorem calls_send (m : List UInt8) (write : Write) : (l.send m write).calls = l.calls := by
  have hsends := l.send_sends m write
  generalize l.send m write = l' at hsends ⊢
  cases hsends <;> simp

theorem calls_handleWrite (write : Write) : (l.handleWrite write).calls = l.calls := by
  have hwrites := l.handleWrite_writes write
  generalize l.handleWrite write = l' at hwrites ⊢
  cases hwrites with
  | idle => rfl
  | none => simp
  | some => exact calls_emit_write l _ _
  | all =>
    rw [calls_drained]
    exact calls_emit_write l _ _

theorem calls_shutdown : (l.shutdown true).calls = l.calls := by
  unfold shutdown
  split
  · exact calls_shutdownInLoop (l.setState .kDisconnecting)
  · rfl

end

end Link

/-- The event can close its connection. -/
def Event.closes : Event → Bool
  | close | read _ _ _ => true
  | error | write _ => false

variable {w w' : World ι}

theorem World.link_calls (htrace : w.trace = []) : w.link.calls = [] :=
  congrArg (List.filter Effect.isCall) htrace

/-- A callback of the channel, when it is handled in time. -/
theorem Event.tells (hw : w.Sound) (htrace : w.trace = []) {e : Event}
    (hlive : e.closes = true → w.conn.state_ = .kConnected ∨ w.conn.state_ = .kDisconnecting)
    (h : e.op.exec w = .ok w') :
    Tells w.conn.state_ w'.conn.state_ (w'.trace.filter Effect.isCall) := by
  have hlink := (TcpConnection.Op.exec_ok hw h).link_eq
  have hstate : w'.conn.state_ = (e.op.link w).state_ := congrArg Link.state_ hlink
  have hcalls : w'.trace.filter Effect.isCall = (e.op.link w).calls := congrArg Link.calls hlink
  have hnone : w.link.calls = [] := World.link_calls htrace
  have hdown : Tells w.conn.state_ w.link.handleClose.state_ w.link.handleClose.calls ∨
      e.closes = false := by
    by_cases hcloses : e.closes = true
    · left
      rw [Link.calls_of_append w.link.handleClose_trace, hnone]
      exact .down (hlive hcloses)
    · exact .inr (Bool.eq_false_iff.2 hcloses)
  rw [hstate, hcalls]
  cases e with
  | close => exact hdown.resolve_right Bool.noConfusion
  | error =>
    rw [show (Event.error.op.link w).calls = [] from hnone]
    exact .nothing (.inl rfl)
  | read recv extraBuffer onMessage =>
    simp only [op, TcpConnection.Op.link]
    split
    next n input _ =>
      unfold Link.handleRead
      split
      · have htrace : (w.link.emit .messageCallback).trace = w.link.trace ++ [.messageCallback] := rfl
        rw [Link.calls_of_append htrace, hnone]
        exact .message (hlive rfl)
      · split
        · exact hdown.resolve_right Bool.noConfusion
        · rw [hnone]
          exact .nothing (.inl rfl)
    next =>
      rw [hnone]
      exact .nothing (.inl rfl)
  | write answer =>
    simp only [op, TcpConnection.Op.link, Link.handleWrite_state, Link.calls_handleWrite, hnone]
    exact .nothing (.inl rfl)

/-- The calls of the user call none of these callbacks. -/
theorem UserCall.tells (hw : w.Sound) (htrace : w.trace = []) {call : UserCall}
    (h : call.exec w = .ok w') :
    Tells w.conn.state_ w'.conn.state_ (w'.trace.filter Effect.isCall) := by
  have hnone : w.link.calls = [] := World.link_calls htrace
  have hcalls : w'.link.calls = [] := by
    cases call with
    | send buf write =>
      obtain ⟨-, hsend⟩ := TcpConnection.send_ok h
      obtain ⟨l, hrefines, hl⟩ := TcpConnection.sendInLoop_cases hw (castInt_range _) hsend
      rw [hrefines.link_eq]
      rcases hl with rfl | ⟨n, errno, rfl⟩ | rfl
      · exact hnone
      · rw [Link.calls_emit_write, hnone]
      · rw [Link.calls_send, hnone]
    | shutdown =>
      obtain rfl := Except.ok.inj h
      rw [(TcpConnection.shutdown_spec hw true).link_eq, Link.calls_shutdown, hnone]
    | setWriteCompleteCallback | setHighWaterMarkCallback =>
      obtain rfl := Except.ok.inj h
      exact hnone
  rw [show w'.trace.filter Effect.isCall = [] from hcalls]
  exact .nothing (UserCall.turns hw h).2

/-- On a disconnected connection the user does nothing that is seen. -/
theorem UserCall.trace_of_disconnected (hstate : w.conn.state_ = .kDisconnected) {call : UserCall}
    (h : call.exec w = .ok w') : w'.trace = w.trace := by
  cases call with
  | send buf write =>
    obtain ⟨hconnected, -⟩ := TcpConnection.send_ok h
    exact StateE.noConfusion (hstate.symm.trans hconnected)
  | shutdown =>
    obtain rfl := Except.ok.inj h
    simp [TcpConnection.shutdown, hstate]
  | setWriteCompleteCallback | setHighWaterMarkCallback =>
    obtain rfl := Except.ok.inj h
    rfl

/-- **A turn** tells what its function says, when its event is handled in time. -/
theorem Turn.tells (hw : w.Sound) (htrace : w.trace = []) {f : Turn} (hf : f.Allowed w.conn.state_)
    (hlive : ∀ e, f = .event e → e.closes = true →
      w.conn.state_ = .kConnected ∨ w.conn.state_ = .kDisconnecting)
    (h : f.exec w = .ok w') :
    Tells w.conn.state_ w'.conn.state_ (w'.trace.filter Effect.isCall) := by
  cases f with
  | conneectEstableished =>
    obtain ⟨v, hv, hrefines⟩ := TcpConnection.conneectEstableished_spec hw
    obtain rfl := Except.ok.inj (hv.symm.trans h)
    have hlink := hrefines.link_eq
    have hstate : v.conn.state_ = .kConnected := congrArg Link.state_ hlink
    have hcalls : v.trace = w.trace ++ [.connectionCallback .kConnected] :=
      congrArg Link.trace hlink
    rw [hstate, hcalls, htrace, show w.conn.state_ = .kConnecting from hf]
    exact .up
  | conneectDestroyed =>
    obtain ⟨v, hv, hrefines⟩ := TcpConnection.conneectDestroyed_spec hw
    obtain rfl := Except.ok.inj (hv.symm.trans h)
    have hdisconnected : w.link.state_ = .kDisconnected := hf
    have hlink := hrefines.link_eq
    rw [Link.conneectDestroyed, hdisconnected, if_neg StateE.noConfusion] at hlink
    have hstate : v.conn.state_ = w.conn.state_ := congrArg Link.state_ hlink
    have hcalls : v.trace = w.trace := congrArg Link.trace hlink
    rw [hstate, hcalls, htrace]
    exact .nothing (.inl rfl)
  | sendInLoop | shutdownInLoop => exact absurd hf id
  | event e => exact e.tells hw htrace (hlive e rfl) h
  | user call => exact UserCall.tells hw htrace h

/-- A turn that is no event which can close keeps a live connection live. -/
theorem Turn.keeps (hw : w.Sound) {f : Turn} (hf : f.Allowed w.conn.state_)
    (hlive : w.conn.state_ = .kConnected ∨ w.conn.state_ = .kDisconnecting)
    (hnot : ∀ e, f = .event e → e.closes = false) (h : f.exec w = .ok w') :
    w.conn.state_.Keeps w'.conn.state_ := by
  cases f with
  | conneectEstableished =>
    have hconnecting : w.conn.state_ = .kConnecting := hf
    simp [hconnecting] at hlive
  | conneectDestroyed =>
    have hdisconnected : w.conn.state_ = .kDisconnected := hf
    simp [hdisconnected] at hlive
  | sendInLoop | shutdownInLoop => exact absurd hf id
  | event e =>
    have hlink := (TcpConnection.Op.exec_ok hw h).link_eq
    refine .inl ((congrArg Link.state_ hlink).trans ?_)
    cases e with
    | close | read => exact Bool.noConfusion (hnot _ rfl)
    | error => rfl
    | write answer => exact w.link.handleWrite_state answer
  | user call => exact (UserCall.turns hw h).2

/-! ## The connections that may be closed -/

/-- The callback can close its connection. -/
def EventCallback.closes : EventCallback → Bool
  | close | read => true
  | error | write => false

theorem EventCallback.event_closes (cb : EventCallback) (answers : Answers) :
    (cb.event answers).closes = cb.closes := by
  cases cb <;> rfl

/-- A `handleEvent` runs one callback at most that can close: `EPOLLIN` decides which. -/
theorem Channel.closes_le (c : Channel) (alive : Bool) :
    ((c.handleEvent alive).filter EventCallback.closes).length ≤ 1 := by
  have hguarded : (c.handleEventWithGuard.filter EventCallback.closes).length ≤ 1 := by
    simp only [handleEventWithGuard, List.filter_append, apply_ite (List.filter EventCallback.closes)]
    cases c.revents_.meets EPOLLIN with
    | true =>
      simp only [EventCallback.closes, List.filter_cons, List.filter_nil]
      simp only [Bool.not_true, Bool.and_false, Bool.false_and, Bool.true_and, Bool.false_eq_true,
        if_false, if_true, ite_self, List.nil_append, List.append_nil]
      split <;> simp
    | false =>
      simp only [EventCallback.closes, List.filter_cons, List.filter_nil]
      simp only [Bool.not_false, Bool.and_true, Bool.false_and, Bool.false_eq_true, if_false, if_true,
        ite_self, List.append_nil]
      split <;> simp
  unfold handleEvent
  split
  · split
    · exact hguarded
    · simp
  · exact hguarded

/-- The connections that the callbacks still to run in the activation can close. -/
def Activation.closing : Activation → List ℕ
  | handleEvent i _ callbacks => (callbacks.filter EventCallback.closes).map fun _ => i
  | newConnection _ | removeConnection _ | removeConnectionInLoop _ | erased _ => []

theorem Activation.closing_cons (i : ℕ) (guard : Bool) (cb : EventCallback)
    (callbacks : List EventCallback) : (handleEvent i guard (cb :: callbacks)).closing =
      (if cb.closes then [i] else []) ++ (handleEvent i guard callbacks).closing := by
  simp only [closing]
  cases hcb : cb.closes with
  | true => simp [hcb]
  | false => simp [hcb]

namespace Loops

/-- The connections that the thread of the loop can close with what it is inside of. -/
def closing (s : Loops ℓ) (l : ℓ) : List ℕ := (s.stack l).flatMap Activation.closing

/-- `epoll_wait` reports channels that are in the interest set of the kernel. -/
def Genuine (s : Loops ℓ) : Action ℓ → Prop
  | .dispatch l i _ =>
    ∃ e ∈ (s.loop l).poller.epoll.interest (s.conn i).channel_.fd_, e.ptr = some i
  | .accept _ _ _ _ | .proceed _ _ | .swap _ | .next _ _ | .user _ _ => True

instance (s : Loops ℓ) (a : Action ℓ) : Decidable (s.Genuine a) :=
  match a with
  | .dispatch l i _ => inferInstanceAs (Decidable
      (∃ e ∈ (s.loop l).poller.epoll.interest (s.conn i).channel_.fd_, _ = _))
  | .accept _ _ _ _ | .proceed _ _ | .swap _ | .next _ _ | .user _ _ => .isTrue trivial

/-- The invariant of the runs whose events are genuine: a loop can close one connection at most with
what its thread is inside of, and this one is live. -/
structure Calm (s : Loops ℓ) : Prop where
  closing : ∀ l, s.closing l = [] ∨ ∃ i, s.closing l = [i] ∧ s.Live i
  unborn : ∀ i, s.server.created[i]? = none → (s.conn i).state_ = .kConnecting

variable {s t : Loops ℓ} {l : ℓ} {i : ℕ}

theorem start_calm (server : TcpServer ℓ) : (start server).Calm :=
  ⟨fun _ => .inl rfl, fun _ _ => rfl⟩

theorem mem_closing {guard : Bool} {callbacks : List EventCallback} {cb : EventCallback}
    (hstack : .handleEvent i guard callbacks ∈ s.stack l) (hcb : cb ∈ callbacks)
    (hcloses : cb.closes = true) : i ∈ s.closing l := by
  refine List.mem_flatMap.2 ⟨_, hstack, ?_⟩
  exact List.mem_map.2 ⟨cb, List.mem_filter.2 ⟨hcb, hcloses⟩, rfl⟩

/-- What a thread can close is live. -/
theorem Calm.live (hs : s.Calm) (h : i ∈ s.closing l) : s.Live i := by
  rcases hs.closing l with hnil | ⟨j, hj, hlive⟩
  · rw [hnil] at h
    cases h
  · rw [hj, List.mem_singleton] at h
    exact h ▸ hlive

/-- No thread is about to close a connection that is not connected. -/
theorem Calm.not_aborting (hs : s.Calm) : ¬s.Aborting := by
  rintro ⟨l, -, i, guard, callbacks, rest, hstack, hnot, hnot'⟩
  have htop : .handleEvent i guard (.close :: callbacks) ∈ s.stack l := by
    rw [hstack]
    exact List.mem_cons_self
  have hlive := hs.live (mem_closing htop List.mem_cons_self rfl)
  exact hlive.elim hnot hnot'

theorem closing_of_stack (h : t.stack = s.stack) : t.closing = s.closing := by
  funext l
  rw [closing, closing, h]

/-- A thread that goes on handles no new event. -/
theorem Busy.genuine {a : Action ℓ} (hbusy : s.Busy a) : s.Genuine a := by
  cases a with
  | dispatch => exact absurd hbusy id
  | accept | proceed | swap | next | user => trivial

variable [DecidableEq ℓ]

/-- Such a connection is one of the loop. -/
theorem Ok.of_closing {phase : ℕ → Phase} {gone : List ℕ} (hs : s.Ok phase gone)
    (h : i ∈ s.closing l) : ∃ c, s.server.created[i]? = some c ∧ c.loop_ = l := by
  obtain ⟨a, ha, h⟩ := List.mem_flatMap.1 h
  cases a with
  | handleEvent j guard callbacks =>
    obtain ⟨cb, -, rfl⟩ := List.mem_map.1 h
    exact (hs.handles l j guard callbacks ha).2
  | newConnection | removeConnection | removeConnectionInLoop | erased => cases h

/-! ## Where the callbacks go -/

/-- What a step does to the connections that threads can close. -/
inductive Closings (s : Loops ℓ) (a : Action ℓ) (t : Loops ℓ) : Prop
  | dispatch {l : ℓ} {i : ℕ} {revents : Mask} (ha : a = .dispatch l i revents) (hidle : s.Idle l)
      (ht : t = s.dispatch l i revents)
  | callback {l : ℓ} {i : ℕ} {cb : EventCallback} {answers : Answers}
      (hturn : s.turn a = some (i, .event (cb.event answers)))
      (hself : s.closing l = (if cb.closes then [i] else []) ++ t.closing l)
      (hother : ∀ l', l' ≠ l → t.closing l' = s.closing l')
  | same (hturn : ∀ i e, s.turn a ≠ some (i, .event e)) (hclosing : t.closing = s.closing)

variable {a : Action ℓ} {answers : Answers}

theorem closing_goto (s : Loops ℓ) (l : ℓ) (activations : List Activation) :
    (s.goto l activations).closing l = activations.flatMap Activation.closing := by
  rw [closing, goto_stack]

theorem closing_goto_of_ne {l' : ℓ} (hl : l' ≠ l) (activations : List Activation) :
    (s.goto l activations).closing l' = s.closing l' := by
  rw [closing, goto_stack_of_ne hl, closing]

/-- Activations in which no callback is to run come and go. -/
theorem closing_goto_eq {activations : List Activation}
    (h : activations.flatMap Activation.closing = s.closing l) :
    (s.goto l activations).closing = s.closing := by
  funext l'
  by_cases hl : l' = l
  · subst hl
    rw [closing_goto, h]
  · exact closing_goto_of_ne hl activations

theorem closing_enter {b : Activation} (hb : b.closing = []) : (s.enter l b).closing = s.closing :=
  closing_goto_eq (by rw [List.flatMap_cons, hb, List.nil_append, closing])

theorem exec_closing {f : World ℕ → Except Fault (World ℕ)} {effects : List Effect}
    (h : s.exec i f = .ok (t, effects)) : t.closing = s.closing := by
  obtain ⟨c, w, -, -, -, hmoved, -⟩ := exec_ok h
  exact closing_of_stack hmoved.stack_eq

theorem execNoted_closing {ran : Ran} {f : World ℕ → Except Fault (World ℕ)}
    (h : s.execNoted l i ran f = .ok t) : t.closing = s.closing := by
  obtain ⟨c, w, -, -, hmoved, -⟩ := execNoted_ok h
  exact closing_of_stack hmoved.stack_eq

/-- A functor begins to handle no event. -/
theorem call_closing {f : Functor ℕ} (h : s.call l answers f = .ok t) : t.closing = s.closing := by
  obtain ⟨conn, task⟩ := f
  cases task with
  | conneectEstableished | conneectDestroyed => exact execNoted_closing h
  | removeConnectionInLoop =>
    obtain rfl := Except.ok.inj h
    exact closing_enter rfl
  | sendInLoop | shutdownInLoop =>
    obtain ⟨⟨u, effects⟩, hu, h⟩ := bind_eq_ok.1 h
    obtain rfl := Except.ok.inj h
    exact exec_closing hu
  | writeCompleteCallback | highWaterMarkCallback =>
    obtain rfl := Except.ok.inj h
    rfl

theorem runInLoop_closing {l' : ℓ} {f : Functor ℕ} (h : s.runInLoop l l' answers f = .ok t) :
    t.closing = s.closing := by
  unfold runInLoop at h
  split at h
  next => exact call_closing h
  next =>
    obtain rfl := Except.ok.inj h
    rfl

/-- An activation in which no callback is to run is left. -/
theorem closing_pop {b : Activation} {rest : List Activation} (hstack : s.stack l = b :: rest)
    (hb : b.closing = []) : (s.goto l rest).closing = s.closing := by
  refine closing_goto_eq ?_
  rw [closing, hstack, List.flatMap_cons, hb, List.nil_append]

/-- A callback of the channel runs. -/
theorem handle_closing {guard : Bool} {cb : EventCallback} {callbacks : List EventCallback}
    {rest : List Activation} (hstack : s.stack l = .handleEvent i guard (cb :: callbacks) :: rest)
    {e : Event} (h : (s.goto l (.handleEvent i guard callbacks :: rest)).handle l i e = .ok t) :
    s.closing l = (if cb.closes then [i] else []) ++ t.closing l ∧
      ∀ l', l' ≠ l → t.closing l' = s.closing l' := by
  obtain ⟨⟨u, effects⟩, hu, h⟩ := bind_eq_ok.1 h
  obtain rfl := Except.ok.inj h
  have hu := exec_closing hu
  have hkept : (if .closeCallback ∈ effects then (u.note l i .handleClose).enter l
      (.removeConnection i) else u).closing = u.closing := by
    split
    · exact closing_enter (s := u.note l i .handleClose) rfl
    · rfl
  simp only [hkept, hu]
  refine ⟨?_, fun l' hl => closing_goto_of_ne hl _⟩
  rw [closing_goto, closing, hstack, List.flatMap_cons, List.flatMap_cons, Activation.closing_cons,
    List.append_assoc]

/-- The thread of the loop goes on. -/
theorem proceed_closings (h : s.proceed l answers = .ok t) : Closings s (.proceed l answers) t := by
  have henabled : s.Enabled (.proceed l answers) := trivial
  have hsame (hturn : ∀ i e, s.turnOf (.proceed l answers) ≠ some (i, .event e))
      (hclosing : t.closing = s.closing) : Closings s (.proceed l answers) t := by
    refine .same (fun i e => ?_) hclosing
    rw [turn_eq henabled]
    exact hturn i e
  unfold proceed at h
  split at h
  next hstack =>
    obtain rfl := Except.ok.inj h
    exact hsame (by simp [turnOf, hstack]) rfl
  next conn rest hstack =>
    obtain ⟨ioLoop, -, h⟩ := bind_eq_ok.1 h
    refine hsame ?_ ((runInLoop_closing h).trans (closing_pop hstack rfl))
    simp only [turnOf, hstack]
    split <;> simp
  next conn guard rest hstack =>
    obtain rfl := Except.ok.inj h
    exact hsame (by simp [turnOf, hstack]) (closing_pop hstack rfl)
  next conn guard cb callbacks rest hstack =>
    obtain ⟨hself, hother⟩ := handle_closing hstack h
    have hturn : s.turnOf (.proceed l answers) = some (conn, .event (cb.event answers)) := by
      simp only [turnOf, hstack]
    exact .callback ((turn_eq henabled).trans hturn) hself hother
  next conn rest hstack =>
    exact hsame (by simp [turnOf, hstack]) ((runInLoop_closing h).trans (closing_pop hstack rfl))
  next conn rest hstack =>
    obtain rfl := Except.ok.inj h
    refine hsame (by simp [turnOf, hstack]) ((closing_enter rfl).trans ?_)
    exact closing_pop hstack rfl
  next conn rest hstack =>
    obtain ⟨ioLoop, -, h⟩ := bind_eq_ok.1 h
    obtain rfl := Except.ok.inj h
    exact hsame (by simp [turnOf, hstack]) (closing_pop hstack rfl)

/-- A functor is no event. -/
theorem functorTurn_ne_event {f : Functor ℕ} {e : Event} :
    functorTurn answers f ≠ some (i, .event e) := by
  unfold functorTurn
  cases f.task <;> simp

/-- **A step**, for the connections that threads can close. -/
theorem closings_of_step (h : s.step a = .ok t) : Closings s a t := by
  unfold Loops.step at h
  split at h
  next henabled =>
    have hsame (hturn : ∀ i e, s.turnOf a ≠ some (i, .event e)) (hclosing : t.closing = s.closing) :
        Closings s a t := by
      refine .same (fun i e => ?_) hclosing
      rw [turn_eq henabled]
      exact hturn i e
    cases a with
    | accept sockFd localAddr peerAddr complete =>
      obtain ⟨server, -, h⟩ := bind_eq_ok.1 h
      obtain rfl := Except.ok.inj h
      exact hsame (by simp [turnOf]) (closing_enter rfl)
    | dispatch l conn revents =>
      obtain rfl := Except.ok.inj h
      exact .dispatch rfl henabled.1 rfl
    | proceed l answers => exact proceed_closings h
    | swap l =>
      obtain rfl := Except.ok.inj h
      exact hsame (by simp [turnOf]) rfl
    | next l answers =>
      simp only [perform] at h
      split at h
      next hfunctors =>
        obtain rfl := Except.ok.inj h
        exact hsame (by simp [turnOf, hfunctors]) rfl
      next f fs hfunctors =>
        have hclosing := call_closing (s := s.round l fs) h
        refine hsame (fun i e => ?_) hclosing
        simp only [turnOf, hfunctors]
        exact functorTurn_ne_event
    | user conn call =>
      obtain ⟨⟨u, effects⟩, hu, h⟩ := bind_eq_ok.1 h
      obtain rfl := Except.ok.inj h
      exact hsame (by simp [turnOf]) (exec_closing hu)
  next hnot =>
    obtain rfl := Except.ok.inj h
    exact .same (fun i e => by simp [turn, hnot]) rfl

/-! ## The invariant -/

variable {phase : ℕ → Phase} {gone : List ℕ} {f : Turn}

/-- An event that can close a connection is handled while this is live, and then no callback that
can close one is left on its loop. -/
theorem Calm.of_event (hs : s.Calm) (h : s.step a = .ok t) {e : Event}
    (hturn : s.turn a = some (i, .event e)) (hcloses : e.closes = true) :
    ∃ l, s.closing l = [i] ∧ s.Live i ∧ t.closing l = [] ∧ ∀ l', l' ≠ l → t.closing l' = s.closing l' := by
  cases closings_of_step h with
  | dispatch ha =>
    subst ha
    exact absurd hturn (by simp [turn, turnOf])
  | @callback l j cb answers hturn' hself hother =>
    obtain ⟨rfl, heq⟩ := Prod.mk.inj (Option.some.inj (hturn'.symm.trans hturn))
    obtain rfl := Turn.event.inj heq
    rw [EventCallback.event_closes] at hcloses
    rw [if_pos hcloses] at hself
    rcases hs.closing l with hnil | ⟨k, hk, hlive⟩
    · exact absurd (hself.symm.trans hnil) (by simp)
    · obtain ⟨rfl, hrest⟩ := List.cons.inj (hself.symm.trans hk)
      exact ⟨l, hk, hlive, hrest, hother⟩
  | same hno => exact absurd hturn (hno i e)

/-- A function that runs on a connection, for what is told of it. -/
theorem Ok.tells_turn (hs : s.Ok phase gone) (hcalm : s.Calm) (h : s.step a = .ok t) {f : Turn}
    {c : Created ℓ} {w : World ℕ} (hturn : s.turn a = some (i, f))
    (hc : s.server.created[i]? = some c) (hexec : f.exec (s.world c.loop_ i) = .ok w)
    (hself : (t.conn i).state_ = w.conn.state_) :
    Tells (s.conn i).state_ (t.conn i).state_ (w.trace.filter Effect.isCall) ∧
      ((∀ e, s.turn a = some (i, .event e) → e.closes = false) → s.Live i → t.Live i) := by
  rw [Live, Live, hself]
  by_cases htorn : phase i = .torn
  · obtain ⟨call, rfl⟩ := (hs.allowed hturn).2 htorn
    have hstate : (s.conn i).state_ = .kDisconnected := hs.allows_state htorn Phase.noConfusion
    have htrace := UserCall.trace_of_disconnected (w := s.world c.loop_ i) hstate hexec
    obtain ⟨-, hstate', -⟩ := hs.turn_of_torn hturn hexec htorn
    rw [htrace, hstate']
    exact ⟨.nothing (.inl rfl), fun _ => id⟩
  · have hsound := (hs.conns.part i c hc).sound (Phase.stage_ne_torn.2 htorn)
    have hallowed := (hs.allowed hturn).1
    constructor
    · refine Turn.tells hsound rfl hallowed (fun e hf hcloses => ?_) hexec
      subst hf
      obtain ⟨l, -, hlive, -⟩ := hcalm.of_event h hturn hcloses
      exact hlive
    · intro hnot hlive
      have hkeeps := Turn.keeps hsound hallowed hlive (fun e hf => hnot e (hf ▸ hturn)) hexec
      rcases hkeeps with heq | ⟨-, heq⟩
      · rwa [heq]
      · exact .inr heq

/-- **A step**, for what is told of a connection. -/
theorem Ok.tells (hs : s.Ok phase gone) (hcalm : s.Calm) (h : s.step a = .ok t) (i : ℕ) :
    Tells (s.conn i).state_ (t.conn i).state_ ((s.effects i a).filter Effect.isCall) ∧
      ((∀ e, s.turn a = some (i, .event e) → e.closes = false) → s.Live i → t.Live i) := by
  have hnothing (hstate : (t.conn i).state_ = (s.conn i).state_) (heffects : s.effects i a = []) :
      Tells (s.conn i).state_ (t.conn i).state_ ((s.effects i a).filter Effect.isCall) ∧
        ((∀ e, s.turn a = some (i, .event e) → e.closes = false) → s.Live i → t.Live i) := by
    refine ⟨?_, fun _ hlive => ?_⟩
    · rw [heffects]
      exact .nothing (.inl hstate)
    · rwa [Live, hstate]
  cases cases_of_step h with
  | rest hturn hconn =>
    refine hnothing ?_ (effects_of_none hturn i)
    rw [hconn]
  | accept hturn ha hserver hconn =>
    refine hnothing ?_ (effects_of_none hturn i)
    rw [hconn, Function.update_apply]
    split
    next hi =>
      subst hi
      exact (hcalm.unborn _ (List.getElem?_eq_none (Nat.le_refl _))).symm
    next => rfl
  | dispatch hturn hconn =>
    refine hnothing ?_ (effects_of_none hturn i)
    rw [hconn, Function.update_apply]
    split
    next hi =>
      subst hi
      rfl
    next => rfl
  | @turn j f c w hturn hc hexec hconn =>
    have heffects := effects_of_turn hturn hc hexec i
    by_cases hi : i = j
    · subst hi
      rw [if_pos rfl] at heffects
      rw [heffects]
      exact hs.tells_turn hcalm h hturn hc hexec (by rw [hconn, Function.update_self])
    · rw [if_neg hi] at heffects
      refine hnothing ?_ heffects
      rw [hconn, Function.update_of_ne hi]

theorem Ok.unborn_step (hcalm : s.Calm) (h : s.step a = .ok t)
    (hnone : t.server.created[i]? = none) : (t.conn i).state_ = .kConnecting := by
  cases cases_of_step h with
  | rest _ hconn _ hcreated =>
    rw [hconn]
    exact hcalm.unborn i (hcreated ▸ hnone)
  | accept _ _ hserver hconn =>
    obtain ⟨ioLoop, pool, -, -, hserver⟩ := TcpServer.newConnection_ok hserver
    rw [hserver, List.getElem?_eq_none_iff, List.length_append, List.length_singleton] at hnone
    rw [hconn, Function.update_of_ne (by omega)]
    exact hcalm.unborn i (List.getElem?_eq_none (by omega))
  | dispatch _ hconn _ hserver =>
    have hstate : (t.conn i).state_ = (s.conn i).state_ := by
      rw [hconn, Function.update_apply]
      split
      next hi =>
        subst hi
        rfl
      next => rfl
    rw [hstate]
    exact hcalm.unborn i (hserver ▸ hnone)
  | @turn j f c w _ hc _ hconn _ hserver =>
    rw [hserver] at hnone
    have hij : i ≠ j := by
      rintro rfl
      rw [hc] at hnone
      cases hnone
    rw [hconn, Function.update_of_ne hij]
    exact hcalm.unborn i hnone

/-- A channel that the kernel watches for a loop is that of a live connection. -/
theorem Ok.live_of_genuine (hs : s.Ok phase gone) (hp : s.Polled) {revents : Mask}
    (h : s.Genuine (.dispatch l i revents)) : s.Live i := by
  obtain ⟨e, he, hptr⟩ := h
  obtain ⟨j, c, -, -, -, hlive, rfl⟩ := (hp.interest_iff hs.conns l _ e).1 he
  obtain rfl := Option.some.inj hptr
  exact hlive

/-- `handleEvent` begins: its loop can close the connection, or none. -/
theorem dispatch_closing (hidle : s.Idle l) (revents : Mask) :
    (s.dispatch l i revents).closing l = [] ∨ (s.dispatch l i revents).closing l = [i] := by
  have hle := Channel.closes_le ((s.conn i).channel_.set_revents revents) (s.Held i)
  rw [dispatch, enter, closing_goto, List.flatMap_cons]
  simp only [hidle.1, List.flatMap_nil, List.append_nil, Activation.closing]
  generalize List.filter EventCallback.closes _ = callbacks at hle ⊢
  cases callbacks with
  | nil => exact .inl rfl
  | cons cb rest =>
    obtain rfl : rest = [] := by simpa using hle
    exact .inr rfl

/-- **A genuine step** keeps the invariant. -/
theorem Ok.calm (hs : s.Ok phase gone) (hp : s.Polled) (hcalm : s.Calm) (hgenuine : s.Genuine a)
    (h : s.step a = .ok t) : t.Calm := by
  have hkept (hnot : ∀ i e, s.turn a = some (i, .event e) → e.closes = false) {l : ℓ}
      (hl : t.closing l = s.closing l) : t.closing l = [] ∨ ∃ i, t.closing l = [i] ∧ t.Live i := by
    rw [hl]
    refine (hcalm.closing l).imp_right ?_
    rintro ⟨i, hi, hlive⟩
    exact ⟨i, hi, (hs.tells hcalm h i).2 (hnot i) hlive⟩
  refine ⟨fun l => ?_, fun i => Ok.unborn_step hcalm h⟩
  cases closings_of_step h with
  | @dispatch l' i revents ha hidle ht =>
    subst ha
    have hnot (j : ℕ) (e : Event) (hturn : s.turn (.dispatch l' i revents) = some (j, .event e)) :
        e.closes = false := by
      simp [turn, turnOf] at hturn
    by_cases hl : l = l'
    · subst hl
      rw [ht]
      refine (dispatch_closing hidle revents).imp_right fun hclosing => ⟨i, hclosing, ?_⟩
      rw [← ht]
      exact (hs.tells hcalm h i).2 (hnot i) (hs.live_of_genuine hp hgenuine)
    · refine hkept hnot ?_
      rw [ht]
      exact closing_goto_of_ne hl _
  | @callback l' i cb answers hturn hself hother =>
    cases hcb : cb.closes with
    | true =>
      -- the connection may be closed now, and its loop can close no other
      obtain ⟨k, hk, -, hnil, hother⟩ :=
        hcalm.of_event h hturn ((EventCallback.event_closes cb answers).trans hcb)
      by_cases hl : l = k
      · exact .inl (hl ▸ hnil)
      · rw [hother l hl]
        refine (hcalm.closing l).imp_right ?_
        rintro ⟨j, hj, hlive⟩
        refine ⟨j, hj, (hs.tells hcalm h j).2 (fun e he => ?_) hlive⟩
        obtain ⟨rfl, -⟩ := Prod.mk.inj (Option.some.inj (hturn.symm.trans he))
        obtain ⟨c, hc, hcl⟩ := hs.of_closing (l := l) (i := i) (by simp [hj])
        obtain ⟨d, hd, hdk⟩ := hs.of_closing (l := k) (i := i) (by simp [hk])
        obtain rfl := Option.some.inj (hc.symm.trans hd)
        exact absurd (hcl.symm.trans hdk) hl
    | false =>
      refine hkept (fun j e he => ?_) ?_
      · obtain ⟨rfl, heq⟩ := Prod.mk.inj (Option.some.inj (hturn.symm.trans he))
        obtain rfl := Turn.event.inj heq
        exact (EventCallback.event_closes cb answers).trans hcb
      · by_cases hl : l = l'
        · subst hl
          rw [hself, hcb]
          rfl
        · exact hother l hl
  | same hno hclosing =>
    refine hkept (fun j e he => absurd he (hno j e)) ?_
    rw [hclosing]

/-! ## Runs -/

/-- What the user is told of the connection `i` in the run. -/
def told (s : Loops ℓ) (actions : List (Action ℓ)) (i : ℕ) : List Effect :=
  (collect Loops.step (fun s a => s.effects i a) s actions).filter Effect.isCall

theorem told_concat {actions : List (Action ℓ)} (h : run Loops.step s actions = .ok t)
    (a : Action ℓ) (i : ℕ) :
    s.told (actions ++ [a]) i = s.told actions i ++ (t.effects i a).filter Effect.isCall := by
  rw [told, collect_concat h, List.filter_append, told]

/-- The invariants of a run whose events are genuine. -/
theorem genuine_run {loop : ℓ} {loops : List ℓ} {listenAddr : InetAddress} {nameArg : List Char}
    {server : TcpServer ℓ} {actions : List (Action ℓ)} {s : Loops ℓ}
    (hserver : TcpServer.construct loop listenAddr nameArg = .ok server)
    (hgenuine : Along step Genuine (start (server.start loops)) actions)
    (h : run step (start (server.start loops)) actions = .ok s) :
    (∃ phase gone, s.Ok phase gone) ∧ s.Polled ∧ s.Calm := by
  refine hgenuine.invariant (I := fun s => (∃ phase gone, s.Ok phase gone) ∧ s.Polled ∧ s.Calm) ?_
    ⟨⟨_, _, start_ok hserver⟩, start_polled _, start_calm _⟩ h
  rintro s a t ⟨⟨phase, gone, hs⟩, hp, hcalm⟩ ha ht
  exact ⟨hs.step ht, hs.polled hp ht, hs.calm hp hcalm ha ht⟩

/-- **The contract with the user**: over every run of a server with its loops whose events are those
of channels in the interest set of the kernel, and whose users call each connection on the thread of
its loop, the user is told of a connection in the order of `Told`: once that it is established, then
of its messages, then once that it has closed, and with this the server. What it has been told by
then is what the state of the connection says. -/
theorem contract {loop : ℓ} {loops : List ℓ} {listenAddr : InetAddress} {nameArg : List Char}
    {server : TcpServer ℓ} {actions : List (Action ℓ)} {s : Loops ℓ}
    (hserver : TcpServer.construct loop listenAddr nameArg = .ok server)
    (hgenuine : Along step Genuine (start (server.start loops)) actions)
    (h : run step (start (server.start loops)) actions = .ok s) (i : ℕ) :
    Told (s.conn i).state_ ((start (server.start loops)).told actions i) := by
  refine run_induction (motive := fun actions (s : Loops ℓ) =>
    Along step Genuine (start (server.start loops)) actions →
      Told (s.conn i).state_ ((start (server.start loops)).told actions i)) ?_ ?_ h hgenuine
  · exact fun _ => .connecting
  · intro actions a t u ht hu ih hgenuine
    obtain ⟨hgenuine, -⟩ := along_concat.1 hgenuine
    obtain ⟨⟨phase, gone, hs⟩, -, hcalm⟩ := genuine_run hserver hgenuine ht
    rw [told_concat ht]
    exact (ih hgenuine).tells (hs.tells hcalm hu i).1

theorem contract_lifetime : ∃ (server : TcpServer ℕ) (s : Loops ℕ),
    TcpServer.construct 0 ⟨(127, 0, 0, 1), 16415⟩ ['s'] = .ok server ∧
    Along step Genuine (start (server.start [1])) lifetime ∧
    run step (start (server.start [1])) lifetime = .ok s ∧
    (start (server.start [1])).told lifetime 0 = [.connectionCallback .kConnected,
      .connectionCallback .kDisconnected, .closeCallback] ∧
    Told (s.conn 0).state_ ((start (server.start [1])).told lifetime 0) := by
  have hrun : (TcpServer.construct 0 ⟨(127, 0, 0, 1), 16415⟩ ['s'] >>= fun server =>
      (run step (start (server.start [1])) lifetime).map fun s => (server, s)).map (fun x =>
        (decide (Along step Genuine (start (x.1.start [1])) lifetime),
          (start (x.1.start [1])).told lifetime 0)) =
      .ok (true, [.connectionCallback .kConnected, .connectionCallback .kDisconnected,
        .closeCallback]) := by
    decide +kernel
  obtain ⟨⟨server, s⟩, hs, htold⟩ := exists_of_map hrun
  obtain ⟨server', hserver, hs⟩ := bind_eq_ok.1 hs
  obtain ⟨s', hs', heq⟩ := exists_of_map hs
  obtain ⟨rfl, rfl⟩ := Prod.mk.inj heq
  obtain ⟨hgenuine, htold⟩ := Prod.mk.inj htold
  have hgenuine := of_decide_eq_true hgenuine
  exact ⟨server', s', hserver, hgenuine, hs', htold, contract hserver hgenuine hs' 0⟩

/-- **The server comes to rest** after every run whose events are genuine: no thread is about to
close a connection that is not connected, and the threads can go on until none has anything left.
Then the connections that have closed are torn down, and the others are those of `connections_`. -/
theorem rests {loop : ℓ} {loops : List ℓ} {listenAddr : InetAddress} {nameArg : List Char}
    {server : TcpServer ℓ} {actions : List (Action ℓ)} {s : Loops ℓ}
    (hserver : TcpServer.construct loop listenAddr nameArg = .ok server)
    (hgenuine : Along step Genuine (start (server.start loops)) actions)
    (h : run step (start (server.start loops)) actions = .ok s) :
    (∀ l, ∀ i ∈ s.closing l, s.Live i) ∧
    ∃ more t, Along step Busy s more ∧ run step s more = .ok t ∧
      t.server.created = s.server.created ∧ t.AtRest ∧
      ∀ i c, t.server.created[i]? = some c → t.Done i c := by
  obtain ⟨hok, hp, hcalm⟩ := genuine_run hserver hgenuine h
  refine ⟨fun l i => hcalm.live, ?_⟩
  have hrest : ∃ more t, Along step Busy s more ∧ run step s more = .ok t ∧
      (((∃ phase gone, t.Ok phase gone) ∧ t.Polled ∧ t.Calm) ∧
        t.server.created = s.server.created) ∧ t.AtRest := by
    refine exists_run_done (m := work) ?_ ⟨⟨hok, hp, hcalm⟩, rfl⟩
    rintro t ⟨⟨⟨phase, gone, hs⟩, hp, hcalm⟩, hcreated⟩ hrest
    obtain ⟨a, u, hbusy, hu⟩ := hs.goes_on hrest hcalm.not_aborting
    have hinv : (∃ phase gone, u.Ok phase gone) ∧ u.Polled ∧ u.Calm :=
      ⟨hs.step hu, hs.polled hp hu, hs.calm hp hcalm hbusy.genuine hu⟩
    exact ⟨a, u, hbusy, hu, ⟨hinv, (hbusy.created_eq hu).trans hcreated⟩, hs.work_lt hbusy hu⟩
  obtain ⟨more, t, hbusy, ht, ⟨⟨⟨phase, gone, hs⟩, -⟩, hcreated⟩, hrest⟩ := hrest
  exact ⟨more, t, hbusy, ht, hcreated, hrest, fun i c hc => hs.done hrest hc⟩

/-- The event of the connection has begun to be handled, and its close is still to come. -/
theorem rests_hangup : ∃ (server : TcpServer ℕ) (s : Loops ℕ),
    TcpServer.construct 0 ⟨(127, 0, 0, 1), 16415⟩ ['s'] = .ok server ∧
    Along step Genuine (start (server.start [1])) (lifetime.take 6) ∧
    run step (start (server.start [1])) (lifetime.take 6) = .ok s ∧ s.closing 1 = [0] ∧
    (∀ l, ∀ i ∈ s.closing l, s.Live i) ∧
    ∃ more t, Along step Busy s more ∧ run step s more = .ok t ∧
      t.server.created = s.server.created ∧ t.AtRest ∧
      ∀ i c, t.server.created[i]? = some c → t.Done i c := by
  have hrun : (TcpServer.construct 0 ⟨(127, 0, 0, 1), 16415⟩ ['s'] >>= fun server =>
      (run step (start (server.start [1])) (lifetime.take 6)).map fun s => (server, s)).map (fun x =>
        (decide (Along step Genuine (start (x.1.start [1])) (lifetime.take 6)), x.2.closing 1)) =
      .ok (true, [0]) := by
    decide +kernel
  obtain ⟨⟨server, s⟩, hs, hclosing⟩ := exists_of_map hrun
  obtain ⟨server', hserver, hs⟩ := bind_eq_ok.1 hs
  obtain ⟨s', hs', heq⟩ := exists_of_map hs
  obtain ⟨rfl, rfl⟩ := Prod.mk.inj heq
  obtain ⟨hgenuine, hclosing⟩ := Prod.mk.inj hclosing
  have hgenuine := of_decide_eq_true hgenuine
  exact ⟨server', s', hserver, hgenuine, hs', hclosing, rests hserver hgenuine hs'⟩

end Loops

end Muduo
