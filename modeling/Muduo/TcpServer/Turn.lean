import Muduo.TcpServer.Teardown

/-!
# The turns of the connections

A step of the server with its loops runs at most one function of one connection. `Loops.turn` says
which, and `Loops.effects` what the connection does in it that is seen outside. `Cases` is the
inversion of a step: a turn of one connection, a new connection, an event that begins to be handled,
or a step that touches no connection and no poller. The facts about all connections together
(`Muduo.TcpServer.Pollers`, `Muduo.TcpServer.Streams`, `Muduo.TcpServer.RoundRobin`) are proved by
these four cases.
-/

namespace Muduo

open Run

variable {ι ℓ : Type}

/-- A function of a connection that a thread runs in one step. -/
inductive Turn
  | conneectEstableished
  | conneectDestroyed
  /-- The functor `sendInLoop`; `text` is what is at its address. -/
  | sendInLoop (text : Text) (len : ℤ) (write : Write)
  | shutdownInLoop
  /-- A callback of the channel. -/
  | event (e : Event)
  | user (call : UserCall)

/-- The function runs on the connection. -/
def Turn.exec (w : World ι) : Turn → Except Fault (World ι)
  | conneectEstableished => TcpConnection.conneectEstableished w
  | conneectDestroyed => TcpConnection.conneectDestroyed w
  | sendInLoop text len write => TcpConnection.sendInLoop w text.1 len write
  | shutdownInLoop => .ok (TcpConnection.shutdownInLoop w)
  | event e => e.op.exec w
  | user call => call.exec w

/-- The states of a connection in which the function can come to run. -/
def Turn.Allowed (state : StateE) : Turn → Prop
  | conneectEstableished => state = .kConnecting
  | conneectDestroyed => state = .kDisconnected
  -- the user calls on the thread of the loop, which queues neither
  | sendInLoop _ _ _ | shutdownInLoop => False
  | event _ | user _ => True

theorem Turn.turns {w w' : World ι} (hw : w.Sound) (htrace : w.trace = []) {f : Turn}
    (hf : f.Allowed w.conn.state_) (h : f.exec w = .ok w') : w.Turns w' := by
  cases f with
  | conneectEstableished => exact (TcpConnection.conneectEstableished_turns hw h).1
  | conneectDestroyed => exact (TcpConnection.conneectDestroyed_turns hw hf h).1
  | sendInLoop | shutdownInLoop => exact absurd hf id
  | event e => exact (Event.turns hw htrace h).1
  | user call => exact (UserCall.turns hw h).1

/-- The erasure leaves the created connections and the pool. -/
theorem TcpServer.removeConnectionInLoop_fields (s : TcpServer ℓ) (conn : ℕ) :
    (s.removeConnectionInLoop conn).created = s.created ∧
      (s.removeConnectionInLoop conn).threadPool_ = s.threadPool_ := by
  unfold TcpServer.removeConnectionInLoop
  split <;> exact ⟨rfl, rfl⟩

namespace Loops

/-- The turn that a functor takes, with the connection. -/
def functorTurn (answers : Answers) (f : Functor ℕ) : Option (ℕ × Turn) :=
  match f.task with
  | .conneectEstableished => some (f.conn, .conneectEstableished)
  | .conneectDestroyed => some (f.conn, .conneectDestroyed)
  | .sendInLoop _ len => some (f.conn, .sendInLoop answers.text len answers.write)
  | .shutdownInLoop => some (f.conn, .shutdownInLoop)
  | .removeConnectionInLoop | .writeCompleteCallback | .highWaterMarkCallback _ => none

section

variable [DecidableEq ℓ]

/-- The turn of a step that can be taken, with the connection. -/
def turnOf (s : Loops ℓ) : Action ℓ → Option (ℕ × Turn)
  | .accept _ _ _ _ | .dispatch _ _ _ | .swap _ => none
  | .proceed l answers =>
    match s.stack l with
    | .newConnection conn :: _ =>
      if s.getLoop conn = .ok l then some (conn, .conneectEstableished) else none
    | .handleEvent conn _ (cb :: _) :: _ => some (conn, .event (cb.event answers))
    | _ => none
  | .next l answers =>
    match s.functors l with
    | [] => none
    | f :: _ => functorTurn answers f
  | .user conn call => some (conn, .user call)

/-- The turn of a step, with the connection. -/
def turn (s : Loops ℓ) (a : Action ℓ) : Option (ℕ × Turn) :=
  if s.Enabled a then s.turnOf a else none

/-- What the connection `i` does in the step. -/
def effects (s : Loops ℓ) (i : ℕ) (a : Action ℓ) : List Effect :=
  match s.turn a with
  | some (j, f) =>
    match s.exec j f.exec with
    | .ok (_, effects) => if i = j then effects else []
    | .error _ => []
  | none => []

end

/-! ## The cases of a step -/

/-- What a step does to the connections. -/
inductive Cases [DecidableEq ℓ] (s : Loops ℓ) (a : Action ℓ) (t : Loops ℓ) : Prop
  | rest (hturn : s.turn a = none) (hconn : t.conn = s.conn)
      (hpoller : ∀ l, (t.loop l).poller = (s.loop l).poller)
      (hcreated : t.server.created = s.server.created)
      (hpool : t.server.threadPool_ = s.server.threadPool_)
  | accept (hturn : s.turn a = none) {sockFd : ℕ} {localAddr peerAddr : InetAddress}
      {complete : Bool} (ha : a = .accept sockFd localAddr peerAddr complete)
      (hserver : s.server.newConnection sockFd localAddr peerAddr = .ok t.server)
      (hconn : t.conn = Function.update s.conn s.server.created.length
        ((TcpConnection.construct sockFd).setWriteCompleteCallback complete))
      (hloop : t.loop = s.loop)
  | dispatch (hturn : s.turn a = none) {i : ℕ} {revents : Mask}
      (hconn : t.conn = Function.update s.conn i
        { s.conn i with channel_ := (s.conn i).channel_.set_revents revents })
      (hloop : t.loop = s.loop) (hserver : t.server = s.server)
  | turn {i : ℕ} {f : Turn} {c : Created ℓ} {w : World ℕ} (hturn : s.turn a = some (i, f))
      (hc : s.server.created[i]? = some c) (hexec : f.exec (s.world c.loop_ i) = .ok w)
      (hconn : t.conn = Function.update s.conn i w.conn)
      (hloop : t.loop = Function.update s.loop c.loop_ w.loop) (hserver : t.server = s.server)

variable {s t u : Loops ℓ} {a : Action ℓ} {i : ℕ} {f : Turn}

/-- From `s` to `t` neither the server nor a connection nor a loop has changed. -/
structure Still (s t : Loops ℓ) : Prop where
  server_eq : t.server = s.server
  conn_eq : t.conn = s.conn
  loop_eq : t.loop = s.loop

theorem Still.refl (s : Loops ℓ) : Still s s := ⟨rfl, rfl, rfl⟩

theorem Same.trans (h : Same s t) (h' : Same t u) : Same s u :=
  ⟨h'.server_eq.trans h.server_eq, h'.conn_eq.trans h.conn_eq, h'.log_eq.trans h.log_eq,
    fun l => (h'.poller_eq l).trans (h.poller_eq l)⟩

variable [DecidableEq ℓ]

theorem turn_eq (henabled : s.Enabled a) : s.turn a = s.turnOf a := if_pos henabled

/-- A step that cannot be taken is no turn. -/
theorem turn_eq_none (h : s.Enabled a → s.turnOf a = none) : s.turn a = none := by
  unfold turn
  split
  next henabled => exact h henabled
  next => rfl

theorem effects_of_none (h : s.turn a = none) (i : ℕ) : s.effects i a = [] := by
  rw [effects, h]

/-- What the connections do when it is the turn of `i`. -/
theorem effects_of_turn {c : Created ℓ} {w : World ℕ} (hturn : s.turn a = some (i, f))
    (hc : s.server.created[i]? = some c) (hexec : f.exec (s.world c.loop_ i) = .ok w) (j : ℕ) :
    s.effects j a = if j = i then w.trace else [] := by
  have hloop : s.getLoop i = .ok c.loop_ := by rw [getLoop, hc]
  have hexec' : s.exec i f.exec = .ok (s.put c.loop_ i w, w.trace) := by
    rw [exec, hloop, ok_bind]
    exact bind_eq_ok.2 ⟨w, hexec, rfl⟩
  simp only [effects, hturn, hexec']

theorem still_goto (s : Loops ℓ) (l : ℓ) (activations : List Activation) :
    Still s (s.goto l activations) := ⟨rfl, rfl, rfl⟩

theorem still_round (s : Loops ℓ) (l : ℓ) (fs : List (Functor ℕ)) : Still s (s.round l fs) :=
  ⟨rfl, rfl, rfl⟩

/-- The step runs the function `f` of the connection `i`. -/
theorem Cases.of_exec {s₀ : Loops ℓ} {effects : List Effect} (henabled : s.Enabled a)
    (hturn : s.turnOf a = some (i, f)) (hstill : Still s s₀)
    (h : s₀.exec i f.exec = .ok (u, effects)) (ht : Still u t) : Cases s a t := by
  obtain ⟨c, w, hc, hw, -, hmoved, -⟩ := exec_ok h
  obtain ⟨server, conn, loop, functors, stack, log⟩ := s₀
  obtain ⟨rfl, rfl, rfl⟩ := hstill
  exact .turn ((turn_eq henabled).trans hturn) hc hw (ht.conn_eq.trans hmoved.conn_eq)
    (ht.loop_eq.trans hmoved.loop_eq) (ht.server_eq.trans hmoved.server_eq)

/-- The step touches no connection and no poller. -/
theorem Cases.of_still (hturn : s.Enabled a → s.turnOf a = none) (hsame : Same s t) : Cases s a t :=
  .rest (turn_eq_none hturn) hsame.conn_eq hsame.poller_eq
    (congrArg TcpServer.created hsame.server_eq) (congrArg TcpServer.threadPool_ hsame.server_eq)

theorem execNoted_exec {l : ℓ} {ran : Ran} {g : World ℕ → Except Fault (World ℕ)}
    (h : s.execNoted l i ran g = .ok t) : ∃ u effects, s.exec i g = .ok (u, effects) ∧ Still u t := by
  obtain ⟨⟨u, effects⟩, hu, h⟩ := bind_eq_ok.1 h
  obtain rfl := Except.ok.inj h
  exact ⟨u, effects, hu, rfl, rfl, rfl⟩

/-- A functor is called on the thread of `l`. -/
theorem call_cases {s₀ : Loops ℓ} {l : ℓ} {answers : Answers} {cb : Functor ℕ}
    (henabled : s.Enabled a) (hturn : s.turnOf a = functorTurn answers cb) (hstill : Still s s₀)
    (hlog : s₀.log = s.log) (h : s₀.call l answers cb = .ok t) : Cases s a t := by
  have hsame : Same s s₀ := ⟨hstill.server_eq, hstill.conn_eq, hlog, fun l => by rw [hstill.loop_eq]⟩
  obtain ⟨conn, task⟩ := cb
  cases task with
  | conneectEstableished | conneectDestroyed =>
    obtain ⟨u, effects, hu, ht⟩ := execNoted_exec h
    exact .of_exec (f := _) henabled hturn hstill hu ht
  | removeConnectionInLoop =>
    obtain rfl := Except.ok.inj h
    exact .of_still (fun _ => hturn) (hsame.trans (same_goto ..))
  | sendInLoop data len =>
    obtain ⟨⟨u, effects⟩, hu, h⟩ := bind_eq_ok.1 h
    obtain rfl := Except.ok.inj h
    exact .of_exec (f := .sendInLoop answers.text len answers.write) henabled hturn hstill hu (.refl u)
  | shutdownInLoop =>
    obtain ⟨⟨u, effects⟩, hu, h⟩ := bind_eq_ok.1 h
    obtain rfl := Except.ok.inj h
    exact .of_exec (f := .shutdownInLoop) henabled hturn hstill hu (.refl u)
  | writeCompleteCallback | highWaterMarkCallback =>
    obtain rfl := Except.ok.inj h
    exact .of_still (fun _ => hturn) hsame

/-- What the thread of `l` goes on with. -/
theorem proceed_cases {l : ℓ} {answers : Answers} (h : s.proceed l answers = .ok t) :
    Cases s (.proceed l answers) t := by
  have henabled : s.Enabled (.proceed l answers) := trivial
  unfold proceed at h
  split at h
  next hstack =>
    obtain rfl := Except.ok.inj h
    exact .of_still (fun _ => by simp only [turnOf, hstack]) ⟨rfl, rfl, rfl, fun _ => rfl⟩
  next conn rest hstack =>
    obtain ⟨ioLoop, hloop, h⟩ := bind_eq_ok.1 h
    unfold runInLoop at h
    split at h
    next hl =>
      subst hl
      refine call_cases henabled ?_ (still_goto s l rest) rfl h
      simp only [turnOf, hstack, if_pos hloop]
      rfl
    next hl =>
      obtain rfl := Except.ok.inj h
      have hturn : s.turnOf (.proceed l answers) = none := by
        have hother : s.getLoop conn ≠ .ok l := fun heq =>
          hl (Except.ok.inj (heq.symm.trans hloop))
        simp only [turnOf, hstack, if_neg hother]
      exact .of_still (fun _ => hturn) ((same_goto s l rest).trans (same_setPending ..))
  next hstack =>
    obtain rfl := Except.ok.inj h
    exact .of_still (fun _ => by simp only [turnOf, hstack]) (same_goto ..)
  next conn guard cb callbacks rest hstack =>
    obtain ⟨⟨u, effects⟩, hu, h⟩ := bind_eq_ok.1 h
    obtain rfl := Except.ok.inj h
    have hturn : s.turnOf (.proceed l answers) = some (conn, .event (cb.event answers)) := by
      simp only [turnOf, hstack]
    refine .of_exec henabled hturn (still_goto s l _) hu ?_
    split
    · exact ⟨rfl, rfl, rfl⟩
    · exact .refl u
  next conn rest hstack =>
    have hturn : s.turnOf (.proceed l answers) = none := by simp only [turnOf, hstack]
    unfold runInLoop at h
    split at h
    next =>
      refine call_cases henabled ?_ (still_goto s l rest) rfl h
      exact hturn
    next =>
      obtain rfl := Except.ok.inj h
      exact .of_still (fun _ => hturn) ((same_goto s l rest).trans (same_setPending ..))
  next conn rest hstack =>
    obtain rfl := Except.ok.inj h
    have hturn : s.turnOf (.proceed l answers) = none := by simp only [turnOf, hstack]
    refine .rest (turn_eq_none fun _ => hturn) rfl (fun _ => rfl) ?_ ?_
    · exact (TcpServer.removeConnectionInLoop_fields s.server conn).1
    · exact (TcpServer.removeConnectionInLoop_fields s.server conn).2
  next conn rest hstack =>
    obtain ⟨ioLoop, -, h⟩ := bind_eq_ok.1 h
    obtain rfl := Except.ok.inj h
    have hturn : s.turnOf (.proceed l answers) = none := by simp only [turnOf, hstack]
    exact .of_still (fun _ => hturn) ((same_goto s l rest).trans (same_setPending ..))

/-- **A step** is one of the four cases. -/
theorem cases_of_step (h : s.step a = .ok t) : Cases s a t := by
  unfold Loops.step at h
  split at h
  next henabled =>
    cases a with
    | accept sockFd localAddr peerAddr complete =>
      obtain ⟨server, hserver, h⟩ := bind_eq_ok.1 h
      obtain rfl := Except.ok.inj h
      exact .accept (turn_eq_none fun _ => rfl) rfl hserver rfl rfl
    | dispatch l conn revents =>
      obtain rfl := Except.ok.inj h
      exact .dispatch (i := conn) (turn_eq_none fun _ => rfl) rfl rfl rfl
    | proceed l answers => exact proceed_cases h
    | swap l =>
      obtain rfl := Except.ok.inj h
      exact .of_still (fun _ => rfl) ((same_round s l _).trans (same_setPending ..))
    | next l answers =>
      simp only [perform] at h
      split at h
      next hfunctors =>
        obtain rfl := Except.ok.inj h
        exact .of_still (fun _ => by simp only [turnOf, hfunctors]) ⟨rfl, rfl, rfl, fun _ => rfl⟩
      next f fs hfunctors =>
        exact call_cases henabled (by simp only [turnOf, hfunctors]) (still_round s l fs) rfl h
    | user conn call =>
      obtain ⟨⟨u, effects⟩, hu, h⟩ := bind_eq_ok.1 h
      obtain rfl := Except.ok.inj h
      exact .of_exec (f := .user call) henabled rfl (.refl s) hu (.refl u)
  next hnot =>
    obtain rfl := Except.ok.inj h
    exact .of_still (fun henabled => absurd henabled hnot) ⟨rfl, rfl, rfl, fun _ => rfl⟩

/-! ## The connection whose turn it is -/

variable {phase : ℕ → Phase} {gone : List ℕ}

/-- What the stage of a created connection says of its state. -/
theorem Ok.allows_state (hs : s.Ok phase gone) {p : Phase} (hphase : phase i = p)
    (hp : p ≠ .unborn) : p.stage.Allows (s.conn i).state_ := by
  have hborn : (phase i).stage ≠ .unborn := fun h =>
    hp (hphase.symm.trans (Phase.of_stage_unborn h))
  obtain ⟨c, hc⟩ := hs.conns.exists_created hborn
  exact hphase ▸ (hs.conns.part i c hc).state

/-- A connection takes its turns in the states that allow them, and once it is torn down, only the
user still calls it. -/
theorem Ok.allowed (hs : s.Ok phase gone) (hturn : s.turn a = some (i, f)) :
    f.Allowed (s.conn i).state_ ∧ (phase i = .torn → ∃ call, f = .user call) := by
  have henabled : s.Enabled a := by
    by_contra hnot
    rw [turn, if_neg hnot] at hturn
    cases hturn
  rw [turn_eq henabled] at hturn
  cases a with
  | accept | dispatch | swap => cases hturn
  | user conn call =>
    obtain ⟨rfl, rfl⟩ := Prod.mk.inj (Option.some.inj hturn)
    exact ⟨trivial, fun _ => ⟨call, rfl⟩⟩
  | proceed l answers =>
    simp only [turnOf] at hturn
    split at hturn
    next conn rest hstack =>
      split at hturn
      next =>
        obtain ⟨rfl, rfl⟩ := Prod.mk.inj (Option.some.inj hturn)
        obtain ⟨hphase, -⟩ := hs.take_stack hstack rfl
        refine ⟨hs.allows_state hphase Phase.noConfusion, fun htorn => ?_⟩
        exact Phase.noConfusion (hphase.symm.trans htorn)
      next => cases hturn
    next conn guard cb callbacks rest hstack =>
      obtain ⟨rfl, rfl⟩ := Prod.mk.inj (Option.some.inj hturn)
      have hmem : .handleEvent conn guard (cb :: callbacks) ∈ s.stack l := by
        rw [hstack]
        exact List.mem_cons_self
      obtain ⟨hne, -⟩ := hs.handles l conn guard _ hmem
      exact ⟨trivial, fun htorn => absurd htorn hne⟩
    next => cases hturn
  | next l answers =>
    simp only [turnOf] at hturn
    split at hturn
    next => cases hturn
    next g fs hfunctors =>
      obtain ⟨conn, task⟩ := g
      have hmem : ⟨conn, task⟩ ∈ s.queue l := by simp [queue, hfunctors]
      cases task with
      | conneectEstableished | conneectDestroyed =>
        obtain ⟨rfl, rfl⟩ := Prod.mk.inj (Option.some.inj hturn)
        obtain ⟨hphase, -⟩ := hs.take_functor hfunctors rfl
        refine ⟨hs.allows_state hphase Phase.noConfusion, fun htorn => ?_⟩
        exact Phase.noConfusion (hphase.symm.trans htorn)
      | sendInLoop | shutdownInLoop => exact absurd (hs.tasks l _ hmem) id
      | removeConnectionInLoop | writeCompleteCallback | highWaterMarkCallback => cases hturn

/-- A turn of a connection that is not torn down. -/
theorem Ok.turns (hs : s.Ok phase gone) {c : Created ℓ} {w : World ℕ} (hturn : s.turn a = some (i, f))
    (hc : s.server.created[i]? = some c) (hexec : f.exec (s.world c.loop_ i) = .ok w)
    (hne : phase i ≠ .torn) :
    (s.world c.loop_ i).Turns w :=
  Turn.turns ((hs.conns.part i c hc).sound (Phase.stage_ne_torn.2 hne)) rfl
    (hs.allowed hturn).1 hexec

/-- A turn of a connection that is torn down leaves its loop, its state and its channel. -/
theorem Ok.turn_of_torn (hs : s.Ok phase gone) {c : Created ℓ} {w : World ℕ}
    (hturn : s.turn a = some (i, f)) (hexec : f.exec (s.world c.loop_ i) = .ok w)
    (htorn : phase i = .torn) : w.loop = s.loop c.loop_ ∧
      w.conn.state_ = (s.conn i).state_ ∧ w.conn.channel_ = (s.conn i).channel_ := by
  obtain ⟨call, rfl⟩ := (hs.allowed hturn).2 htorn
  have hstate : (s.conn i).state_ = .kDisconnected := hs.allows_state htorn Phase.noConfusion
  exact UserCall.of_disconnected (w := s.world c.loop_ i) hstate hexec

end Loops

end Muduo
