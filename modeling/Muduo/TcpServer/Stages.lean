import Muduo.TcpServer.Loops
import Muduo.TcpServer.Registry

/-!
# The stages of a connection

A connection with all its loops goes through the stages of `Stage`, each of which says which of its
functions have run and what its state is. `Conns` is the invariant of all connections together: each
is what its stage says (`Part`), those that are not torn down have descriptors of their own, and no
poller holds the descriptor of another. A turn of one connection on its loop keeps the invariant for
all others (`Conns.moved`), and so do the two functions of the server.
-/

namespace Muduo

open Run

variable {ι ℓ : Type}

/-! ## Turns -/

/-- A connection has taken a turn on its loop: for the loop, only the entry of its descriptor has
changed, and the queue has grown by calls back to the user. -/
structure World.Turns (w w' : World ι) : Prop where
  self_eq : w'.self = w.self
  sound : w'.Sound
  fd_eq : w'.conn.channel_.fd_ = w.conn.channel_.fd_
  frame : Frame w.loop.poller w'.loop.poller w.conn.channel_.fd_
  queue : ∃ news, w'.loop.pendingFunctors_ = w.loop.pendingFunctors_ ++ news ∧
    ∀ f ∈ news, f.task.IsCallback

/-- The state is the same, or has been moved on by `shutdown`. -/
def StateE.Keeps (x y : StateE) : Prop := y = x ∨ x = .kConnected ∧ y = .kDisconnecting

variable {w w' : World ι}

theorem World.Refines.turns {l : Link ι} (h : w.Refines w' l) (hself : l.self = w.self)
    (hgrows : w.link.Grows l) : w.Turns w' := by
  obtain ⟨hsound, rfl, hfd, hframe⟩ := h
  exact ⟨hself, hsound, hfd, hframe, hgrows.queue⟩

theorem TcpConnection.conneectEstableished_turns (hw : w.Sound)
    (h : TcpConnection.conneectEstableished w = .ok w') :
    w.Turns w' ∧ w'.conn.state_ = .kConnected := by
  obtain ⟨v, hv, hrefines⟩ := conneectEstableished_spec hw
  obtain rfl := Except.ok.inj (hv.symm.trans h)
  have hgrows : w.link.Grows w.link.conneectEstableished := .of_eq (List.prefix_append _ _) rfl
  exact ⟨hrefines.turns rfl hgrows, congrArg Link.state_ hrefines.link_eq⟩

/-- `conneectDestroyed` of a disconnected connection takes its channel out of the poller. -/
theorem TcpConnection.conneectDestroyed_turns (hw : w.Sound)
    (hstate : w.conn.state_ = .kDisconnected) (h : TcpConnection.conneectDestroyed w = .ok w') :
    w.Turns w' ∧ w'.conn.state_ = .kDisconnected ∧ w'.conn.channel_.index_ = .kNew := by
  obtain ⟨v, hv, hrefines⟩ := conneectDestroyed_spec hw
  obtain rfl := Except.ok.inj (hv.symm.trans h)
  have hlink : w.link.conneectDestroyed = w.link.call .remove := by
    rw [Link.conneectDestroyed, World.link_state, hstate, if_neg StateE.noConfusion]
  rw [hlink] at hrefines
  refine ⟨hrefines.turns rfl (.of_eq List.prefix_rfl rfl), ?_, ?_⟩
  · exact (congrArg Link.state_ hrefines.link_eq).trans hstate
  · exact congrArg (fun l => l.channel_.index_) hrefines.link_eq

/-- A callback of the channel either closes the connection, which it tells the server, or keeps its
state. -/
theorem Event.turns (hw : w.Sound) (htrace : w.trace = []) {e : Event}
    (h : e.op.exec w = .ok w') : w.Turns w' ∧
      (.closeCallback ∉ w'.trace ∧ w.conn.state_.Keeps w'.conn.state_ ∨
        .closeCallback ∈ w'.trace ∧ w'.conn.state_ = .kDisconnected ∧
          (w.conn.state_ = .kConnected ∨ w.conn.state_ = .kDisconnecting)) := by
  have hrefines := TcpConnection.Op.exec_ok hw h
  refine ⟨hrefines.turns (e.link_self w) (e.grows w), ?_⟩
  cases TcpConnection.Op.exec_moves hw h with
  | inside hextends hstate =>
    obtain ⟨news, hnews, hnot⟩ := hextends
    refine .inl ⟨fun hmem => ?_, hstate⟩
    rw [show w'.trace = w.trace ++ news from hnews, htrace] at hmem
    exact (hnot _ hmem).1 rfl
  | closes hlive heq =>
    refine .inr ⟨?_, congrArg Link.state_ heq, hlive⟩
    rw [show w'.trace = w.link.handleClose.trace from congrArg Link.trace heq,
      Link.handleClose_trace]
    simp

/-- A call of the user keeps the state, or half-closes. -/
theorem UserCall.turns (hw : w.Sound) {call : UserCall} (h : call.exec w = .ok w') :
    w.Turns w' ∧ w.conn.state_.Keeps w'.conn.state_ := by
  cases call with
  | send buf write =>
    obtain ⟨-, hsend⟩ := TcpConnection.send_ok h
    obtain ⟨l, hrefines, hl⟩ := TcpConnection.sendInLoop_cases hw (castInt_range _) hsend
    rcases hl with rfl | ⟨n, errno, rfl⟩ | rfl
    · exact ⟨hrefines.turns rfl (.of_eq List.prefix_rfl rfl),
        .inl (congrArg Link.state_ hrefines.link_eq)⟩
    · exact ⟨hrefines.turns rfl (w.link.grows_emit _),
        .inl (congrArg Link.state_ hrefines.link_eq)⟩
    · have hstate := (congrArg Link.state_ hrefines.link_eq).trans (w.link.send_state _ _)
      exact ⟨hrefines.turns (w.link.send_self _ _) (w.link.grows_send _ _), .inl hstate⟩
  | shutdown =>
    obtain rfl := Except.ok.inj h
    have hrefines := TcpConnection.shutdown_spec hw true
    refine ⟨hrefines.turns (w.link.shutdown_self true) w.link.grows_shutdown, ?_⟩
    have hstate := congrArg Link.state_ hrefines.link_eq
    by_cases hconnected : w.conn.state_ = .kConnected
    · refine .inr ⟨hconnected, hstate.trans ?_⟩
      simp [Link.shutdown, hconnected]
    · refine .inl (hstate.trans ?_)
      simp [Link.shutdown, hconnected]
  | setWriteCompleteCallback | setHighWaterMarkCallback =>
    obtain rfl := Except.ok.inj h
    exact ⟨⟨rfl, ⟨hw.valid, hw.agrees⟩, rfl, Frame.refl _ _, [], by simp⟩, .inl rfl⟩

/-- On a disconnected connection the user can only set callbacks. -/
theorem UserCall.of_disconnected (hstate : w.conn.state_ = .kDisconnected) {call : UserCall}
    (h : call.exec w = .ok w') : w'.loop = w.loop ∧ w'.conn.state_ = w.conn.state_ ∧
      w'.conn.channel_ = w.conn.channel_ := by
  cases call with
  | send buf write =>
    obtain ⟨hconnected, -⟩ := TcpConnection.send_ok h
    exact absurd (hstate.symm.trans hconnected) StateE.noConfusion
  | shutdown =>
    obtain rfl := Except.ok.inj h
    simp [TcpConnection.shutdown, hstate]
  | setWriteCompleteCallback | setHighWaterMarkCallback =>
    obtain rfl := Except.ok.inj h
    exact ⟨rfl, rfl, rfl⟩

/-! ## Stages -/

/-- How far a connection has got. -/
inductive Stage
  /-- It has not been created. -/
  | unborn
  /-- It has been created. -/
  | fresh
  /-- `conneectEstableished` has run. -/
  | live
  /-- `handleClose` has run. -/
  | closed
  /-- The server has erased its entry. -/
  | removed
  /-- `conneectDestroyed` has run. -/
  | torn
  deriving DecidableEq

/-- The functions that have run, each on the loop of the connection. -/
def Stage.history (l : ℓ) : Stage → List (Ran × ℓ)
  | unborn | fresh => []
  | live => [(.conneectEstableished, l)]
  | closed | removed => [(.conneectEstableished, l), (.handleClose, l)]
  | torn => [(.conneectEstableished, l), (.handleClose, l), (.conneectDestroyed, l)]

theorem Stage.history_prefix (l : ℓ) (p : Stage) : p.history l <+:
    [(.conneectEstableished, l), (.handleClose, l), (.conneectDestroyed, l)] := by
  cases p <;> exact ⟨_, rfl⟩

/-- The states of a connection at the stage. -/
def Stage.Allows (state : StateE) : Stage → Prop
  | unborn => False
  | fresh => state = .kConnecting
  | live => state = .kConnected ∨ state = .kDisconnecting
  | closed | removed | torn => state = .kDisconnected

/-- The server has erased the entry of the connection. -/
def Stage.Gone (p : Stage) : Prop := p = .removed ∨ p = .torn

theorem Stage.Allows.keeps {p : Stage} {x y : StateE} (h : p.Allows x) (hkeeps : x.Keeps y) :
    p.Allows y := by
  rcases hkeeps with rfl | ⟨rfl, rfl⟩
  · exact h
  · cases p with
    | live => exact .inr rfl
    | unborn => exact absurd h id
    | fresh | closed | removed | torn => exact absurd h StateE.noConfusion

/-- Only a live connection can be closed. -/
theorem Stage.Allows.live {p : Stage} {x : StateE} (h : p.Allows x)
    (hlive : x = .kConnected ∨ x = .kDisconnecting) : p = .live := by
  cases p with
  | live => rfl
  | unborn => exact absurd h id
  | fresh | closed | removed | torn =>
    obtain rfl : x = _ := h
    simp at hlive

namespace Loops

/-- The connection is what its stage says. -/
structure Part (s : Loops ℓ) (conn : ℕ) (c : Created ℓ) (p : Stage) : Prop where
  history : s.history conn = p.history c.loop_
  state : p.Allows (s.conn conn).state_
  sound : p ≠ .torn → (s.world c.loop_ conn).Sound
  index : p = .torn → (s.conn conn).channel_.index_ = .kNew

/-- The invariant of all connections; `gone` are those whose entry the server has erased. -/
structure Conns (s : Loops ℓ) (stage : ℕ → Stage) (gone : List ℕ) : Prop where
  registered : s.server.Registered gone
  base : s.server.threadPool_.baseLoop_ = s.server.loop_
  unborn : ∀ i, s.server.created[i]? = none → stage i = .unborn ∧ s.history i = []
  part : ∀ i c, s.server.created[i]? = some c → s.Part i c (stage i)
  mem_all : ∀ (i : ℕ) (c : Created ℓ), s.server.created[i]? = some c → c.loop_ ∈ s.all
  mem_gone : ∀ i, i ∈ gone ↔ (stage i).Gone
  distinct : ∀ i j c d, s.server.created[i]? = some c → s.server.created[j]? = some d →
    stage i ≠ .torn → stage j ≠ .torn →
    (s.conn i).channel_.fd_ = (s.conn j).channel_.fd_ → i = j
  vacant : ∀ l fd, (s.loop l).poller.entry fd ≠ ⟨none, none⟩ →
    ∃ (i : ℕ) (c : Created ℓ), s.server.created[i]? = some c ∧ c.loop_ = l ∧
      (s.conn i).channel_.fd_ = fd ∧ stage i ≠ .torn

variable {s t : Loops ℓ} {stage : ℕ → Stage} {gone : List ℕ}

/-- A connection that has a stage has been created. -/
theorem Conns.exists_created (hs : s.Conns stage gone) {i : ℕ} (hi : stage i ≠ .unborn) :
    ∃ c, s.server.created[i]? = some c := by
  cases hc : s.server.created[i]? with
  | some c => exact ⟨c, rfl⟩
  | none => exact absurd (hs.unborn i hc).1 hi

/-- A poller holds a connection for its own descriptor and loop, until this is torn down. -/
theorem Conns.of_mentions (hs : s.Conns stage gone) {l : ℓ} {fd i : ℕ}
    (h : ((s.loop l).poller.entry fd).Mentions i) :
    ∃ c, s.server.created[i]? = some c ∧ c.loop_ = l ∧ stage i ≠ .torn := by
  have hentry : (s.loop l).poller.entry fd ≠ ⟨none, none⟩ := by
    intro hnone
    simp [hnone, Entry.Mentions] at h
  obtain ⟨j, c, hc, rfl, rfl, hne⟩ := hs.vacant _ _ hentry
  have hagrees : (s.loop c.loop_).poller.entry (s.conn j).channel_.fd_ =
      (s.conn j).channel_.entry j := ((hs.part j c hc).sound hne).agrees
  rw [hagrees] at h
  obtain rfl := Channel.eq_of_mentions h
  exact ⟨c, hc, rfl, hne⟩

/-- Nothing that the invariant speaks of has changed. -/
structure Same (s t : Loops ℓ) : Prop where
  server_eq : t.server = s.server
  conn_eq : t.conn = s.conn
  log_eq : t.log = s.log
  poller_eq : ∀ l, (t.loop l).poller = (s.loop l).poller

theorem Conns.same (hs : s.Conns stage gone) (h : Same s t) : t.Conns stage gone := by
  obtain ⟨server, conn, loop, functors, stack, log⟩ := t
  obtain ⟨hserver, hconn, hlog, hpoller⟩ := h
  simp only at hserver hconn hlog hpoller
  subst hserver hconn hlog
  refine ⟨hs.registered, hs.base, hs.unborn, fun i c hc => ?_, hs.mem_all, hs.mem_gone,
    hs.distinct, fun l fd hentry => ?_⟩
  · have hpart := hs.part i c hc
    refine ⟨hpart.history, hpart.state, fun hne => ⟨(hpart.sound hne).valid, ?_⟩, hpart.index⟩
    simp only [Loops.world, hpoller]
    exact (hpart.sound hne).agrees
  · simp only [hpoller] at hentry
    exact hs.vacant l fd hentry

theorem history_note (s : Loops ℓ) (l : ℓ) (i : ℕ) (f : Ran) (j : ℕ) :
    (s.note l i f).history j = s.history j ++ if i = j then [(f, l)] else [] := by
  rw [history, note, List.filterMap_append, history]
  split <;> simp [*]

theorem getLoop_ok {i : ℕ} {l : ℓ} (h : s.getLoop i = .ok l) :
    ∃ c, s.server.created[i]? = some c ∧ c.loop_ = l := by
  unfold getLoop at h
  split at h
  next c hc => exact ⟨c, hc, Except.ok.inj h⟩
  next => cases h

section

variable [DecidableEq ℓ]

/-- From `s` to `t` the connection and its loop have become those of `w`, and nothing else has
changed but the log. -/
structure Moved (s t : Loops ℓ) (conn : ℕ) (c : Created ℓ) (w : World ℕ) : Prop where
  server_eq : t.server = s.server
  conn_eq : t.conn = Function.update s.conn conn w.conn
  loop_eq : t.loop = Function.update s.loop c.loop_ w.loop
  functors_eq : t.functors = s.functors
  stack_eq : t.stack = s.stack
  history_eq : ∀ i, i ≠ conn → t.history i = s.history i

theorem exec_ok {i : ℕ} {f : World ℕ → Except Fault (World ℕ)} {effects : List Effect}
    (h : s.exec i f = .ok (t, effects)) : ∃ c w, s.server.created[i]? = some c ∧
      f (s.world c.loop_ i) = .ok w ∧ effects = w.trace ∧ Moved s t i c w ∧ t.log = s.log := by
  obtain ⟨ioLoop, hloop, h⟩ := bind_eq_ok.1 h
  obtain ⟨w, hw, h⟩ := bind_eq_ok.1 h
  obtain ⟨rfl, rfl⟩ := Prod.mk.inj (Except.ok.inj h)
  obtain ⟨c, hc, rfl⟩ := getLoop_ok hloop
  exact ⟨c, w, hc, hw, rfl, ⟨rfl, rfl, rfl, rfl, rfl, fun _ _ => rfl⟩, rfl⟩

theorem Moved.note {i : ℕ} {c : Created ℓ} {w : World ℕ} (ht : Moved s t i c w) (l : ℓ) (f : Ran) :
    Moved s (t.note l i f) i c w := by
  refine ⟨ht.server_eq, ht.conn_eq, ht.loop_eq, ht.functors_eq, ht.stack_eq, fun j hj => ?_⟩
  rw [history_note, if_neg (Ne.symm hj), List.append_nil, ht.history_eq j hj]

theorem execNoted_ok {i : ℕ} {l : ℓ} {ran : Ran} {f : World ℕ → Except Fault (World ℕ)}
    (h : s.execNoted l i ran f = .ok t) : ∃ c w, s.server.created[i]? = some c ∧
      f (s.world c.loop_ i) = .ok w ∧ Moved s t i c w ∧
        t.history i = s.history i ++ [(ran, l)] := by
  obtain ⟨⟨u, effects⟩, hu, h⟩ := bind_eq_ok.1 h
  obtain rfl := Except.ok.inj h
  obtain ⟨c, w, hc, hw, -, hmoved, hlog⟩ := exec_ok hu
  refine ⟨c, w, hc, hw, hmoved.note l ran, ?_⟩
  rw [history_note, if_pos rfl, history, hlog, history]

theorem Moved.conn_self {i : ℕ} {c : Created ℓ} {w : World ℕ} (ht : Moved s t i c w) :
    t.conn i = w.conn := by
  rw [ht.conn_eq, Function.update_self]

theorem Moved.conn_of_ne {i : ℕ} {c : Created ℓ} {w : World ℕ} (ht : Moved s t i c w) {j : ℕ}
    (hj : j ≠ i) : t.conn j = s.conn j := by
  rw [ht.conn_eq, Function.update_of_ne hj]

theorem Moved.loop_self {i : ℕ} {c : Created ℓ} {w : World ℕ} (ht : Moved s t i c w) :
    t.loop c.loop_ = w.loop := by
  rw [ht.loop_eq, Function.update_self]

theorem Moved.loop_of_ne {i : ℕ} {c : Created ℓ} {w : World ℕ} (ht : Moved s t i c w) {l : ℓ}
    (hl : l ≠ c.loop_) : t.loop l = s.loop l := by
  rw [ht.loop_eq, Function.update_of_ne hl]

theorem Moved.all_eq {i : ℕ} {c : Created ℓ} {w : World ℕ} (ht : Moved s t i c w) :
    t.all = s.all := by
  rw [all, ht.server_eq, all]

/-- The connection whose turn it was. -/
theorem Moved.part {i : ℕ} {c : Created ℓ} {w : World ℕ} (ht : Moved s t i c w)
    (hturns : (s.world c.loop_ i).Turns w) {p : Stage} (hhistory : t.history i = p.history c.loop_)
    (hstate : p.Allows w.conn.state_) (htorn : p = .torn → w.conn.channel_.index_ = .kNew) :
    t.Part i c p := by
  have hself : w.self = i := hturns.self_eq
  refine ⟨hhistory, ?_, fun _ => ⟨?_, ?_⟩, fun h => ?_⟩
  · rwa [ht.conn_self]
  · simp only [Loops.world, ht.conn_self]
    exact hturns.sound.valid
  · simp only [Loops.world, ht.conn_self, ht.loop_self]
    exact hself ▸ hturns.sound.agrees
  · rw [ht.conn_self]
    exact htorn h

/-- A connection whose turn it was not, and whose descriptor is another while it is held. -/
theorem Part.moved {i j : ℕ} {c d : Created ℓ} {p : Stage} (hpart : s.Part j d p) {w : World ℕ}
    (ht : Moved s t i c w) (hturns : (s.world c.loop_ i).Turns w) (hji : j ≠ i)
    (hfd : p ≠ .torn → (s.conn j).channel_.fd_ ≠ (s.conn i).channel_.fd_) : t.Part j d p := by
  have hconn := ht.conn_of_ne hji
  refine ⟨(ht.history_eq j hji).trans hpart.history, ?_, fun hj => ⟨?_, ?_⟩, fun hj => ?_⟩
  · rw [hconn]
    exact hpart.state
  · simp only [Loops.world, hconn]
    exact (hpart.sound hj).valid
  · simp only [Loops.world, hconn]
    by_cases hl : d.loop_ = c.loop_
    · rw [hl, ht.loop_self]
      exact hturns.frame.agrees (hfd hj) (hl ▸ (hpart.sound hj).agrees)
    · rw [ht.loop_of_ne hl]
      exact (hpart.sound hj).agrees
  · rw [hconn]
    exact hpart.index hj

/-- What a poller holds after the turn is held for a connection that is not torn down. -/
theorem Conns.vacant_moved (hs : s.Conns stage gone) {i : ℕ} {c : Created ℓ}
    (hc : s.server.created[i]? = some c) {w : World ℕ} (hturns : (s.world c.loop_ i).Turns w)
    (ht : Moved s t i c w) {p : Stage} (htorn : p = .torn → w.conn.channel_.index_ = .kNew)
    {l : ℓ} {fd : ℕ} (hentry : (t.loop l).poller.entry fd ≠ ⟨none, none⟩) :
    ∃ (j : ℕ) (d : Created ℓ), s.server.created[j]? = some d ∧ d.loop_ = l ∧
      (s.conn j).channel_.fd_ = fd ∧ Function.update stage i p j ≠ .torn := by
  have hold : (s.loop l).poller.entry fd ≠ ⟨none, none⟩ →
      (l = c.loop_ → fd ≠ (s.conn i).channel_.fd_) →
      ∃ (j : ℕ) (d : Created ℓ), s.server.created[j]? = some d ∧ d.loop_ = l ∧
        (s.conn j).channel_.fd_ = fd ∧ Function.update stage i p j ≠ .torn := by
    intro hentry hfd
    obtain ⟨j, d, hd, hdl, hj, hstage⟩ := hs.vacant l fd hentry
    have hji : j ≠ i := by
      rintro rfl
      obtain rfl := Option.some.inj (hc.symm.trans hd)
      exact hfd hdl.symm hj.symm
    exact ⟨j, d, hd, hdl, hj, by rwa [Function.update_of_ne hji]⟩
  by_cases hl : l = c.loop_
  · subst hl
    rw [ht.loop_self] at hentry
    by_cases hfd : fd = (s.conn i).channel_.fd_
    · -- the entry of the connection itself is vacant once it is torn down
      refine ⟨i, c, hc, rfl, hfd.symm, ?_⟩
      rw [Function.update_self]
      rintro rfl
      refine hentry ?_
      have hself : w.self = i := hturns.self_eq
      have hagrees : Agrees w.loop.poller i w.conn.channel_ := hself ▸ hturns.sound.agrees
      have hvacant : w.loop.poller.entry w.conn.channel_.fd_ = ⟨none, none⟩ := by
        rw [hagrees, Channel.entry, htorn rfl]
      rwa [hfd, ← show w.conn.channel_.fd_ = (s.conn i).channel_.fd_ from hturns.fd_eq]
    · rw [hturns.frame.entry_eq fd hfd] at hentry
      exact hold hentry fun _ => hfd
  · rw [ht.loop_of_ne hl] at hentry
    exact hold hentry fun h => absurd h hl

/-- **A turn of one connection** keeps the invariant for all others. -/
theorem Conns.moved (hs : s.Conns stage gone) {i : ℕ} {c : Created ℓ}
    (hc : s.server.created[i]? = some c) (hne : stage i ≠ .torn) {w : World ℕ}
    (hturns : (s.world c.loop_ i).Turns w) (ht : Moved s t i c w) {p : Stage}
    (hhistory : t.history i = p.history c.loop_) (hstate : p.Allows w.conn.state_)
    (hgone : p.Gone ↔ (stage i).Gone) (htorn : p = .torn → w.conn.channel_.index_ = .kNew) :
    t.Conns (Function.update stage i p) gone := by
  have hfd (j : ℕ) : (t.conn j).channel_.fd_ = (s.conn j).channel_.fd_ := by
    by_cases hj : j = i
    · subst hj
      rw [ht.conn_self]
      exact hturns.fd_eq
    · rw [ht.conn_of_ne hj]
  have hold (j : ℕ) (hj : Function.update stage i p j ≠ .torn) : stage j ≠ .torn := by
    by_cases hji : j = i
    · exact hji ▸ hne
    · rwa [Function.update_of_ne hji] at hj
  refine ⟨ht.server_eq ▸ hs.registered, ?_, fun j hj => ?_, fun j d hd => ?_, fun j d hd => ?_,
    fun j => ?_, fun j k d d' hd hd' hj hk heq => ?_, fun l fd hentry => ?_⟩
  · rw [ht.server_eq]
    exact hs.base
  · rw [ht.server_eq] at hj
    have hji : j ≠ i := by
      rintro rfl
      rw [hc] at hj
      cases hj
    rw [Function.update_of_ne hji, ht.history_eq j hji]
    exact hs.unborn j hj
  · rw [ht.server_eq] at hd
    by_cases hji : j = i
    · subst hji
      obtain rfl := Option.some.inj (hc.symm.trans hd)
      rw [Function.update_self]
      exact ht.part hturns hhistory hstate htorn
    · rw [Function.update_of_ne hji]
      exact (hs.part j d hd).moved ht hturns hji fun hj heq =>
        hji (hs.distinct j i d c hd hc hj hne heq)
  · rw [ht.server_eq] at hd
    exact ht.all_eq ▸ hs.mem_all j d hd
  · by_cases hji : j = i
    · subst hji
      rw [Function.update_self, hgone]
      exact hs.mem_gone j
    · rw [Function.update_of_ne hji]
      exact hs.mem_gone j
  · rw [ht.server_eq] at hd hd'
    rw [hfd, hfd] at heq
    exact hs.distinct j k d d' hd hd' (hold j hj) (hold k hk) heq
  · rw [ht.server_eq]
    simp only [hfd]
    exact hs.vacant_moved hc hturns ht htorn hentry

/-- What the user does to a connection that is torn down. -/
theorem Conns.settled (hs : s.Conns stage gone) {i : ℕ} {c : Created ℓ} (hi : stage i = .torn)
    {w : World ℕ} (ht : Moved s t i c w) (hhistory : t.history i = s.history i)
    (hloop : w.loop = s.loop c.loop_) (hstate : w.conn.state_ = (s.conn i).state_)
    (hchannel : w.conn.channel_ = (s.conn i).channel_) : t.Conns stage gone := by
  have hloops : t.loop = s.loop := by rw [ht.loop_eq, hloop, Function.update_eq_self]
  have hchannels (j : ℕ) : (t.conn j).channel_ = (s.conn j).channel_ := by
    by_cases hj : j = i
    · rw [hj, ht.conn_self, hchannel]
    · rw [ht.conn_of_ne hj]
  have hhistories (j : ℕ) : t.history j = s.history j := by
    by_cases hj : j = i
    · rw [hj, hhistory]
    · exact ht.history_eq j hj
  refine ⟨ht.server_eq ▸ hs.registered, ?_, fun j hj => ?_, fun j d hd => ?_, fun j d hd => ?_,
    hs.mem_gone, fun j k d d' hd hd' hj hk heq => ?_, fun l fd hentry => ?_⟩
  · rw [ht.server_eq]
    exact hs.base
  · rw [ht.server_eq] at hj
    rw [hhistories]
    exact hs.unborn j hj
  · rw [ht.server_eq] at hd
    have hpart := hs.part j d hd
    refine ⟨(hhistories j).trans hpart.history, ?_, fun hj => ?_, fun hj => ?_⟩
    · by_cases hji : j = i
      · rw [hji, ht.conn_self, hstate]
        exact hji ▸ hpart.state
      · rw [ht.conn_of_ne hji]
        exact hpart.state
    · have hji : j ≠ i := by
        rintro rfl
        exact hj hi
      rw [Loops.world, ht.conn_of_ne hji, hloops]
      exact hpart.sound hj
    · rw [hchannels]
      exact hpart.index hj
  · rw [ht.server_eq] at hd
    exact ht.all_eq ▸ hs.mem_all j d hd
  · rw [ht.server_eq] at hd hd'
    rw [hchannels, hchannels] at heq
    exact hs.distinct j k d d' hd hd' hj hk heq
  · rw [hloops] at hentry
    rw [ht.server_eq]
    simp only [hchannels]
    exact hs.vacant l fd hentry

end

/-! ## The functions of the server -/

/-- A server that has created no connection, with new loops. -/
theorem start_conns {server : TcpServer ℓ} (hregistered : server.Registered [])
    (hbase : server.threadPool_.baseLoop_ = server.loop_) (hnone : server.created = []) :
    (start server).Conns (fun _ => .unborn) [] := by
  have hcreated (i : ℕ) : server.created[i]? = none := by rw [hnone, List.getElem?_nil]
  refine ⟨hregistered, hbase, fun i _ => ⟨rfl, rfl⟩, fun i c hc => ?_, fun i c hc => ?_,
    fun i => ?_, fun i j c d hc => ?_, fun l fd hentry => absurd rfl hentry⟩
  · exact absurd ((hcreated i).symm.trans hc) (Option.some_ne_none c).symm
  · exact absurd ((hcreated i).symm.trans hc) (Option.some_ne_none c).symm
  · simp [Stage.Gone]
  · exact absurd ((hcreated i).symm.trans hc) (Option.some_ne_none c).symm

/-- **The server erases** the entry of a closed connection. -/
theorem Conns.removeConnectionInLoop (hs : s.Conns stage gone) {i : ℕ} (hi : stage i = .closed) :
    Conns { s with server := s.server.removeConnectionInLoop i } (Function.update stage i .removed)
      (gone ++ [i]) := by
  obtain ⟨c, hc⟩ := hs.exists_created (i := i) (by rw [hi]; exact Stage.noConfusion)
  have hlt := (List.getElem?_eq_some_iff.1 hc).1
  have hregistered := (hs.registered.removeConnectionInLoop i).1
  rw [TcpServer.removed, if_pos hlt] at hregistered
  have hserver : s.server.removeConnectionInLoop i = { s.server with
      connections_ := Function.update s.server.connections_ c.name_ none } := by
    rw [TcpServer.removeConnectionInLoop, hc]
  rw [hserver] at hregistered ⊢
  have hold (j : ℕ) (hj : Function.update stage i .removed j ≠ .torn) : stage j ≠ .torn := by
    by_cases hji : j = i
    · rw [hji, hi]
      exact Stage.noConfusion
    · rwa [Function.update_of_ne hji] at hj
  refine ⟨hregistered, hs.base, fun j hj => ?_, fun j d hd => ?_, hs.mem_all, fun j => ?_,
    fun j k d d' hd hd' hj hk heq => ?_, fun l fd hentry => ?_⟩
  · have hji : j ≠ i := by
      rintro rfl
      exact Option.some_ne_none c (hc.symm.trans hj)
    rw [Function.update_of_ne hji]
    exact hs.unborn j hj
  · have hpart := hs.part j d hd
    by_cases hji : j = i
    · subst hji
      rw [hi] at hpart
      rw [Function.update_self]
      exact ⟨hpart.history, hpart.state, fun _ => hpart.sound Stage.noConfusion,
        fun h => Stage.noConfusion h⟩
    · rw [Function.update_of_ne hji]
      exact ⟨hpart.history, hpart.state, hpart.sound, hpart.index⟩
  · rw [List.mem_append, List.mem_singleton, hs.mem_gone]
    by_cases hji : j = i
    · subst hji
      simp [Stage.Gone]
    · rw [Function.update_of_ne hji, or_iff_left hji]
  · exact hs.distinct j k d d' hd hd' (hold j hj) (hold k hk) heq
  · obtain ⟨j, d, hd, hdl, hj, hstage⟩ := hs.vacant l fd hentry
    refine ⟨j, d, hd, hdl, hj, ?_⟩
    by_cases hji : j = i
    · rw [hji, Function.update_self]
      exact Stage.noConfusion
    · rwa [Function.update_of_ne hji]

/-- A poller holds nothing for a descriptor that only connections that are torn down have. -/
theorem Conns.entry_eq_none (hs : s.Conns stage gone) {fd : ℕ}
    (hfree : ∀ i c, s.server.created[i]? = some c → stage i ≠ .torn → (s.conn i).channel_.fd_ ≠ fd)
    (l : ℓ) : (s.loop l).poller.entry fd = ⟨none, none⟩ := by
  by_contra hentry
  obtain ⟨i, c, hc, -, hfd, hstage⟩ := hs.vacant _ _ hentry
  exact hfree i c hc hstage hfd

/-- **A new connection**, for a descriptor that no connection has unless it is torn down. -/
theorem Conns.newConnection (hs : s.Conns stage gone) {sockFd : ℕ} {localAddr peerAddr : InetAddress}
    {server : TcpServer ℓ} (h : s.server.newConnection sockFd localAddr peerAddr = .ok server)
    (hfree : ∀ i c, s.server.created[i]? = some c → stage i ≠ .torn →
      (s.conn i).channel_.fd_ ≠ sockFd) (complete : Bool) :
    let i := s.server.created.length
    let conn := (TcpConnection.construct sockFd).setWriteCompleteCallback complete
    Conns { s with server := server, conn := Function.update s.conn i conn }
      (Function.update stage i .fresh) gone := by
  intro i conn
  obtain ⟨ioLoop, pool, hpool, hlt, hserver⟩ := TcpServer.newConnection_ok h
  obtain ⟨-, hbase, hloops⟩ := EventLoopThreadPool.getNextLoop_ok hpool
  have hnone : s.server.created[i]? = none := List.getElem?_eq_none (Nat.le_refl _)
  have hnew : conn.channel_.fd_ = sockFd := rfl
  have hcreated (j : ℕ) (d : Created ℓ) (hd : server.created[j]? = some d) :
      j = i ∧ (d.loop_ = s.server.threadPool_.baseLoop_ ∨ d.loop_ ∈ s.server.threadPool_.loops_) ∨
        j ≠ i ∧ s.server.created[j]? = some d := TcpServer.newConnection_created h hd
  have hfd (j : ℕ) (hj : j ≠ i) : Function.update s.conn i conn j = s.conn j :=
    Function.update_of_ne hj ..
  refine ⟨?_, ?_, fun j hj => ?_, fun j d hd => ?_, fun j d hd => ?_, fun j => ?_,
    fun j k d d' hd hd' hj hk heq => ?_, fun l fd hentry => ?_⟩
  · have hcounter := hs.registered.counter
    obtain ⟨server', hserver', hregistered, -⟩ :=
      hs.registered.newConnection (by omega) sockFd localAddr peerAddr
    obtain rfl := Except.ok.inj (hserver'.symm.trans h)
    exact hregistered
  · subst hserver
    exact hbase.trans hs.base
  · have hle : i + 1 ≤ j := by
      subst hserver
      simpa using List.getElem?_eq_none_iff.1 hj
    rw [Function.update_of_ne (Nat.ne_of_gt hle)]
    exact hs.unborn j (List.getElem?_eq_none (Nat.le_of_lt hle))
  · rcases hcreated j d hd with ⟨rfl, -⟩ | ⟨hji, hd'⟩
    · rw [Function.update_self]
      refine ⟨(hs.unborn i hnone).2, ?_, fun _ => ⟨?_, ?_⟩, fun h => Stage.noConfusion h⟩
      · simp only [Function.update_self]
        rfl
      · simp only [Loops.world, Function.update_self]
        exact Buffer.construct_valid Buffer.kInitialSize
      · simp only [Loops.world, Function.update_self]
        exact hs.entry_eq_none hfree d.loop_
    · have hpart := hs.part j d hd'
      rw [Function.update_of_ne hji]
      refine ⟨hpart.history, ?_, fun hne => ?_, fun htorn => ?_⟩
      · simp only [hfd j hji]
        exact hpart.state
      · simp only [Loops.world, hfd j hji]
        exact hpart.sound hne
      · simp only [hfd j hji]
        exact hpart.index htorn
  · have hall : server.loop_ :: server.threadPool_.loops_ = s.all := by
      subst hserver
      rw [hloops, all]
    rw [all, hall]
    rcases hcreated j d hd with ⟨-, hloop | hloop⟩ | ⟨-, hd'⟩
    · rw [hloop, hs.base]
      exact List.mem_cons_self
    · exact List.mem_cons_of_mem _ hloop
    · exact hs.mem_all j d hd'
  · by_cases hji : j = i
    · subst hji
      rw [Function.update_self]
      refine iff_of_false (fun hgone => ?_) (by simp [Stage.Gone])
      exact Nat.lt_irrefl _ (hs.registered.created _ hgone)
    · rw [Function.update_of_ne hji]
      exact hs.mem_gone j
  · rcases hcreated j d hd with ⟨rfl, -⟩ | ⟨hji, hd⟩ <;>
      rcases hcreated k d' hd' with ⟨rfl, -⟩ | ⟨hki, hd'⟩
    · rfl
    · rw [Function.update_of_ne hki] at hk
      simp only [Function.update_self, hfd k hki] at heq
      exact absurd (heq.symm.trans hnew) (hfree k d' hd' hk)
    · rw [Function.update_of_ne hji] at hj
      simp only [Function.update_self, hfd j hji] at heq
      exact absurd (heq.trans hnew) (hfree j d hd hj)
    · rw [Function.update_of_ne hji] at hj
      rw [Function.update_of_ne hki] at hk
      simp only [hfd j hji, hfd k hki] at heq
      exact hs.distinct j k d d' hd hd' hj hk heq
  · obtain ⟨j, d, hd, hdl, hj, hstage⟩ := hs.vacant l fd hentry
    obtain ⟨hji, hd'⟩ := TcpServer.newConnection_keeps h hd
    refine ⟨j, d, hd', hdl, ?_, by rwa [Function.update_of_ne hji]⟩
    simp only [hfd j hji]
    exact hj

end Loops

end Muduo
