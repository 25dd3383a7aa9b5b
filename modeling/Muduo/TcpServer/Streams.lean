import Muduo.TcpServer.Turn

/-!
# The outbound streams of the server

The stream of one connection is conserved along a run of its own steps (`Muduo.TcpConnection.Stream`).
Here it is conserved along every run of the server with all its loops (`Loops.streams`): from the
accept of a connection, over its establishment, its sends and its events, to its teardown, whatever
the other connections and the other threads do meanwhile. `Link.Streamed` is what the stream relies
on, and `Turn.flows` that each turn keeps it.
-/

namespace Muduo

open Run

variable {ι ℓ : Type}

namespace Link

/-- What the stream relies on: a connection that is not established watches for nothing and has
nothing to write, and a live one is `Watching`. -/
structure Streamed (l : Link ι) : Prop where
  fresh : l.state_ = .kConnecting →
    l.channel_.events_ = 0 ∧ l.channel_.index_ = .kNew ∧ l.pending = []
  live : l.Live → l.Watching

variable {l l' : Link ι}

theorem Streamed.of_eq (h : l.Streamed) (hstate : l'.state_ = l.state_)
    (hevents : l'.channel_.events_ = l.channel_.events_)
    (hindex : l'.channel_.index_ = l.channel_.index_) (hpending : l'.pending = l.pending) :
    l'.Streamed := by
  refine ⟨fun hfresh => ?_, fun hlive => ?_⟩
  · rw [hevents, hindex, hpending]
    exact h.fresh (hstate.symm.trans hfresh)
  · have hwatching : l.Watching := by
      refine h.live ?_
      unfold Live at hlive ⊢
      rwa [← hstate]
    refine ⟨hindex.trans hwatching.index_eq, ?_⟩
    refine hwatching.events.imp (fun hs => ?_) (Or.imp (fun hs => ?_) fun hs => ?_)
    · exact hevents.trans hs
    · exact ⟨hevents.trans hs.events_eq, hpending.trans hs.pending_eq⟩
    · exact ⟨hevents.trans hs.events_eq, hpending ▸ hs.pending_ne⟩

theorem Streamed.of_disconnected (h : l.state_ = .kDisconnected) : l.Streamed := by
  refine ⟨fun hfresh => ?_, fun hlive => ?_⟩
  · exact StateE.noConfusion (h.symm.trans hfresh)
  · exact absurd h hlive.ne

/-- A connection that is not disconnected, and whose state is not `kConnecting`, is live. -/
theorem live_of_ne (hconnecting : l.state_ ≠ .kConnecting) (h : l.state_ ≠ .kDisconnected) :
    l.Live := by
  unfold Live
  cases hstate : l.state_ <;> simp_all

/-- The establishment begins the stream. -/
theorem Streamed.conneectEstableished (h : l.Streamed) (hstate : l.state_ = .kConnecting) :
    l.conneectEstableished.Streamed := by
  obtain ⟨hevents, hindex, hpending⟩ := h.fresh hstate
  refine ⟨fun hfresh => StateE.noConfusion hfresh, fun _ => ⟨?_, .inl ?_⟩⟩
  · simp [Link.conneectEstableished, Channel.Call.after, Channel.watched, Index.updated,
      Channel.tie, hindex]
  · simp [Starting, Link.conneectEstableished, Channel.Call.after, Channel.watched, Channel.tie,
      hevents]

theorem conneectEstableished_flows (l : Link ι) :
    ∃ writes rest, l.Flows l.conneectEstableished [] writes rest :=
  ⟨[], [.connectionCallback .kConnected],
    .quiet rfl rfl (by simp [Effect.handed]) (by simp [Effect.Promises])⟩

/-- Bytes are accepted from an empty message only. -/
theorem accepted_nil (l : Link ι) (write : Write) : l.accepted [] write = [] := by
  unfold accepted
  split <;> rfl

end Link

namespace TcpConnection

variable {w w' : World ι}

/-- A connection that watches keeps watching, until it closes. -/
theorem Op.watching_step {op : Op} (hw : w.link.Watching) (hlive : (op.link w).Live) :
    (op.link w).Watching := by
  rcases hw.events with hstarting | hsettled
  · by_cases hempties : op.Empties w
    · cases op with
      | handleWrite write =>
        obtain ⟨hindex, hidle⟩ := Link.handleWrite_of_empties hw hempties
        exact ⟨hindex, .inr (.inl hidle)⟩
      | _ => exact absurd hempties id
    · obtain ⟨hchannel, -⟩ := Op.starting_step hstarting hempties hlive
      refine ⟨?_, .inl ?_⟩
      · rw [hchannel]
        exact hw.index_eq
      · exact (congrArg Channel.events_ hchannel).trans hstarting
  · obtain ⟨hindex, hsettled'⟩ := Op.settled_step hw.index_eq hsettled hlive
    exact ⟨hindex, .inr hsettled'⟩

/-- Before its establishment a connection that does not send stays as it is. -/
theorem Op.fresh_step {op : Op} (hsend : ∀ m write, op ≠ .sendInLoop m write)
    (hwriting : w.link.channel_.isWriting = false) (hfresh : (op.link w).state_ = .kConnecting) :
    (op.link w).channel_ = w.link.channel_ ∧ (op.link w).pending = w.link.pending := by
  cases op with
  | sendInLoop m write => exact absurd rfl (hsend m write)
  | handleRead recv extraBuffer onMessage =>
    simp only [Op.link] at hfresh ⊢
    split at hfresh
    next n input _ =>
      unfold Link.handleRead at hfresh ⊢
      split at hfresh
      next hpos => simp [hpos]
      next hnot =>
        split at hfresh
        next => cases hfresh
        next hne => simp [hnot, hne]
    next => exact ⟨rfl, rfl⟩
  | handleWrite write =>
    rw [Op.link, Link.handleWrite, if_neg (Bool.eq_false_iff.1 hwriting)]
    exact ⟨rfl, rfl⟩
  | handleClose => cases hfresh
  | handleError => exact ⟨rfl, rfl⟩
  | shutdown inLoop => exact w.link.shutdown_fields inLoop
  | shutdownInLoop => simp [Op.link]

/-- Every step keeps what the stream relies on; before the establishment there is no send. -/
theorem Op.streamed {op : Op} (hw : w.link.Streamed)
    (hsend : w.conn.state_ = .kConnecting → ∀ m write, op ≠ .sendInLoop m write) :
    (op.link w).Streamed := by
  refine ⟨fun hfresh => ?_, fun hlive => ?_⟩
  · have hstate : w.conn.state_ = .kConnecting := by
      by_contra hne
      exact Op.link_state_ne hne hfresh
    obtain ⟨hevents, hindex, hpending⟩ := hw.fresh hstate
    have hwriting : w.link.channel_.isWriting = false := by
      rw [Channel.isWriting, hevents]
      decide
    obtain ⟨hchannel, hpending'⟩ := Op.fresh_step (hsend hstate) hwriting hfresh
    rw [hchannel, hpending']
    exact ⟨hevents, hindex, hpending⟩
  · exact Op.watching_step (hw.live (Op.live_of_live hlive)) hlive

end TcpConnection

/-! ## The turns -/

/-- The bytes that the function accepts for sending: `len` of a send on the thread of the loop is the
length as an `int`. -/
def Turn.accepted (w : World ι) : Turn → List UInt8
  | user (.send buf write) => w.link.accepted (buf.1.take (castInt buf.1.length).toNat) write
  | _ => []

variable {w w' : World ι}

theorem Event.flows (e : Event) (w : World ι) :
    ∃ writes rest, w.link.Flows (e.op.link w) [] writes rest := by
  cases e with
  | close => exact w.link.handleClose_flows
  | error => exact ⟨[], [], .quiet (by simp [op, TcpConnection.Op.link]) rfl (by simp) (by simp)⟩
  | read recv extraBuffer onMessage =>
    simp only [op, TcpConnection.Op.link]
    split
    · exact w.link.handleRead_flows _
    · exact ⟨[], [], .quiet (by simp) rfl (by simp) (by simp)⟩
  | write answer => exact w.link.handleWrite_flows answer

/-- A send on the thread of the loop keeps the stream, with as many bytes as its `len` says. -/
theorem TcpConnection.send_flows (hw : w.Sound) (hl : w.link.Streamed) {buf : Text} {write : Write}
    (h : TcpConnection.send w buf.1 write = .ok w') : w'.link.Streamed ∧
      ∃ writes rest, w.link.Flows w'.link ((Turn.user (.send buf write)).accepted w) writes rest := by
  obtain ⟨hstate, hsend⟩ := TcpConnection.send_ok h
  have hmax : buf.1.length ≤ maxSize := buf.2
  have hrange := castInt_range buf.1.length
  have hle := castInt_le buf.1.length
  simp only [Turn.accepted]
  generalize castInt buf.1.length = len at hsend hrange hle ⊢
  by_cases hlen : 0 ≤ len
  · -- the send of a message that an `int` can count
    obtain ⟨n, rfl⟩ := Int.eq_ofNat_of_zero_le hlen
    have hlength : (buf.1.take (n : ℤ).toNat).length ≤ INT_MAX := by
      rw [List.length_take]
      unfold INT_MAX
      omega
    have hlink := (sendInLoop_take hw hmax (Int.ofNat_le.1 hle) hsend).link_eq
    have hconnecting : w.conn.state_ ≠ .kConnecting := by simp [hstate]
    have hlive := Link.live_of_ne (l := w.link) hconnecting
    have hstreamed : ((Op.sendInLoop ⟨_, hlength⟩ write).link w).Streamed :=
      Op.streamed hl fun h => absurd h hconnecting
    rw [hlink]
    exact ⟨hstreamed, (Op.sendInLoop ⟨_, hlength⟩ write).flows fun hne => hl.live (hlive hne)⟩
  · -- a negative `len` reaches past the end as a `size_t`
    have hout : buf.1.length < castSize len := by
      unfold castSize
      unfold maxSize at hmax
      omega
    have hnat : len.toNat = 0 := by omega
    rw [hnat, List.take_zero, Link.accepted_nil]
    rcases sendInLoop_out hw hmax hout hsend with rfl | ⟨errno, hrefines⟩
    · exact ⟨hl, [], [], .quiet (by simp) rfl (by simp) (by simp)⟩
    · rw [hrefines.link_eq]
      exact ⟨hl.of_eq rfl rfl rfl rfl, [], [.write _ (.failed errno)],
        .quiet rfl rfl (by simp [Effect.handed, Wrote.bytes]) (by simp [Effect.Promises])⟩

/-- A call of the user that does not send. -/
theorem UserCall.flows_of_quiet (hl : w.link.Streamed) {call : UserCall}
    (hcall : ∀ buf write, call ≠ .send buf write) (hw : w.Sound) (h : call.exec w = .ok w') :
    w'.link.Streamed ∧ ∃ writes rest, w.link.Flows w'.link [] writes rest := by
  cases call with
  | send buf write => exact absurd rfl (hcall buf write)
  | shutdown =>
    obtain rfl := Except.ok.inj h
    have hlink := (TcpConnection.shutdown_spec hw true).link_eq
    have hstreamed : ((TcpConnection.Op.shutdown true).link w).Streamed :=
      TcpConnection.Op.streamed hl fun _ _ _ => by simp
    rw [hlink]
    refine ⟨hstreamed, ?_⟩
    by_cases hconnecting : w.conn.state_ = .kConnecting
    · have hsame : w.link.shutdown true = w.link := by simp [Link.shutdown, hconnecting]
      rw [hsame]
      exact ⟨[], [], .quiet (by simp) rfl (by simp) (by simp)⟩
    · exact Link.shutdown_flows (fun hne => hl.live (Link.live_of_ne hconnecting hne)) true
  | setWriteCompleteCallback | setHighWaterMarkCallback =>
    obtain rfl := Except.ok.inj h
    exact ⟨hl.of_eq rfl rfl rfl rfl, [], [], .quiet (by simp [World.link]) rfl (by simp) (by simp)⟩

/-- **A turn** keeps the stream of its connection. -/
theorem Turn.flows (hw : w.Sound) (hl : w.link.Streamed) {f : Turn}
    (hf : f.Allowed w.conn.state_) (h : f.exec w = .ok w') :
    w'.link.Streamed ∧ ∃ writes rest, w.link.Flows w'.link (f.accepted w) writes rest := by
  cases f with
  | conneectEstableished =>
    obtain ⟨v, hv, hrefines⟩ := TcpConnection.conneectEstableished_spec hw
    obtain rfl := Except.ok.inj (hv.symm.trans h)
    rw [hrefines.link_eq]
    exact ⟨hl.conneectEstableished hf, w.link.conneectEstableished_flows⟩
  | conneectDestroyed =>
    obtain ⟨v, hv, hrefines⟩ := TcpConnection.conneectDestroyed_spec hw
    obtain rfl := Except.ok.inj (hv.symm.trans h)
    have hstate : w.link.state_ = .kDisconnected := hf
    have hlink : w.link.conneectDestroyed = w.link.call .remove := by
      rw [Link.conneectDestroyed, hstate, if_neg StateE.noConfusion]
    rw [hrefines.link_eq, hlink]
    exact ⟨.of_disconnected hstate, [], [], .quiet (by simp) rfl (by simp) (by simp)⟩
  | sendInLoop | shutdownInLoop => exact absurd hf id
  | event e =>
    rw [(TcpConnection.Op.exec_ok hw h).link_eq]
    exact ⟨TcpConnection.Op.streamed hl fun _ _ _ => by cases e <;> simp [Event.op], e.flows w⟩
  | user call =>
    have hcall : call.exec w = .ok w' := h
    cases call with
    | send buf write => exact TcpConnection.send_flows hw hl hcall
    | shutdown | setWriteCompleteCallback | setHighWaterMarkCallback =>
      exact UserCall.flows_of_quiet hl (by simp) hw hcall

/-- On a disconnected connection the user sends nothing. -/
theorem UserCall.flows_of_disconnected (hstate : w.conn.state_ = .kDisconnected) {call : UserCall}
    (h : call.exec w = .ok w') : w'.link.Streamed ∧
      ∃ writes rest, w.link.Flows w'.link ((Turn.user call).accepted w) writes rest := by
  obtain ⟨-, hstate', -⟩ := UserCall.of_disconnected hstate h
  refine ⟨.of_disconnected (hstate'.trans hstate), [], [], ?_⟩
  cases call with
  | send buf write =>
    obtain ⟨hconnected, -⟩ := TcpConnection.send_ok h
    exact StateE.noConfusion (hstate.symm.trans hconnected)
  | shutdown =>
    obtain rfl := Except.ok.inj h
    have hsame : TcpConnection.shutdown w true = w := by simp [TcpConnection.shutdown, hstate]
    rw [hsame]
    exact .quiet (by simp) rfl (by simp) (by simp)
  | setWriteCompleteCallback | setHighWaterMarkCallback =>
    obtain rfl := Except.ok.inj h
    exact .quiet (by simp [World.link]) rfl (by simp) (by simp)

/-! ## Runs -/

namespace Loops

section

variable [DecidableEq ℓ]

/-- The bytes that the connection `i` accepts for sending in the step. -/
def accepts (s : Loops ℓ) (i : ℕ) (a : Action ℓ) : List UInt8 :=
  match s.turn a with
  | some (j, f) =>
    match s.getLoop j with
    | .ok l => if i = j then f.accepted (s.world l j) else []
    | .error _ => []
  | none => []

end

/-- What the streams of all connections rely on. -/
structure Streamed (s : Loops ℓ) : Prop where
  link : ∀ l i, (s.world l i).link.Streamed
  unborn : ∀ i, s.server.created[i]? = none → (s.conn i).outputBuffer_.readable = []

variable {s t : Loops ℓ} {phase : ℕ → Phase} {gone : List ℕ} {i : ℕ} {f : Turn}

theorem Streamed.of_conn (hs : s.Streamed) (hcreated : t.server.created = s.server.created)
    (hconn : ∀ i, (t.conn i).state_ = (s.conn i).state_ ∧
      (t.conn i).channel_.events_ = (s.conn i).channel_.events_ ∧
      (t.conn i).channel_.index_ = (s.conn i).channel_.index_ ∧
      (t.conn i).outputBuffer_ = (s.conn i).outputBuffer_) : t.Streamed := by
  refine ⟨fun l i => ?_, fun i hi => ?_⟩
  · obtain ⟨hstate, hevents, hindex, hout⟩ := hconn i
    exact (hs.link l i).of_eq hstate hevents hindex (congrArg Buffer.readable hout)
  · rw [(hconn i).2.2.2]
    exact hs.unborn i (hcreated ▸ hi)

/-- A connection that has been constructed. -/
theorem construct_streamed (w : World ι) {fd : ℕ} {complete : Bool}
    (hconn : w.conn = (TcpConnection.construct fd).setWriteCompleteCallback complete) :
    w.link.Streamed ∧ w.link.pending = [] := by
  have hpending : w.link.pending = [] := by
    simp [World.link, hconn, TcpConnection.construct, TcpConnection.setWriteCompleteCallback]
  refine ⟨⟨fun _ => ⟨?_, ?_, hpending⟩, fun hlive => ?_⟩, hpending⟩
  · simp [hconn, TcpConnection.construct, TcpConnection.setWriteCompleteCallback, Channel.construct]
  · simp [hconn, TcpConnection.construct, TcpConnection.setWriteCompleteCallback, Channel.construct]
  · simp [Link.Live, hconn, TcpConnection.construct, TcpConnection.setWriteCompleteCallback] at hlive

theorem start_streamed (server : TcpServer ℓ) : (start server).Streamed := by
  have hconn (i : ℕ) : (start server).conn i =
      (TcpConnection.construct 0).setWriteCompleteCallback false := rfl
  refine ⟨fun l i => (construct_streamed ((start server).world l i) (hconn i)).1, fun i _ => ?_⟩
  rw [hconn]
  simp [TcpConnection.construct, TcpConnection.setWriteCompleteCallback]

variable [DecidableEq ℓ] {a : Action ℓ}

theorem accepts_of_none (h : s.turn a = none) (i : ℕ) : s.accepts i a = [] := by
  rw [accepts, h]

theorem accepts_of_turn {c : Created ℓ} (hturn : s.turn a = some (i, f))
    (hc : s.server.created[i]? = some c) (j : ℕ) :
    s.accepts j a = if j = i then f.accepted (s.world c.loop_ i) else [] := by
  have hloop : s.getLoop i = .ok c.loop_ := by rw [getLoop, hc]
  simp only [accepts, hturn, hloop]

/-- A turn of a connection of the server. -/
theorem Ok.flows (hs : s.Ok phase gone) (hl : s.Streamed) {c : Created ℓ} {w : World ℕ}
    (hturn : s.turn a = some (i, f)) (hc : s.server.created[i]? = some c)
    (hexec : f.exec (s.world c.loop_ i) = .ok w) : w.link.Streamed ∧
      ∃ writes rest, (s.world c.loop_ i).link.Flows w.link (f.accepted (s.world c.loop_ i)) writes
        rest := by
  obtain ⟨hallowed, huser⟩ := hs.allowed hturn
  by_cases htorn : phase i = .torn
  · obtain ⟨call, rfl⟩ := huser htorn
    have hstate : (s.conn i).state_ = .kDisconnected := hs.allows_state htorn Phase.noConfusion
    exact UserCall.flows_of_disconnected (w := s.world c.loop_ i) hstate hexec
  · have hsound := (hs.conns.part i c hc).sound (Phase.stage_ne_torn.2 htorn)
    exact Turn.flows hsound (hl.link c.loop_ i) hallowed hexec

/-- What a step does to the streams. -/
structure Streams (s : Loops ℓ) (a : Action ℓ) (t : Loops ℓ) : Prop where
  streamed : t.Streamed
  conserves : ∀ i, handedBytes (s.effects i a) ++ (t.conn i).outputBuffer_.readable =
    (s.conn i).outputBuffer_.readable ++ s.accepts i a
  promise : ∀ i pre e post, s.effects i a = pre ++ e :: post → e.Promises (s.conn i).state_ →
    handedBytes pre = (s.conn i).outputBuffer_.readable ++ s.accepts i a

/-- A step that is no turn leaves what waits. -/
theorem Streams.of_none (hturn : s.turn a = none) (ht : t.Streamed)
    (hout : ∀ i, (t.conn i).outputBuffer_.readable = (s.conn i).outputBuffer_.readable) :
    Streams s a t := by
  refine ⟨ht, fun i => ?_, fun i pre e post heffects => ?_⟩
  · rw [effects_of_none hturn, accepts_of_none hturn, hout, List.append_nil]
    rfl
  · rw [effects_of_none hturn] at heffects
    simp at heffects

/-- A connection that the acceptor brings has nothing that waits. -/
theorem Streams.of_accept (hl : s.Streamed) (hturn : s.turn a = none) {sockFd : ℕ}
    {localAddr peerAddr : InetAddress} {complete : Bool}
    (hserver : s.server.newConnection sockFd localAddr peerAddr = .ok t.server)
    (hconn : t.conn = Function.update s.conn s.server.created.length
      ((TcpConnection.construct sockFd).setWriteCompleteCallback complete)) : Streams s a t := by
  obtain ⟨ioLoop, pool, -, -, hserver⟩ := TcpServer.newConnection_ok hserver
  have hself (l : ℓ) := construct_streamed (t.world l s.server.created.length)
    ((congrFun hconn _).trans (Function.update_self ..))
  have hother (i : ℕ) (hi : i ≠ s.server.created.length) : t.conn i = s.conn i := by
    rw [hconn, Function.update_of_ne hi]
  have hpending (i : ℕ) :
      (t.conn i).outputBuffer_.readable = (s.conn i).outputBuffer_.readable := by
    by_cases hi : i = s.server.created.length
    · rw [hl.unborn i (by simp [hi]), hi]
      exact (hself ioLoop).2
    · rw [hother i hi]
  refine .of_none hturn ⟨fun l i => ?_, fun i hi => ?_⟩ hpending
  · by_cases hi : i = s.server.created.length
    · exact hi ▸ (hself l).1
    · refine (hl.link l i).of_eq ?_ ?_ ?_ ?_ <;> simp [world, World.link, hother i hi]
  · rw [hpending]
    refine hl.unborn i (List.getElem?_eq_none ?_)
    rw [hserver, List.getElem?_eq_none_iff, List.length_append] at hi
    exact Nat.le_trans (Nat.le_add_right _ _) hi

/-- A function that runs on the connection `i` moves its stream, and no other. -/
theorem Ok.streams_turn (hs : s.Ok phase gone) (hl : s.Streamed) {f : Turn} {c : Created ℓ}
    {w : World ℕ} (hturn : s.turn a = some (i, f)) (hc : s.server.created[i]? = some c)
    (hexec : f.exec (s.world c.loop_ i) = .ok w) (hconn : t.conn = Function.update s.conn i w.conn)
    (hserver : t.server = s.server) : Streams s a t := by
  obtain ⟨hstreamed, writes, rest, hflows⟩ := hs.flows hl hturn hc hexec
  have htrace : w.trace = writes ++ rest := hflows.trace_eq
  have hself : t.conn i = w.conn := by rw [hconn, Function.update_self]
  have hother (j : ℕ) (hj : j ≠ i) : t.conn j = s.conn j := by
    rw [hconn, Function.update_of_ne hj]
  refine ⟨⟨fun l j => ?_, fun j hj => ?_⟩, fun j => ?_, fun j pre e post heffects he => ?_⟩
  · by_cases hj : j = i
    · subst hj
      refine hstreamed.of_eq ?_ ?_ ?_ ?_ <;> simp [world, World.link, hself]
    · refine (hl.link l j).of_eq ?_ ?_ ?_ ?_ <;> simp [world, World.link, hother j hj]
  · have hji : j ≠ i := by
      rintro rfl
      rw [hserver, hc] at hj
      cases hj
    rw [hother j hji]
    exact hl.unborn j (hserver ▸ hj)
  · rw [effects_of_turn hturn hc hexec, accepts_of_turn hturn hc]
    by_cases hj : j = i
    · subst hj
      have hrest : handedBytes rest = [] := handedBytes_of_quiet hflows.rest_eq
      rw [if_pos rfl, if_pos rfl, hself, htrace, handedBytes_append, hrest, List.append_nil]
      exact hflows.conserves
    · rw [if_neg hj, if_neg hj, hother j hj, List.append_nil]
      rfl
  · rw [effects_of_turn hturn hc hexec] at heffects
    rw [accepts_of_turn hturn hc]
    by_cases hj : j = i
    · subst hj
      rw [if_pos rfl, htrace] at heffects
      rw [if_pos rfl]
      exact hflows.handed_of_promise heffects he
    · rw [if_neg hj] at heffects
      simp at heffects

/-- A step of the server with its loops, for the streams. -/
theorem Ok.streams_step (hs : s.Ok phase gone) (hl : s.Streamed) (h : s.step a = .ok t) :
    Streams s a t := by
  cases cases_of_step h with
  | rest hturn hconn _ hcreated =>
    refine .of_none hturn (hl.of_conn hcreated fun i => ?_) fun i => ?_
    · rw [hconn]
      exact ⟨rfl, rfl, rfl, rfl⟩
    · rw [hconn]
  | dispatch hturn hconn _ hserver =>
    have hkept (i : ℕ) : (t.conn i).state_ = (s.conn i).state_ ∧
        (t.conn i).channel_.events_ = (s.conn i).channel_.events_ ∧
        (t.conn i).channel_.index_ = (s.conn i).channel_.index_ ∧
        (t.conn i).outputBuffer_ = (s.conn i).outputBuffer_ := by
      rw [hconn, Function.update_apply]
      split
      next hi => exact hi ▸ ⟨rfl, rfl, rfl, rfl⟩
      next => exact ⟨rfl, rfl, rfl, rfl⟩
    refine .of_none hturn (hl.of_conn (congrArg _ hserver) hkept) fun i => ?_
    rw [(hkept i).2.2.2]
  | accept hturn ha hserver hconn => exact .of_accept hl hturn hserver hconn
  | turn hturn hc hexec hconn _ hserver => exact hs.streams_turn hl hturn hc hexec hconn hserver

/-- **The outbound streams**: over every run of a server with its loops, whose users call each
connection on the thread of its loop, for every connection, the bytes handed to the kernel followed
by the readable bytes of its output buffer are the bytes it has accepted for sending. In every
further step, when `writeCompleteCallback_` of a connection is queued, or its writing side is shut
down while it is not disconnected, all that it has accepted has been handed over by then. -/
theorem streams {loop : ℓ} {loops : List ℓ} {listenAddr : InetAddress} {nameArg : List Char}
    {server : TcpServer ℓ} {actions : List (Action ℓ)} {s : Loops ℓ}
    (hserver : TcpServer.construct loop listenAddr nameArg = .ok server)
    (h : run step (start (server.start loops)) actions = .ok s) (i : ℕ) :
    handedBytes (collect step (fun s a => s.effects i a) (start (server.start loops)) actions) ++
        (s.conn i).outputBuffer_.readable =
      collect step (fun s a => s.accepts i a) (start (server.start loops)) actions ∧
    ∀ a t, s.step a = .ok t → ∀ pre e post, s.effects i a = pre ++ e :: post →
      e.Promises (s.conn i).state_ →
      handedBytes (collect step (fun s a => s.effects i a) (start (server.start loops)) actions ++
          pre) =
        collect step (fun s a => s.accepts i a) (start (server.start loops)) (actions ++ [a]) := by
  have hnone : (start (server.start loops)).server.created[i]? = none := by
    obtain ⟨text, -, hconstruct⟩ := bind_eq_ok.1 hserver
    obtain rfl := Except.ok.inj hconstruct
    rfl
  have hrun : (∃ phase gone, s.Ok phase gone) ∧ s.Streamed ∧
      handedBytes (collect step (fun s a => s.effects i a) (start (server.start loops)) actions) ++
          (s.conn i).outputBuffer_.readable =
        collect step (fun s a => s.accepts i a) (start (server.start loops)) actions := by
    refine run_induction (motive := fun actions (s : Loops ℓ) => (∃ phase gone, s.Ok phase gone) ∧
      s.Streamed ∧ handedBytes (collect step (fun s a => s.effects i a) (start (server.start loops))
        actions) ++ (s.conn i).outputBuffer_.readable =
          collect step (fun s a => s.accepts i a) (start (server.start loops)) actions) ?_ ?_ h
    · exact ⟨⟨_, _, start_ok hserver⟩, start_streamed _, (start_streamed _).unborn i hnone⟩
    · rintro actions a t u ht hu ⟨⟨phase, gone, hok⟩, hstreamed, ih⟩
      have hstreams := hok.streams_step hstreamed hu
      refine ⟨hok.step hu, hstreams.streamed, ?_⟩
      rw [collect_concat ht, collect_concat ht, ← ih, handedBytes_append, List.append_assoc,
        List.append_assoc, hstreams.conserves]
  obtain ⟨⟨phase, gone, hok⟩, hstreamed, hstream⟩ := hrun
  refine ⟨hstream, fun a t ht pre e post heffects he => ?_⟩
  have hstreams := hok.streams_step hstreamed ht
  rw [handedBytes_append, hstreams.promise i pre e post heffects he, ← List.append_assoc, hstream,
    collect_concat h]

/-- A byte is sent on the loop `1`, and a write event hands it over. -/
def exchange : List (Action ℕ) :=
  [.accept 7 ⟨(127, 0, 0, 1), 16415⟩ ⟨(10, 0, 0, 2), 1⟩ true, .proceed 0 answers, .swap 1,
    .next 1 answers, .user 0 (.send (Threads.oneByte 65) TcpConnection.takesAll),
    .dispatch 1 0 EPOLLOUT, .proceed 1 answers]

theorem streams_exchange : ∃ (server : TcpServer ℕ) (s : Loops ℕ),
    TcpServer.construct 0 ⟨(127, 0, 0, 1), 16415⟩ ['s'] = .ok server ∧
    run step (start (server.start [1])) exchange = .ok s ∧
    handedBytes (collect step (fun s a => s.effects 0 a) (start (server.start [1])) exchange) =
      [65] ∧
    handedBytes (collect step (fun s a => s.effects 0 a) (start (server.start [1])) exchange) ++
        (s.conn 0).outputBuffer_.readable =
      collect step (fun s a => s.accepts 0 a) (start (server.start [1])) exchange ∧
    ∀ a t, s.step a = .ok t → ∀ pre e post, s.effects 0 a = pre ++ e :: post →
      e.Promises (s.conn 0).state_ →
      handedBytes (collect step (fun s a => s.effects 0 a) (start (server.start [1])) exchange ++
          pre) =
        collect step (fun s a => s.accepts 0 a) (start (server.start [1])) (exchange ++ [a]) := by
  have hrun : (TcpServer.construct 0 ⟨(127, 0, 0, 1), 16415⟩ ['s'] >>= fun server =>
      (run step (start (server.start [1])) exchange).map fun s => (server, s)).map (fun x =>
        handedBytes (collect step (fun s a => s.effects 0 a) (start (x.1.start [1])) exchange)) =
          .ok [65] := by
    decide +kernel
  obtain ⟨⟨server, s⟩, hs, hhanded⟩ := exists_of_map hrun
  obtain ⟨server', hserver, hs⟩ := bind_eq_ok.1 hs
  obtain ⟨s', hs', heq⟩ := exists_of_map hs
  obtain ⟨rfl, rfl⟩ := Prod.mk.inj heq
  exact ⟨server', s', hserver, hs', hhanded, streams hserver hs' 0⟩

end Loops

end Muduo
