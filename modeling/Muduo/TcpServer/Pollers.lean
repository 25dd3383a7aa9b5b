import Muduo.TcpServer.Streams

/-!
# The pollers of the server

Each loop has a poller, and a connection is registered with the poller of its own loop. Over every
run of the server with its loops, what the kernel watches of the descriptors of connections are the
live connections, each on its loop and for its events (`Loops.pollers`): a connection is added when
it is established and deleted when it closes, and between its closing and its teardown no callback
that is still to run, and no call of the user on the thread of its loop, adds it again (`Turn.off`).
Nothing is said of other descriptors: each poller of the source also has the `weakupChannel_` of its
loop, and that of the server's loop the channel of the listening socket, which `Loops` leaves out.
-/

namespace Muduo

open Run

variable {ι ℓ : Type}

/-- The channel watches for nothing, and is not in the kernel's interest set. -/
structure Channel.Off (c : Channel) : Prop where
  events_eq : c.events_ = kNoneEvent
  index_ne : c.index_ ≠ .kAdd

/-- Closing a connection turns its channel off. -/
theorem Link.Watching.off {l : Link ι} (h : l.Watching) : l.handleClose.channel_.Off := by
  refine ⟨by simp [handleClose, disconnect, Channel.Call.after, Channel.watched], ?_⟩
  simp [handleClose, disconnect, Channel.Call.after, Channel.watched, Index.updated, h.index_eq]

/-- A watching connection watches for input. -/
theorem Link.Watching.meets {l : Link ι} (h : l.Watching) : l.channel_.events_.meets EPOLLIN := by
  rcases h.events with hs | hs | hs
  · rw [show l.channel_.events_ = _ from hs]
    decide
  · rw [hs.events_eq]
    decide
  · rw [hs.events_eq]
    decide

variable {w w' : World ι}

/-- An event of a connection that has closed leaves its channel. -/
theorem Event.of_disconnected (hw : w.Sound) (hstate : w.conn.state_ = .kDisconnected)
    (hoff : w.conn.channel_.Off) {e : Event} (h : e.op.exec w = .ok w') :
    w'.conn.channel_ = w.conn.channel_ := by
  have hlive : ¬(w.conn.state_ = .kConnected ∨ w.conn.state_ = .kDisconnecting) := by
    simp [hstate]
  cases e with
  | close => exact absurd (TcpConnection.handleClose_ok hw h).1 hlive
  | error =>
    obtain rfl := Except.ok.inj h
    rfl
  | read recv extraBuffer onMessage =>
    obtain ⟨n, input, -, hclose, hrefines⟩ := TcpConnection.handleRead_ok hw h
    have hn : n ≠ 0 := fun hn => hlive (hclose hn)
    have hchannel : (w.link.handleRead n).channel_ = w.link.channel_ := by
      unfold Link.handleRead
      rw [if_neg hn]
      split <;> rfl
    exact (congrArg Link.channel_ hrefines.link_eq).trans hchannel
  | write answer =>
    have hwriting : w.conn.channel_.isWriting = false := by
      rw [Channel.isWriting, hoff.events_eq]
      decide
    have hsame : TcpConnection.handleWrite w answer = .ok w := by
      rw [TcpConnection.handleWrite, if_neg (Bool.eq_false_iff.1 hwriting)]
    obtain rfl := Except.ok.inj (hsame.symm.trans h)
    rfl

/-- **A turn** that ends in a disconnected connection leaves its channel off. -/
theorem Turn.off (hw : w.Sound) (hl : w.link.Streamed)
    (hoff : w.conn.state_ = .kDisconnected → w.conn.channel_.Off) {f : Turn}
    (hf : f.Allowed w.conn.state_) (h : f.exec w = .ok w')
    (hstate : w'.conn.state_ = .kDisconnected) : w'.conn.channel_.Off := by
  cases f with
  | conneectEstableished =>
    have hconnected := (TcpConnection.conneectEstableished_turns hw h).2
    exact StateE.noConfusion (hconnected.symm.trans hstate)
  | conneectDestroyed =>
    obtain ⟨v, hv, hrefines⟩ := TcpConnection.conneectDestroyed_spec hw
    obtain rfl := Except.ok.inj (hv.symm.trans h)
    have hdisconnected : w.link.state_ = .kDisconnected := hf
    have hlink : w.link.conneectDestroyed = w.link.call .remove := by
      rw [Link.conneectDestroyed, hdisconnected, if_neg StateE.noConfusion]
    have hchannel : v.conn.channel_ = Channel.Call.remove.after w.conn.channel_ :=
      congrArg Link.channel_ (hrefines.link_eq.trans hlink)
    rw [hchannel]
    exact ⟨(hoff hdisconnected).events_eq, by simp [Channel.Call.after]⟩
  | sendInLoop | shutdownInLoop => exact absurd hf id
  | event e =>
    by_cases hbefore : w.conn.state_ = .kDisconnected
    · rw [Event.of_disconnected hw hbefore (hoff hbefore) h]
      exact hoff hbefore
    · cases TcpConnection.Op.exec_moves hw h with
      | inside _ hkeeps =>
        -- it would have been disconnected before
        rcases hkeeps with heq | ⟨-, heq⟩
        · exact absurd (heq.symm.trans hstate) hbefore
        · exact StateE.noConfusion (heq.symm.trans hstate)
      | closes hlive heq =>
        have hchannel : w'.conn.channel_ = w.link.handleClose.channel_ := congrArg Link.channel_ heq
        rw [hchannel]
        exact (hl.live hlive).off
  | user call =>
    have hcall : call.exec w = .ok w' := h
    have hbefore : w.conn.state_ = .kDisconnected := by
      rcases (UserCall.turns hw hcall).2 with heq | ⟨-, heq⟩
      · exact heq.symm.trans hstate
      · exact StateE.noConfusion (heq.symm.trans hstate)
    rw [(UserCall.of_disconnected hbefore hcall).2.2]
    exact hoff hbefore

namespace Loops

/-- The connections that have closed watch for nothing. -/
def Off (s : Loops ℓ) : Prop :=
  ∀ i, (s.conn i).state_ = .kDisconnected → (s.conn i).channel_.Off

/-- The invariant of the pollers, beside that of the connections. -/
structure Polled (s : Loops ℓ) : Prop where
  streamed : s.Streamed
  off : s.Off
  failures_eq : ∀ l, (s.loop l).poller.epoll.failures = 0

variable {s t : Loops ℓ} {phase : ℕ → Phase} {gone : List ℕ} {i : ℕ}

theorem start_polled (server : TcpServer ℓ) : (start server).Polled := by
  refine ⟨start_streamed server, fun i hi => ?_, fun l => rfl⟩
  exact StateE.noConfusion hi

/-- The connection is live: its `conneectEstableished` has run, and its `handleClose` has not. -/
def Live (s : Loops ℓ) (i : ℕ) : Prop :=
  (s.conn i).state_ = .kConnected ∨ (s.conn i).state_ = .kDisconnecting

/-- A connection is added to the interest set of the kernel while it is live. -/
theorem Polled.index_eq_iff (hp : s.Polled) (l : ℓ) (i : ℕ) :
    (s.conn i).channel_.index_ = .kAdd ↔ s.Live i := by
  have hlink := hp.streamed.link l i
  constructor
  · intro hindex
    refine Link.live_of_ne (l := (s.world l i).link) (fun hfresh => ?_) fun hclosed => ?_
    · exact Index.noConfusion (hindex.symm.trans (hlink.fresh hfresh).2.1)
    · exact (hp.off i hclosed).index_ne hindex
  · intro hlive
    exact (hlink.live hlive).index_eq

/-- The descriptor has been given to a connection. -/
def OfConnection (s : Loops ℓ) (fd : ℕ) : Prop :=
  ∃ (i : ℕ) (c : Created ℓ), s.server.created[i]? = some c ∧ (s.conn i).channel_.fd_ = fd

/-- What the pollers hold for the descriptors of connections in a reachable state. -/
structure Watched (s : Loops ℓ) : Prop where
  /-- The kernel watches for a loop the live connections of this loop, each for its events. -/
  interest_iff : ∀ fd, s.OfConnection fd → ∀ l e, (s.loop l).poller.epoll.interest fd = some e ↔
    ∃ (i : ℕ) (c : Created ℓ), s.server.created[i]? = some c ∧ c.loop_ = l ∧
      (s.conn i).channel_.fd_ = fd ∧ s.Live i ∧ e = ⟨(s.conn i).channel_.events_, some i⟩
  /-- A live connection is watched for input. -/
  meets : ∀ i, s.Live i → (s.conn i).channel_.events_.meets EPOLLIN
  /-- No descriptor of a connection is watched for two loops. -/
  loop_eq : ∀ fd, s.OfConnection fd → ∀ l l', (s.loop l).poller.epoll.interest fd ≠ none →
    (s.loop l').poller.epoll.interest fd ≠ none → l = l'
  /-- Only the loop of a connection has its channel, while the index is not `kNew`. -/
  hasChannel_iff : ∀ i c, s.server.created[i]? = some c → ∀ l,
    (s.loop l).poller.hasChannel i (s.conn i).channel_ = true ↔
      l = c.loop_ ∧ (s.conn i).channel_.index_ ≠ .kNew
  /-- No `epoll_ctl` for a connection has failed. -/
  failures_eq : ∀ l, (s.loop l).poller.epoll.failures = 0

/-- What the poller of its loop holds for a connection whose index is not `kNew`. -/
theorem Conns.entry_eq {stage : ℕ → Stage} (hs : s.Conns stage gone) {c : Created ℓ}
    (hc : s.server.created[i]? = some c) (hindex : (s.conn i).channel_.index_ ≠ .kNew) :
    stage i ≠ .torn ∧ (s.loop c.loop_).poller.entry (s.conn i).channel_.fd_ =
      (s.conn i).channel_.entry i := by
  have hpart := hs.part i c hc
  have hne : stage i ≠ .torn := fun htorn => hindex (hpart.index htorn)
  exact ⟨hne, (hpart.sound hne).agrees⟩

/-- What a poller holds, it holds for a connection of its loop. -/
theorem Conns.exists_of_entry {stage : ℕ → Stage} (hs : s.Conns stage gone) {l : ℓ} {fd : ℕ}
    (h : (s.loop l).poller.entry fd ≠ ⟨none, none⟩) : ∃ (i : ℕ) (c : Created ℓ),
      s.server.created[i]? = some c ∧ c.loop_ = l ∧ (s.conn i).channel_.fd_ = fd ∧
        (s.loop l).poller.entry fd = (s.conn i).channel_.entry i := by
  obtain ⟨i, c, hc, rfl, rfl, hne⟩ := hs.vacant l fd h
  exact ⟨i, c, hc, rfl, rfl, ((hs.part i c hc).sound hne).agrees⟩

/-- **The interest set** of a loop: the live connections of this loop, each for its events. -/
theorem Polled.interest_iff (hp : s.Polled) {stage : ℕ → Stage} (hs : s.Conns stage gone) (l : ℓ)
    (fd : ℕ) (e : EpollEvent ℕ) : (s.loop l).poller.epoll.interest fd = some e ↔
      ∃ (i : ℕ) (c : Created ℓ), s.server.created[i]? = some c ∧ c.loop_ = l ∧
        (s.conn i).channel_.fd_ = fd ∧ s.Live i ∧ e = ⟨(s.conn i).channel_.events_, some i⟩ := by
  constructor
  · intro hinterest
    have hentry : (s.loop l).poller.entry fd ≠ ⟨none, none⟩ := by
      intro hnone
      have hkernel := congrArg Entry.inKernel hnone
      exact Option.some_ne_none e (hinterest.symm.trans hkernel)
    obtain ⟨i, c, hc, hl, hfd, hagrees⟩ := hs.exists_of_entry hentry
    have hkernel : some e = ((s.conn i).channel_.entry i).inKernel :=
      hinterest.symm.trans (congrArg Entry.inKernel hagrees)
    unfold Channel.entry at hkernel
    cases hindex : (s.conn i).channel_.index_ with
    | kNew | kDelete => simp [hindex] at hkernel
    | kAdd =>
      simp only [hindex] at hkernel
      exact ⟨i, c, hc, hl, hfd, (hp.index_eq_iff l i).1 hindex, Option.some.inj hkernel⟩
  · rintro ⟨i, c, hc, rfl, rfl, hlive, rfl⟩
    have hindex := (hp.index_eq_iff c.loop_ i).2 hlive
    have hnew : (s.conn i).channel_.index_ ≠ .kNew := by simp [hindex]
    obtain ⟨-, hagrees⟩ := hs.entry_eq hc hnew
    refine (congrArg Entry.inKernel hagrees).trans ?_
    simp [Channel.entry, hindex]

/-- `hasChannel` of a connection is true on its loop only, and there unless its index is `kNew`. -/
theorem Conns.hasChannel_iff {stage : ℕ → Stage} (hs : s.Conns stage gone) {c : Created ℓ}
    (hc : s.server.created[i]? = some c) (l : ℓ) :
    (s.loop l).poller.hasChannel i (s.conn i).channel_ = true ↔
      l = c.loop_ ∧ (s.conn i).channel_.index_ ≠ .kNew := by
  rw [EpollPoller.hasChannel, decide_eq_true_iff]
  constructor
  · intro hmap
    have hmentions : ((s.loop l).poller.entry (s.conn i).channel_.fd_).Mentions i := .inl hmap
    obtain ⟨d, hd, rfl, hne⟩ := hs.of_mentions hmentions
    obtain rfl := Option.some.inj (hc.symm.trans hd)
    refine ⟨rfl, fun hindex => ?_⟩
    have hagrees := congrArg Entry.inMap ((hs.part i c hc).sound hne).agrees
    simp [Channel.entry, world, EpollPoller.entry, hindex, hmap] at hagrees
  · rintro ⟨rfl, hindex⟩
    obtain ⟨-, hagrees⟩ := hs.entry_eq hc hindex
    refine (congrArg Entry.inMap hagrees).trans ?_
    unfold Channel.entry
    cases h : (s.conn i).channel_.index_ <;> simp_all

variable [DecidableEq ℓ] {a : Action ℓ}

/-- A turn of a connection, for its channel and its poller. -/
theorem Ok.turn_off (hs : s.Ok phase gone) (hp : s.Polled) {f : Turn} {c : Created ℓ} {w : World ℕ}
    (hturn : s.turn a = some (i, f)) (hc : s.server.created[i]? = some c)
    (hexec : f.exec (s.world c.loop_ i) = .ok w) :
    (w.conn.state_ = .kDisconnected → w.conn.channel_.Off) ∧ w.loop.poller.epoll.failures = 0 := by
  by_cases htorn : phase i = .torn
  · obtain ⟨hloop, hstate, hchannel⟩ := hs.turn_of_torn hturn hexec htorn
    rw [hstate, hchannel, hloop]
    exact ⟨hp.off i, hp.failures_eq c.loop_⟩
  · have hsound := (hs.conns.part i c hc).sound (Phase.stage_ne_torn.2 htorn)
    refine ⟨Turn.off hsound (hp.streamed.link c.loop_ i) (hp.off i) (hs.allowed hturn).1 hexec, ?_⟩
    exact (hs.turns hturn hc hexec htorn).frame.failures_eq.trans (hp.failures_eq c.loop_)

theorem Ok.polled (hs : s.Ok phase gone) (hp : s.Polled) (h : s.step a = .ok t) : t.Polled := by
  have hstreamed := (hs.streams_step hp.streamed h).streamed
  cases cases_of_step h with
  | rest _ hconn hpoller =>
    refine ⟨hstreamed, fun i => ?_, fun l => ?_⟩
    · rw [hconn]
      exact hp.off i
    · rw [hpoller]
      exact hp.failures_eq l
  | accept _ _ _ hconn hloop =>
    refine ⟨hstreamed, fun i hi => ?_, fun l => hloop ▸ hp.failures_eq l⟩
    rw [hconn, Function.update_apply] at hi ⊢
    split at hi
    next => exact StateE.noConfusion hi
    next hne =>
      rw [if_neg hne]
      exact hp.off i hi
  | dispatch _ hconn hloop =>
    refine ⟨hstreamed, fun i hi => ?_, fun l => hloop ▸ hp.failures_eq l⟩
    rw [hconn, Function.update_apply] at hi ⊢
    split at hi
    next heq =>
      rw [if_pos heq]
      have hoff := hp.off _ hi
      exact ⟨hoff.events_eq, hoff.index_ne⟩
    next hne =>
      rw [if_neg hne]
      exact hp.off i hi
  | @turn j f c w hturn hc hexec hconn hloop =>
    obtain ⟨hoff, hfailures⟩ := hs.turn_off hp hturn hc hexec
    refine ⟨hstreamed, fun i => ?_, fun l => ?_⟩
    · rw [hconn, Function.update_apply]
      split
      · exact hoff
      · exact hp.off i
    · rw [hloop, Function.update_apply]
      split
      · exact hfailures
      · exact hp.failures_eq l

/-- **The pollers**: over every run of a server with its loops, of the descriptors of connections the
pollers watch those of the live connections, each on its own loop, and no others (`Watched`). -/
theorem pollers {loop : ℓ} {loops : List ℓ} {listenAddr : InetAddress} {nameArg : List Char}
    {server : TcpServer ℓ} {actions : List (Action ℓ)} {s : Loops ℓ}
    (hserver : TcpServer.construct loop listenAddr nameArg = .ok server)
    (h : run step (start (server.start loops)) actions = .ok s) :
    s.Watched := by
  have hrun : (∃ phase gone, s.Ok phase gone) ∧ s.Polled := by
    refine invariant (I := fun s => (∃ phase gone, s.Ok phase gone) ∧ s.Polled) ?_
      ⟨⟨_, _, start_ok hserver⟩, start_polled _⟩ h
    rintro s a t ⟨⟨phase, gone, hs⟩, hp⟩ ht
    exact ⟨hs.step ht, hs.polled hp ht⟩
  obtain ⟨⟨phase, gone, hok⟩, hp⟩ := hrun
  have hinterest := hp.interest_iff hok.conns
  refine ⟨fun fd _ l e => hinterest l fd e, fun i hlive => ?_, fun fd _ l l' hl hl' => ?_,
    fun i c hc => hok.conns.hasChannel_iff hc, hp.failures_eq⟩
  · exact ((hp.streamed.link loop i).live hlive).meets
  · obtain ⟨e, he⟩ := Option.ne_none_iff_exists'.1 hl
    obtain ⟨e', he'⟩ := Option.ne_none_iff_exists'.1 hl'
    obtain ⟨i, c, hc, rfl, hfd, hlive, -⟩ := (hinterest l fd e).1 he
    obtain ⟨j, d, hd, rfl, hfd', hlive', -⟩ := (hinterest l' fd e').1 he'
    -- two connections that are not torn down have different descriptors
    have hadded {k : ℕ} (hk : s.Live k) : (s.conn k).channel_.index_ ≠ .kNew := by
      simp [(hp.index_eq_iff loop k).2 hk]
    obtain ⟨hi, -⟩ := hok.conns.entry_eq hc (hadded hlive)
    obtain ⟨hj, -⟩ := hok.conns.entry_eq hd (hadded hlive')
    obtain rfl := hok.conns.distinct i j c d hc hd hi hj (hfd.trans hfd'.symm)
    obtain rfl := Option.some.inj (hc.symm.trans hd)
    rfl

theorem pollers_exchange : ∃ (server : TcpServer ℕ) (s : Loops ℕ),
    TcpServer.construct 0 ⟨(127, 0, 0, 1), 16415⟩ ['s'] = .ok server ∧
    run step (start (server.start [1])) exchange = .ok s ∧
    (s.server.created.length = 1 ∧ (s.conn 0).channel_.fd_ = 7 ∧
      (s.loop 1).poller.epoll.interest 7 = some ⟨EPOLLIN, some 0⟩) ∧ s.Watched := by
  have hrun : (TcpServer.construct 0 ⟨(127, 0, 0, 1), 16415⟩ ['s'] >>= fun server =>
      run step (start (server.start [1])) exchange).map (fun s =>
        (s.server.created.length, (s.conn 0).channel_.fd_, (s.loop 1).poller.epoll.interest 7)) =
          .ok (1, 7, some ⟨EPOLLIN, some 0⟩) := by
    decide +kernel
  obtain ⟨s, hs, hview⟩ := exists_of_map hrun
  obtain ⟨server, hserver, hs⟩ := bind_eq_ok.1 hs
  simp only [Prod.mk.injEq] at hview
  exact ⟨server, s, hserver, hs, hview, pollers hserver hs⟩

end Loops

end Muduo
