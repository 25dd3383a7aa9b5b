import Muduo.TcpServer.Settle

/-!
# How a thread goes on

Whatever a thread of the server does in one step, it does for one connection: the functors that it
queues and the calls that it enters are about this connection, and only its own stack changes
(`Loops.Advances`). The connection is held, or the step creates it. `Loops.Takes` is the inversion of
a step by what it takes from a queue: nothing, the whole queue for a round, or the next functor of
the round.
-/

namespace Muduo

open Run

variable {ι ℓ : Type}

/-! ## What a turn queues -/

namespace Link

/-- From `l` to `l'` the queue grows by functors of the connection itself. -/
def Own (l l' : Link ι) : Prop :=
  ∃ news, l'.queue = l.queue ++ news ∧ ∀ f ∈ news, f.conn = l.self

variable {l l' l'' : Link ι}

theorem Own.of_eq (h : l'.queue = l.queue) : l.Own l' := ⟨[], by simp [h], by simp⟩

theorem Own.trans (h : l.Own l') (hself : l'.self = l.self) (h' : l'.Own l'') : l.Own l'' := by
  obtain ⟨news, hqueue, hnews⟩ := h
  obtain ⟨news', hqueue', hnews'⟩ := h'
  refine ⟨news ++ news', by rw [hqueue', hqueue, List.append_assoc], fun f hf => ?_⟩
  rcases List.mem_append.1 hf with hf | hf
  · exact hnews f hf
  · exact (hnews' f hf).trans hself

theorem own_queueInLoop (l : Link ι) (task : Task) : l.Own (l.queueInLoop task) :=
  ⟨[⟨l.self, task⟩], rfl, by simp⟩

theorem own_complete (l : Link ι) : l.Own l.complete := by
  unfold complete
  split
  · exact l.own_queueInLoop _
  · exact .of_eq rfl

theorem own_saveRemaining (l : Link ι) (rest : List UInt8) : l.Own (l.saveRemaining rest) := by
  obtain ⟨news, hqueue, hnews⟩ : l.Own (l.checkHighWaterMark rest.length) := by
    unfold checkHighWaterMark
    split
    · exact l.own_queueInLoop _
    · exact .of_eq rfl
  exact ⟨news, by simpa [saveRemaining] using hqueue, hnews⟩

theorem own_drained (l : Link ι) : l.Own l.drained := by
  obtain ⟨news, hqueue, hnews⟩ := own_complete (l.call .disableWriting)
  refine ⟨news, ?_, hnews⟩
  unfold drained
  simp only
  split <;> simp [hqueue]

theorem own_send (l : Link ι) (m : List UInt8) (write : Write) : l.Own (l.send m write) := by
  have hemit (e : Effect) : l.Own (l.emit e) := .of_eq rfl
  have hsends := l.send_sends m write
  generalize l.send m write = l' at hsends ⊢
  cases hsends with
  | disconnected | skipped => exact .of_eq rfl
  | dropped | rejected => exact hemit _
  | finished => exact (hemit _).trans rfl (own_complete _)
  | saved => exact (hemit _).trans rfl (own_saveRemaining _ _)
  | buffered => exact l.own_saveRemaining m

theorem own_handleWrite (l : Link ι) (write : Write) : l.Own (l.handleWrite write) := by
  have hwrites := l.handleWrite_writes write
  generalize l.handleWrite write = l' at hwrites ⊢
  cases hwrites with
  | idle | none | some => exact .of_eq rfl
  | all =>
    have hset : l.Own ((l.emit (.write l.pending.length (.handed l.pending))).setPending []) :=
      .of_eq rfl
    exact hset.trans rfl (own_drained _)

theorem own_handleRead (l : Link ι) (n : ℤ) : l.Own (l.handleRead n) := by
  unfold handleRead
  split
  · exact .of_eq rfl
  · split <;> exact .of_eq rfl

theorem own_shutdown (l : Link ι) : l.Own (l.shutdown true) := by
  unfold shutdown
  split
  · exact .of_eq (by simp)
  · exact .of_eq rfl

end Link

variable {w w' : World ι}

theorem Event.own (e : Event) (w : World ι) : w.link.Own (e.op.link w) := by
  cases e with
  | close | error => exact .of_eq rfl
  | read recv extraBuffer onMessage =>
    simp only [op, TcpConnection.Op.link]
    split
    · exact w.link.own_handleRead _
    · exact .of_eq rfl
  | write answer => exact w.link.own_handleWrite answer

theorem UserCall.own (hw : w.Sound) {call : UserCall} (h : call.exec w = .ok w') :
    w.link.Own w'.link := by
  cases call with
  | send buf write =>
    obtain ⟨-, hsend⟩ := TcpConnection.send_ok h
    obtain ⟨l, hrefines, hl⟩ := TcpConnection.sendInLoop_cases hw (castInt_range _) hsend
    rw [hrefines.link_eq]
    rcases hl with rfl | ⟨n, errno, rfl⟩ | rfl
    · exact .of_eq rfl
    · exact .of_eq rfl
    · exact w.link.own_send _ _
  | shutdown =>
    obtain rfl := Except.ok.inj h
    rw [(TcpConnection.shutdown_spec hw true).link_eq]
    exact w.link.own_shutdown
  | setWriteCompleteCallback | setHighWaterMarkCallback =>
    obtain rfl := Except.ok.inj h
    exact .of_eq rfl

/-! ## What a step names anew -/

/-- The connection that the activation is about. -/
def Activation.conn : Activation → ℕ
  | newConnection i | handleEvent i _ _ | removeConnection i | removeConnectionInLoop i
  | erased i => i

theorem Activation.conn_of_token {a : Activation} {i : ℕ} {p : Phase} (h : a.token = some (i, p)) :
    a.conn = i := by
  cases a with
  | handleEvent => cases h
  | newConnection | removeConnection | removeConnectionInLoop | erased =>
    exact (Prod.mk.inj (Option.some.inj h)).1

theorem Activation.conn_of_holds {a : Activation} {i : ℕ} (h : a.Holds i) : a.conn = i := by
  cases a with
  | handleEvent => exact h.1
  | removeConnectionInLoop | erased => exact h
  | newConnection | removeConnection => exact absurd h id

namespace Loops

/-- From `s` to `t` the thread of `l` has gone on: no connection but `j` has got a new entry of
`connections_`, a new functor or a new activation, and the other threads are where they were. -/
structure Advances (s t : Loops ℓ) (l : ℓ) (j : ℕ) : Prop where
  all_eq : t.all = s.all
  created : ∀ (i : ℕ) (c : Created ℓ), s.server.created[i]? = some c →
    t.server.created[i]? = some c
  entry : ∀ name i, t.server.connections_ name = some i →
    s.server.connections_ name = some i ∨ i = j
  functors_eq : t.functors = s.functors
  pending : ∀ l', ∃ news, (t.loop l').pendingFunctors_ = (s.loop l').pendingFunctors_ ++ news ∧
    ∀ f ∈ news, f.conn = j
  stack : ∀ b ∈ t.stack l, b ∈ s.stack l ∨ b.conn = j
  stack_eq : ∀ l', l' ≠ l → t.stack l' = s.stack l'

variable {s t u : Loops ℓ} {l : ℓ} {i j : ℕ} {phase : ℕ → Phase} {gone : List ℕ}

/-- The server, the rounds and the queues are the same. -/
theorem Advances.of_eq (hserver : t.server = s.server) (hfunctors : t.functors = s.functors)
    (hloop : t.loop = s.loop) (hstack : ∀ b ∈ t.stack l, b ∈ s.stack l ∨ b.conn = j)
    (hother : ∀ l', l' ≠ l → t.stack l' = s.stack l') : Advances s t l j where
  all_eq := by rw [all, hserver, all]
  created i c hc := by rwa [hserver]
  entry name i hi := .inl (by rwa [hserver] at hi)
  functors_eq := hfunctors
  pending l' := ⟨[], by rw [hloop, List.append_nil], by simp⟩
  stack := hstack
  stack_eq := hother

theorem Advances.refl (s : Loops ℓ) (l : ℓ) (j : ℕ) : Advances s s l j :=
  .of_eq rfl rfl rfl (fun _ => .inl) fun _ _ => rfl

theorem Advances.trans (h : Advances s t l j) (h' : Advances t u l j) : Advances s u l j where
  all_eq := h'.all_eq.trans h.all_eq
  created i c hc := h'.created i c (h.created i c hc)
  entry name i hi := (h'.entry name i hi).elim (h.entry name i) .inr
  functors_eq := h'.functors_eq.trans h.functors_eq
  pending l' := by
    obtain ⟨news, hpending, hnews⟩ := h.pending l'
    obtain ⟨news', hpending', hnews'⟩ := h'.pending l'
    refine ⟨news ++ news', by rw [hpending', hpending, List.append_assoc], fun f hf => ?_⟩
    exact (List.mem_append.1 hf).elim (hnews f) (hnews' f)
  stack b hb := (h'.stack b hb).elim (h.stack b) .inr
  stack_eq l' hl := (h'.stack_eq l' hl).trans (h.stack_eq l' hl)

/-- The server erases the entry of a connection. -/
theorem advances_erase (l : ℓ) (conn : ℕ) :
    Advances s { s with server := s.server.removeConnectionInLoop conn } l j := by
  obtain ⟨hcreated, hpool⟩ := s.server.removeConnectionInLoop_fields conn
  refine ⟨?_, fun i c hc => hcreated ▸ hc, fun name i hi => .inl ?_, rfl,
    fun _ => ⟨[], by rw [List.append_nil], by simp⟩, fun _ => .inl, fun _ _ => rfl⟩
  · have hloop : (s.server.removeConnectionInLoop conn).loop_ = s.server.loop_ := by
      unfold TcpServer.removeConnectionInLoop
      split <;> rfl
    simp only [all, hpool, hloop]
  · simp only [TcpServer.removeConnectionInLoop] at hi
    split at hi
    next c hc =>
      by_cases hname : name = c.name_
      · simp [hname] at hi
      · simpa [hname] using hi
    next => exact hi

/-- A function of the connection that queues functors of its own only. -/
def Owns (s : Loops ℓ) (i : ℕ) (f : World ℕ → Except Fault (World ℕ)) : Prop :=
  ∀ c w, s.server.created[i]? = some c → f (s.world c.loop_ i) = .ok w →
    (s.world c.loop_ i).link.Own w.link

theorem Ready.owns_conneectEstableished (hs : s.Ready i) :
    s.Owns i TcpConnection.conneectEstableished := by
  intro c w hc hw
  obtain ⟨v, hv, hrefines⟩ := TcpConnection.conneectEstableished_spec (hs c hc).2
  obtain rfl := Except.ok.inj (hv.symm.trans hw)
  rw [hrefines.link_eq]
  exact .of_eq rfl

theorem Ready.owns_conneectDestroyed (hs : s.Ready i) :
    s.Owns i TcpConnection.conneectDestroyed := by
  intro c w hc hw
  obtain ⟨v, hv, hrefines⟩ := TcpConnection.conneectDestroyed_spec (hs c hc).2
  obtain rfl := Except.ok.inj (hv.symm.trans hw)
  rw [hrefines.link_eq]
  exact .of_eq (conneectDestroyed_queue _)

theorem Ready.owns_event (hs : s.Ready i) (e : Event) : s.Owns i e.op.exec := by
  intro c w hc hw
  rw [(TcpConnection.Op.exec_ok (hs c hc).2 hw).link_eq]
  exact e.own _

variable [DecidableEq ℓ]

theorem advances_goto {activations : List Activation}
    (h : ∀ b ∈ activations, b ∈ s.stack l ∨ b.conn = j) : Advances s (s.goto l activations) l j := by
  refine .of_eq rfl rfl rfl (fun b hb => ?_) fun l' hl => goto_stack_of_ne hl _
  rw [goto_stack] at hb
  exact h b hb

theorem advances_enter {b : Activation} (hb : b.conn = j) : Advances s (s.enter l b) l j := by
  refine advances_goto fun b' hb' => ?_
  rcases List.mem_cons.1 hb' with rfl | hb'
  · exact .inr hb
  · exact .inl hb'

theorem advances_pop {b : Activation} {rest : List Activation} (hstack : s.stack l = b :: rest) :
    Advances s (s.goto l rest) l j := by
  refine advances_goto fun b' hb' => .inl ?_
  rw [hstack]
  exact List.mem_cons_of_mem _ hb'

/-- The queue of one loop grows. -/
theorem Advances.of_queue (hserver : t.server = s.server) (hfunctors : t.functors = s.functors)
    (hstack : t.stack = s.stack) {l' : ℓ} {loop : EventLoop ℕ} {news : List (Functor ℕ)}
    (hloop : t.loop = Function.update s.loop l' loop)
    (hpending : loop.pendingFunctors_ = (s.loop l').pendingFunctors_ ++ news)
    (hnews : ∀ f ∈ news, f.conn = j) : Advances s t l j where
  all_eq := by rw [all, hserver, all]
  created i c hc := by rwa [hserver]
  entry name i hi := .inl (by rwa [hserver] at hi)
  functors_eq := hfunctors
  pending l₂ := by
    rw [hloop]
    by_cases hl : l₂ = l'
    · subst hl
      rw [Function.update_self]
      exact ⟨news, hpending, hnews⟩
    · rw [Function.update_of_ne hl]
      exact ⟨[], (List.append_nil _).symm, by simp⟩
  stack b hb := .inl (hstack ▸ hb)
  stack_eq l' _ := congrFun hstack l'

theorem advances_queueInLoop (l : ℓ) {l' : ℓ} {f : Functor ℕ} (hf : f.conn = j) :
    Advances s (s.queueInLoop l' f) l j :=
  .of_queue rfl rfl rfl rfl rfl (by simpa using hf)

/-- A turn of a connection. -/
theorem Moved.advances (l : ℓ) {c : Created ℓ} {w : World ℕ} (ht : Moved s t i c w)
    (hown : (s.world c.loop_ i).link.Own w.link) : Advances s t l i := by
  obtain ⟨news, hqueue, hnews⟩ := hown
  have hpending : w.loop.pendingFunctors_ = (s.loop c.loop_).pendingFunctors_ ++ news := hqueue
  exact .of_queue ht.server_eq ht.functors_eq ht.stack_eq ht.loop_eq hpending hnews

theorem exec_advances (l : ℓ) {f : World ℕ → Except Fault (World ℕ)} (hown : s.Owns i f)
    {effects : List Effect} (h : s.exec i f = .ok (t, effects)) : Advances s t l i := by
  obtain ⟨c, w, hc, hw, -, hmoved, -⟩ := exec_ok h
  exact hmoved.advances l (hown c w hc hw)

theorem execNoted_advances {f : World ℕ → Except Fault (World ℕ)} (hown : s.Owns i f) {ran : Ran}
    (h : s.execNoted l i ran f = .ok t) : Advances s t l i := by
  obtain ⟨c, w, hc, hw, hmoved, -⟩ := execNoted_ok h
  exact hmoved.advances l (hown c w hc hw)

/-- A functor names its connection only. -/
theorem call_advances {answers : Answers} {f : Functor ℕ} (hstrong : f.task.Strong)
    (hready : f.token ≠ none → s.Ready f.conn) (h : s.call l answers f = .ok t) :
    Advances s t l f.conn := by
  obtain ⟨conn, task⟩ := f
  cases task with
  | conneectEstableished =>
    have hready := hready (by simp [Functor.token])
    exact execNoted_advances hready.owns_conneectEstableished h
  | conneectDestroyed =>
    have hready := hready (by simp [Functor.token])
    exact execNoted_advances hready.owns_conneectDestroyed h
  | removeConnectionInLoop =>
    obtain rfl := Except.ok.inj h
    exact advances_enter rfl
  | sendInLoop | shutdownInLoop => exact absurd hstrong id
  | writeCompleteCallback | highWaterMarkCallback =>
    obtain rfl := Except.ok.inj h
    exact .refl s _ _

/-- A functor that takes no connection on is a callback, which leaves everything as it is. -/
theorem call_of_token_none {answers : Answers} {f : Functor ℕ} (hstrong : f.task.Strong)
    (htoken : f.token = none) (h : s.call l answers f = .ok t) : t = s := by
  obtain ⟨conn, task⟩ := f
  cases task with
  | conneectEstableished | conneectDestroyed | removeConnectionInLoop => cases htoken
  | sendInLoop | shutdownInLoop => exact absurd hstrong id
  | writeCompleteCallback | highWaterMarkCallback => exact (Except.ok.inj h).symm

theorem runInLoop_advances {answers : Answers} {l' : ℓ} {f : Functor ℕ} (hstrong : f.task.Strong)
    (hready : f.token ≠ none → s.Ready f.conn) (h : s.runInLoop l l' answers f = .ok t) :
    Advances s t l f.conn := by
  unfold runInLoop at h
  split at h
  next => exact call_advances hstrong hready h
  next =>
    obtain rfl := Except.ok.inj h
    exact advances_queueInLoop l rfl

theorem handle_advances (hready : s.Ready i) {e : Event} (h : s.handle l i e = .ok t) :
    Advances s t l i := by
  obtain ⟨⟨u, effects⟩, hu, h⟩ := bind_eq_ok.1 h
  obtain rfl := Except.ok.inj h
  have hexec := exec_advances l (hready.owns_event e) hu
  split
  · have hnote : Advances u (u.note l i .handleClose) l i :=
      .of_eq rfl rfl rfl (fun _ => .inl) fun _ _ => rfl
    exact (hexec.trans hnote).trans (advances_enter rfl)
  · exact hexec

/-! ## What a thread does -/

/-- The functor that an activation stands for is called, or queued. -/
theorem Ok.runInLoop_advances (hs : s.Ok phase gone) {a : Activation} {rest : List Activation}
    (hstack : s.stack l = a :: rest) {p : Phase} (htoken : a.token = some (i, p)) (hp : p ≠ .torn)
    {l' : ℓ} {task : Task} (hstrong : task.Strong) {answers : Answers}
    (h : (s.goto l rest).runInLoop l l' answers ⟨i, task⟩ = .ok t) : Advances s t l i := by
  obtain ⟨hphase, -⟩ := hs.take_stack hstack htoken
  have hready : (s.goto l rest).Ready i := hs.ready (hphase ▸ hp)
  exact (advances_pop hstack).trans (Loops.runInLoop_advances hstrong (fun _ => hready) h)

/-- **Going on** is about the connection that the thread is inside of, if any. -/
theorem Ok.proceed_advances (hs : s.Ok phase gone) {answers : Answers}
    (h : s.proceed l answers = .ok t) : t = s ∨ ∃ b ∈ s.stack l, Advances s t l b.conn := by
  unfold Loops.proceed at h
  split at h
  next => exact .inl (Except.ok.inj h).symm
  next conn rest hstack =>
    obtain ⟨ioLoop, -, h⟩ := bind_eq_ok.1 h
    have hstrong : Task.Strong .conneectEstableished := trivial
    refine .inr ⟨.newConnection conn, hstack ▸ List.mem_cons_self, ?_⟩
    exact hs.runInLoop_advances hstack rfl Phase.noConfusion hstrong h
  next conn guard rest hstack =>
    obtain rfl := Except.ok.inj h
    exact .inr ⟨.handleEvent conn guard [], hstack ▸ List.mem_cons_self, advances_pop hstack⟩
  next conn guard cb callbacks rest hstack =>
    have htop : .handleEvent conn guard (cb :: callbacks) ∈ s.stack l :=
      hstack ▸ List.mem_cons_self
    have hready := hs.ready (hs.handles l conn guard _ htop).1
    refine .inr ⟨_, htop, ?_⟩
    have hgoto : Advances s (s.goto l (.handleEvent conn guard callbacks :: rest)) l conn := by
      refine advances_goto fun b hb => ?_
      rcases List.mem_cons.1 hb with rfl | hb
      · exact .inr rfl
      · exact .inl (hstack ▸ List.mem_cons_of_mem _ hb)
    exact hgoto.trans (handle_advances hready h)
  next conn rest hstack =>
    have hstrong : Task.Strong .removeConnectionInLoop := trivial
    refine .inr ⟨.removeConnection conn, hstack ▸ List.mem_cons_self, ?_⟩
    exact hs.runInLoop_advances hstack rfl Phase.noConfusion hstrong h
  next conn rest hstack =>
    obtain rfl := Except.ok.inj h
    refine .inr ⟨.removeConnectionInLoop conn, hstack ▸ List.mem_cons_self, ?_⟩
    have herase : Advances (s.goto l rest) _ l conn := advances_erase l conn
    exact ((advances_pop hstack).trans herase).trans (advances_enter rfl)
  next conn rest hstack =>
    obtain ⟨ioLoop, -, h⟩ := bind_eq_ok.1 h
    obtain rfl := Except.ok.inj h
    refine .inr ⟨.erased conn, hstack ▸ List.mem_cons_self, ?_⟩
    exact (advances_pop hstack).trans (advances_queueInLoop l rfl)

/-- The acceptor names the new connection. -/
theorem accept_advances {sockFd : ℕ} {localAddr peerAddr : InetAddress} {complete : Bool}
    (h : s.accept sockFd localAddr peerAddr complete = .ok t) :
    Advances s t s.server.loop_ s.server.created.length := by
  obtain ⟨server, hserver, h⟩ := bind_eq_ok.1 h
  obtain rfl := Except.ok.inj h
  obtain ⟨ioLoop, pool, hpool, -, rfl⟩ := TcpServer.newConnection_ok hserver
  obtain ⟨-, -, hloops⟩ := EventLoopThreadPool.getNextLoop_ok hpool
  have henter : Advances s (s.enter s.server.loop_ (.newConnection s.server.created.length))
      s.server.loop_ s.server.created.length := advances_enter rfl
  refine ⟨?_, fun i c hc => ?_, fun name i hi => ?_, rfl,
    fun _ => ⟨[], (List.append_nil _).symm, by simp⟩, henter.stack, henter.stack_eq⟩
  · simp only [all, enter, goto, hloops]
  · exact (List.getElem?_append_left (List.getElem?_eq_some_iff.1 hc).1).trans hc
  · simp only [enter, goto] at hi
    by_cases hname : name = s.server.connName
    · rw [hname, Function.update_self] at hi
      exact .inr (Option.some.inj hi).symm
    · rw [Function.update_of_ne hname] at hi
      exact .inl hi

theorem dispatch_advances {revents : Mask} : Advances s (s.dispatch l i revents) l i := by
  have henter (guard : Bool) (callbacks : List EventCallback) :
      Advances s (s.enter l (.handleEvent i guard callbacks)) l i := advances_enter rfl
  exact .of_eq rfl rfl rfl (henter ..).stack (henter ..).stack_eq

/-- A call of the user queues functors of the connection, if any. -/
theorem Ok.user_advances (hs : s.Ok phase gone) (l : ℓ) {call : UserCall} {effects : List Effect}
    (h : s.exec i call.exec = .ok (t, effects)) :
    (phase i = .torn → ∀ j, Advances s t l j) ∧ (phase i ≠ .torn → Advances s t l i) := by
  obtain ⟨c, w, hc, hw, -, hmoved, -⟩ := exec_ok h
  refine ⟨fun htorn j => ?_, fun htorn => ?_⟩
  · have hstate : (s.conn i).state_ = .kDisconnected := hs.allows_state htorn Phase.noConfusion
    have hloop := (UserCall.of_disconnected (w := s.world c.loop_ i) hstate hw).1
    have hpending : w.loop.pendingFunctors_ = (s.loop c.loop_).pendingFunctors_ ++ [] := by
      rw [hloop, List.append_nil]
      rfl
    exact .of_queue hmoved.server_eq hmoved.functors_eq hmoved.stack_eq hmoved.loop_eq hpending
      (by simp)
  · exact hmoved.advances l (UserCall.own (hs.ready htorn c hc).2 hw)

/-! ## What a thread is about is held -/

/-- A call that takes a connection on is made for one that is held. -/
theorem Ok.held_of_mem (hs : s.Ok phase gone) {p : Phase} (h : (i, p) ∈ s.tokens l) : s.Held i := by
  obtain ⟨rfl, hhome⟩ := hs.placed.of_mem h
  obtain ⟨c, hc, hhome⟩ := Option.bind_eq_some_iff.1 hhome
  refine hs.held hc fun htorn => ?_
  rw [htorn] at hhome
  cases hhome

/-- What a thread is inside of is about a connection that is held. -/
theorem Ok.held_of_stack (hs : s.Ok phase gone) {b : Activation} (hb : b ∈ s.stack l) :
    s.Held b.conn := by
  cases htoken : b.token with
  | some x =>
    obtain ⟨i, p⟩ := x
    obtain rfl := Activation.conn_of_token htoken
    exact hs.held_of_mem (List.mem_append_left _ (List.mem_filterMap.2 ⟨b, hb, htoken⟩))
  | none =>
    cases b with
    | handleEvent i guard callbacks =>
      obtain ⟨hne, c, hc, -⟩ := hs.handles l i guard callbacks hb
      exact hs.held hc hne
    | newConnection | removeConnection | removeConnectionInLoop | erased => cases htoken

/-- So is the functor of the round that takes a connection on. -/
theorem Ok.held_of_functor (hs : s.Ok phase gone) {f : Functor ℕ} (hf : f ∈ s.queue l)
    (htoken : f.token ≠ none) : s.Held f.conn := by
  obtain ⟨⟨j, p⟩, hx⟩ := Option.ne_none_iff_exists'.1 htoken
  obtain rfl := Functor.conn_of_token hx
  exact hs.held_of_mem (List.mem_append_right _ (List.mem_filterMap.2 ⟨f, hf, hx⟩))

/-- A connection of a poller is held. -/
theorem Ok.held_of_mentions (hs : s.Ok phase gone) {fd : ℕ}
    (h : ((s.loop l).poller.entry fd).Mentions i) : s.Held i := by
  obtain ⟨c, hc, -, hstage⟩ := hs.conns.of_mentions h
  exact hs.held hc (Phase.stage_ne_torn.1 hstage)

/-! ## The cases of a step -/

/-- The functor of `l` that the step calls. -/
def called (s : Loops ℓ) (l : ℓ) : Action ℓ → List (Functor ℕ)
  | .next l' _ => if l' = l ∧ s.stack l = [] then (s.functors l).take 1 else []
  | _ => []

/-- What a step takes from a queue; for the rest, a thread goes on with a connection that is held or
that is new. -/
inductive Takes (s : Loops ℓ) (a : Action ℓ) (t : Loops ℓ) : Prop
  | none (hcalled : ∀ l, s.called l a = []) {l : ℓ} {j : ℕ}
      (hj : s.Held j ∨ s.server.created.length ≤ j) (h : Advances s t l j)
  | queue {l : ℓ} (ha : a = .swap l) (hidle : s.Idle l) (ht : t = s.swap l)
  | functor {l : ℓ} {answers : Answers} (ha : a = .next l answers) (hstack : s.stack l = [])
      {f : Functor ℕ} {fs : List (Functor ℕ)} (hfunctors : s.functors l = f :: fs) {j : ℕ}
      (hj : s.Held j ∨ s.server.created.length ≤ j) (h : Advances (s.round l fs) t l j)

/-- **The cases of a step.** -/
theorem Ok.takes (hs : s.Ok phase gone) {a : Action ℓ} (h : s.step a = .ok t) : Takes s a t := by
  have hrefl (hcalled : ∀ l, s.called l a = []) : Takes s a s :=
    .none hcalled (.inr (Nat.le_refl _)) (.refl s s.server.loop_ _)
  unfold Loops.step at h
  split at h
  next henabled =>
    cases a with
    | accept sockFd localAddr peerAddr complete =>
      exact .none (fun _ => rfl) (.inr (Nat.le_refl _)) (accept_advances h)
    | dispatch l conn revents =>
      obtain rfl := Except.ok.inj h
      have hheld : s.Held conn := hs.held_of_mentions henabled.2
      exact .none (fun _ => rfl) (.inl hheld) (dispatch_advances (l := l))
    | proceed l answers =>
      obtain rfl | ⟨b, hb, hadvances⟩ := hs.proceed_advances h
      · exact hrefl fun _ => rfl
      · exact .none (fun _ => rfl) (.inl (hs.held_of_stack hb)) hadvances
    | swap l => exact .queue rfl henabled (Except.ok.inj h).symm
    | next l answers =>
      have hstack : s.stack l = [] := henabled
      simp only [perform] at h
      split at h
      next hnil =>
        obtain rfl := Except.ok.inj h
        refine hrefl fun l' => ?_
        simp only [called]
        split
        next hl => rw [← hl.1, hnil, List.take_nil]
        next => rfl
      next f fs hfunctors =>
        have hmem : f ∈ s.queue l := by simp [queue, hfunctors]
        by_cases htoken : f.token = none
        · -- a callback of the user, which queues nothing
          obtain rfl := call_of_token_none (hs.tasks l f hmem) htoken h
          exact .functor rfl hstack hfunctors (.inr (Nat.le_refl _)) (.refl _ l _)
        · have hready : f.token ≠ none → (s.round l fs).Ready f.conn := hs.ready_of_token hmem
          have hcall := call_advances (s := s.round l fs) (hs.tasks l f hmem) hready h
          exact .functor rfl hstack hfunctors (.inl (hs.held_of_functor hmem htoken)) hcall
    | user conn call =>
      obtain ⟨⟨u, effects⟩, hu, h⟩ := bind_eq_ok.1 h
      obtain rfl := Except.ok.inj h
      obtain ⟨htornAdvances, hadvances⟩ := hs.user_advances s.server.loop_ hu
      by_cases htorn : phase conn = .torn
      · exact .none (fun _ => rfl) (.inr (Nat.le_refl _)) (htornAdvances htorn _)
      · have hheld : s.Held conn := hs.held (List.getElem?_eq_getElem henabled) htorn
        exact .none (fun _ => rfl) (.inl hheld) (hadvances htorn)
  next hnot =>
    obtain rfl := Except.ok.inj h
    refine hrefl fun l => ?_
    cases a with
    | next l' answers =>
      have hstack : s.stack l' ≠ [] := hnot
      simp only [called]
      split
      next hl => exact absurd (hl.1 ▸ hl.2) hstack
      next => rfl
    | _ => rfl

end Loops

end Muduo
