import Muduo.TcpServer.Advance

/-!
# The end of a connection

A connection lives as long as something of the server holds it (`Loops.Held`). Its channel, its
functors and the calls of the server name it by plain pointers besides. `Disposed` says that nothing
of this is left, and that the destructor finds the connection disconnected. Over every run of the
server with its loops, a connection that is no longer held is disposed of, whatever a thread runs on
a connection it runs while this is held, and what is no longer held is never held again
(`Loops.disposes`).
-/

namespace Muduo

open Run

variable {ℓ : Type}

namespace Loops

/-! ## What a step names anew -/

/-- From `s` to `t` no connection but `j` has got a new entry of `connections_`, a new functor or a
new activation. -/
structure Only (s t : Loops ℓ) (j : ℕ) : Prop where
  all_eq : t.all = s.all
  created : ∀ (i : ℕ) (c : Created ℓ), s.server.created[i]? = some c →
    t.server.created[i]? = some c
  entry : ∀ name i, t.server.connections_ name = some i →
    s.server.connections_ name = some i ∨ i = j
  queue : ∀ l, ∀ f ∈ t.queue l, f ∈ s.queue l ∨ f.conn = j
  stack : ∀ l, ∀ b ∈ t.stack l, b ∈ s.stack l ∨ b.conn = j

variable {s t u : Loops ℓ} {l : ℓ} {i j : ℕ} {phase : ℕ → Phase} {gone : List ℕ}

theorem Only.refl (s : Loops ℓ) (j : ℕ) : Only s s j :=
  ⟨rfl, fun _ _ => id, fun _ _ => .inl, fun _ _ => .inl, fun _ _ => .inl⟩

theorem Only.trans (h : Only s t j) (h' : Only t u j) : Only s u j where
  all_eq := h'.all_eq.trans h.all_eq
  created i c hc := h'.created i c (h.created i c hc)
  entry name i hi := (h'.entry name i hi).elim (h.entry name i) .inr
  queue l f hf := (h'.queue l f hf).elim (h.queue l f) .inr
  stack l b hb := (h'.stack l b hb).elim (h.stack l b) .inr

/-- What is held after a step that names another connection has been held before. -/
theorem Only.held (h : Only s t j) (hij : j ≠ i) {c : Created ℓ}
    (hc : s.server.created[i]? = some c) (hheld : t.Held i) : s.Held i := by
  obtain ⟨d, hd, hentry⟩ | ⟨l, hl, ⟨f, hf, hconn, hstrong⟩ | ⟨b, hb, hholds⟩⟩ := hheld
  · obtain rfl := Option.some.inj ((h.created i c hc).symm.trans hd)
    exact .inl ⟨c, hc, (h.entry _ _ hentry).resolve_right hij.symm⟩
  · have hf := (h.queue l f hf).resolve_right fun heq => hij (heq.symm.trans hconn)
    exact .inr ⟨l, h.all_eq ▸ hl, .inl ⟨f, hf, hconn, hstrong⟩⟩
  · have hconn := Activation.conn_of_holds hholds
    have hb := (h.stack l b hb).resolve_right fun heq => hij (heq.symm.trans hconn)
    exact .inr ⟨l, h.all_eq ▸ hl, .inr ⟨b, hb, hholds⟩⟩

/-- A functor is taken from the round, or the queue for a round. -/
theorem only_of_queue (hserver : t.server = s.server) (hstack : t.stack = s.stack)
    (hqueue : ∀ l, ∀ f ∈ t.queue l, f ∈ s.queue l) : Only s t j where
  all_eq := by rw [all, hserver, all]
  created i c hc := by rwa [hserver]
  entry name i hi := .inl (by rwa [hserver] at hi)
  queue l f hf := .inl (hqueue l f hf)
  stack l b hb := .inl (hstack ▸ hb)

variable [DecidableEq ℓ]

theorem Advances.only (h : Advances s t l j) : Only s t j where
  all_eq := h.all_eq
  created := h.created
  entry := h.entry
  queue l' f hf := by
    obtain ⟨news, hpending, hnews⟩ := h.pending l'
    rw [queue, h.functors_eq, hpending, ← List.append_assoc, List.mem_append] at hf
    exact hf.imp_right (hnews f)
  stack l' b hb := by
    by_cases hl : l' = l
    · exact hl ▸ h.stack b (hl ▸ hb)
    · exact .inl (h.stack_eq l' hl ▸ hb)

theorem only_round {f : Functor ℕ} {fs : List (Functor ℕ)} (hfunctors : s.functors l = f :: fs) :
    Only s (s.round l fs) j :=
  only_of_queue rfl rfl fun _ _ => mem_round_queue hfunctors

theorem only_swap (hfunctors : s.functors l = []) : Only s (s.swap l) j := by
  refine only_of_queue rfl rfl fun l' g hg => ?_
  by_cases hl : l' = l
  · subst hl
    rw [swap, setPending_queue, List.append_nil] at hg
    rw [queue, hfunctors, List.nil_append]
    simpa [round] using hg
  · rwa [swap, setPending_queue_of_ne hl, round_queue_of_ne hl] at hg

/-! ## Nothing names what is not held -/

/-- Nothing names the connection `i`, whose functions have all run, and its destructor finds it
disconnected. -/
structure Disposed (s : Loops ℓ) (i : ℕ) (c : Created ℓ) : Prop where
  destruct : TcpConnection.destruct (s.world c.loop_ i) = .ok ()
  history : s.history i =
    [(.conneectEstableished, c.loop_), (.handleClose, c.loop_), (.conneectDestroyed, c.loop_)]
  index : (s.conn i).channel_.index_ = .kNew
  entry : ∀ name, s.server.connections_ name ≠ some i
  poller : ∀ l fd, ¬((s.loop l).poller.entry fd).Mentions i
  functor : ∀ l ∈ s.all, ∀ f ∈ s.queue l, f.conn ≠ i
  activation : ∀ l, ∀ b ∈ s.stack l, b.conn ≠ i

/-- **A connection that is no longer held** is disposed of. -/
theorem Ok.disposed (hs : s.Ok phase gone) {c : Created ℓ} (hc : s.server.created[i]? = some c)
    (hheld : ¬s.Held i) : s.Disposed i c := by
  have htorn : phase i = .torn := by
    by_contra hne
    exact hheld (hs.held hc hne)
  have hpart := hs.conns.part i c hc
  simp only [htorn] at hpart
  refine ⟨if_pos hpart.state, hpart.history, hpart.index rfl, fun name hentry => ?_,
    fun l fd h => hheld (hs.held_of_mentions h), fun l hl f hf hconn => ?_, fun l b hb hconn => ?_⟩
  · obtain ⟨⟨d, hd, hname⟩, -⟩ := (hs.conns.registered.entries name i).1 hentry
    exact hheld (.inl ⟨d, hd, hname ▸ hentry⟩)
  · exact hheld (.inr ⟨l, hl, .inl ⟨f, hf, hconn, hs.tasks l f hf⟩⟩)
  · exact hheld (hconn ▸ hs.held_of_stack hb)

/-- **A thread** runs the functions of connections that are held, but for what the user calls. -/
theorem Ok.turn_held (hs : s.Ok phase gone) {a : Action ℓ} {f : Turn}
    (hturn : s.turn a = some (i, f)) : s.Held i ∨ ∃ call, f = .user call := by
  have henabled : s.Enabled a := by
    by_contra hnot
    rw [turn, if_neg hnot] at hturn
    cases hturn
  rw [turn_eq henabled] at hturn
  have htop {b : Activation} {rest : List Activation} {l : ℓ} (hstack : s.stack l = b :: rest) :
      s.Held b.conn := hs.held_of_stack (hstack ▸ List.mem_cons_self)
  cases a with
  | accept | dispatch | swap => cases hturn
  | user conn call =>
    obtain ⟨rfl, rfl⟩ := Prod.mk.inj (Option.some.inj hturn)
    exact .inr ⟨call, rfl⟩
  | proceed l answers =>
    simp only [turnOf] at hturn
    split at hturn
    next conn rest hstack =>
      split at hturn
      next =>
        obtain ⟨rfl, rfl⟩ := Prod.mk.inj (Option.some.inj hturn)
        exact .inl (htop hstack)
      next => cases hturn
    next conn guard cb callbacks rest hstack =>
      obtain ⟨rfl, rfl⟩ := Prod.mk.inj (Option.some.inj hturn)
      exact .inl (htop hstack)
    next => cases hturn
  | next l answers =>
    simp only [turnOf] at hturn
    split at hturn
    next => cases hturn
    next g fs hfunctors =>
      obtain ⟨conn, task⟩ := g
      have hmem : ⟨conn, task⟩ ∈ s.queue l := by simp [queue, hfunctors]
      cases task with
      | conneectEstableished | conneectDestroyed =>
        obtain ⟨rfl, rfl⟩ := Prod.mk.inj (Option.some.inj hturn)
        exact .inl (hs.held_of_functor hmem (by simp [Functor.token]))
      | sendInLoop | shutdownInLoop => exact absurd (hs.tasks l _ hmem) id
      | removeConnectionInLoop | writeCompleteCallback | highWaterMarkCallback => cases hturn

/-! ## What is not held is not held again -/

/-- A step names no connection anew that is not held, unless it creates it. -/
theorem Ok.only_step (hs : s.Ok phase gone) {a : Action ℓ} (h : s.step a = .ok t)
    (hlt : i < s.server.created.length) (hheld : ¬s.Held i) : ∃ j, j ≠ i ∧ Only s t j := by
  have hne {j : ℕ} (hj : s.Held j ∨ s.server.created.length ≤ j) : j ≠ i := by
    rintro rfl
    exact hj.elim hheld (Nat.not_le_of_lt hlt)
  cases hs.takes h with
  | none hcalled hj hadvances => exact ⟨_, hne hj, hadvances.only⟩
  | queue ha hidle ht => exact ⟨i + 1, Nat.succ_ne_self i, ht ▸ only_swap hidle.2⟩
  | functor ha hstack hfunctors hj hadvances =>
    exact ⟨_, hne hj, (only_round hfunctors).trans hadvances.only⟩

/-- **A step**: what is not held is not held again. -/
theorem Ok.unheld_step (hs : s.Ok phase gone) {a : Action ℓ} (h : s.step a = .ok t)
    {c : Created ℓ} (hc : s.server.created[i]? = some c) (hheld : ¬s.Held i) :
    t.server.created[i]? = some c ∧ ¬t.Held i := by
  have hlt := (List.getElem?_eq_some_iff.1 hc).1
  obtain ⟨j, hj, honly⟩ := hs.only_step h hlt hheld
  exact ⟨honly.created i c hc, fun h => hheld (honly.held hj hc h)⟩

/-- **The end of a connection**: in every state that a run reaches, in which users call a connection
on the thread of its loop, nothing of the server, of its loops and of their pollers names a
connection that is no longer held, its three functions have run, and its destructor finds it
disconnected. Whatever a thread is about to run on a connection, it runs while this is held, but for
the calls of the user. And what is no longer held is never held again, so that all this stays. -/
theorem disposes {loop : ℓ} {loops : List ℓ} {listenAddr : InetAddress} {nameArg : List Char}
    {server : TcpServer ℓ} {actions : List (Action ℓ)} {s : Loops ℓ}
    (hserver : TcpServer.construct loop listenAddr nameArg = .ok server)
    (h : run step (start (server.start loops)) actions = .ok s) :
    (∀ i c, s.server.created[i]? = some c → ¬s.Held i → s.Disposed i c ∧
      ∀ more t, run step s more = .ok t → ¬t.Held i ∧ t.Disposed i c) ∧
    ∀ a i f, s.turn a = some (i, f) → s.Held i ∨ ∃ call, f = .user call := by
  have hok : ∃ phase gone, s.Ok phase gone := by
    refine invariant (I := fun s => ∃ phase gone, s.Ok phase gone) ?_ ⟨_, _, start_ok hserver⟩ h
    rintro s a t ⟨phase, gone, hs⟩ ht
    exact hs.step ht
  obtain ⟨phase, gone, hs⟩ := hok
  refine ⟨fun i c hc hheld => ⟨hs.disposed hc hheld, fun more t ht => ?_⟩,
    fun a i f => hs.turn_held⟩
  have hlater : (∃ phase gone, t.Ok phase gone) ∧ t.server.created[i]? = some c ∧ ¬t.Held i := by
    refine invariant (I := fun t : Loops ℓ => (∃ phase gone, t.Ok phase gone) ∧
      t.server.created[i]? = some c ∧ ¬t.Held i) ?_ ⟨⟨phase, gone, hs⟩, hc, hheld⟩ ht
    rintro s a t ⟨⟨phase, gone, hs⟩, hc, hheld⟩ ht
    exact ⟨hs.step ht, hs.unheld_step ht hc hheld⟩
  obtain ⟨⟨phase, gone, ht⟩, hc, hheld⟩ := hlater
  exact ⟨hheld, ht.disposed hc hheld⟩

/-- The connection of the loop `1` is accepted, served, closed and torn down. -/
theorem disposes_lifetime : ∃ (server : TcpServer ℕ) (s : Loops ℕ),
    TcpServer.construct 0 ⟨(127, 0, 0, 1), 16415⟩ ['s'] = .ok server ∧
    run step (start (server.start [1])) lifetime = .ok s ∧
    (s.server.created.length = 1 ∧ ¬s.Held 0) ∧
    (∀ i c, s.server.created[i]? = some c → ¬s.Held i → s.Disposed i c ∧
      ∀ more t, run step s more = .ok t → ¬t.Held i ∧ t.Disposed i c) ∧
    ∀ a i f, s.turn a = some (i, f) → s.Held i ∨ ∃ call, f = .user call := by
  have hrun : (TcpServer.construct 0 ⟨(127, 0, 0, 1), 16415⟩ ['s'] >>= fun server =>
      run step (start (server.start [1])) lifetime).map
        (fun s => decide (s.server.created.length = 1 ∧ ¬s.Held 0)) = .ok true := by
    decide +kernel
  obtain ⟨s, hs, hheld⟩ := exists_of_map hrun
  obtain ⟨server, hserver, hs⟩ := bind_eq_ok.1 hs
  exact ⟨server, s, hserver, hs, of_decide_eq_true hheld, disposes hserver hs⟩

end Loops

end Muduo
