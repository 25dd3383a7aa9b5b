import Mathlib.Data.List.Chain
import Muduo.TcpConnection.Shutdown

/-!
# The state of a connection

`StateE` has an order of its own: a connection is `kConnecting`, then `kConnected`, then perhaps
`kDisconnecting`, then `kDisconnected`. The functions of the loop thread follow it, since
`conneectEstableished` runs once and first. `shutdown` on another thread tests the state and stores
to it in two steps, and `forward_iff` says that only this store can take the state back: a run moves
the state forward exactly when no such store finds the connection disconnected. (A `shutdown` on the
loop thread cannot be overtaken by a close; what other threads store between its two steps is what
it stores itself.)
-/

namespace Muduo

open Run

variable {ι τ : Type}

/-- The place of a state in the life of a connection. -/
def StateE.rank : StateE → ℕ
  | kConnecting => 0
  | kConnected => 1
  | kDisconnecting => 2
  | kDisconnected => 3

/-- A step other than `conneectEstableished` can take the state from `x` to `y`. -/
def StateE.Follows (x y : StateE) : Prop := x = y ∨ x ≠ .kConnecting ∧ y ≠ .kConnecting

namespace Threads

/-! ## The values of the state -/

section

variable [DecidableEq τ]

/-- The values of `state_` over a run. -/
def states : Threads ι τ → List (Action τ) → List StateE
  | s, [] => [s.world.conn.state_]
  | s, a :: actions =>
    s.world.conn.state_ ::
      match s.step a with
      | .ok t => states t actions
      | .error _ => []

/-- The step does not take the state back. -/
def Forward (s : Threads ι τ) (a : Action τ) : Prop :=
  ∀ t, s.step a = .ok t → s.world.conn.state_.rank ≤ t.world.conn.state_.rank

theorem states_eq_cons (s : Threads ι τ) (actions : List (Action τ)) :
    ∃ rest, states s actions = s.world.conn.state_ :: rest := by
  cases actions <;> exact ⟨_, rfl⟩

theorem isChain_states {s : Threads ι τ} {actions : List (Action τ)} :
    (states s actions).IsChain (fun x y => x.rank ≤ y.rank) ↔ Along step Forward s actions := by
  induction actions generalizing s with
  | nil => simp [states, Along]
  | cons a actions ih =>
    cases hstep : s.step a with
    | error e => simp [states, Along, Forward, hstep]
    | ok t =>
      obtain ⟨rest, hrest⟩ := states_eq_cons t actions
      have htail := ih (s := t)
      rw [hrest] at htail
      simp only [states, Along, Forward, hstep, hrest, List.isChain_cons_cons, htail,
        Except.ok.injEq, forall_eq']

/-- The values of the state are in order when every step moves it forward. -/
theorem pairwise_states {s : Threads ι τ} {actions : List (Action τ)} :
    (states s actions).Pairwise (fun x y => x.rank ≤ y.rank) ↔ Along step Forward s actions := by
  have htrans : Trans (fun x y : StateE => x.rank ≤ y.rank) (fun x y : StateE => x.rank ≤ y.rank)
      (fun x y : StateE => x.rank ≤ y.rank) := ⟨Nat.le_trans⟩
  rw [← List.isChain_iff_pairwise, isChain_states]

end

/-! ## The invariant -/

/-- The functor runs `conneectEstableished`. -/
def Establishes (f : Functor ι) : Prop := f.task = .conneectEstableished

instance (f : Functor ι) : Decidable (Establishes f) := inferInstanceAs (Decidable (_ = _))

/-- The number of calls of `conneectEstableished` that wait. -/
def establishing (s : Threads ι τ) : ℕ := s.queue.countP (Establishes ·)

/-- The invariant: `conneectEstableished` waits on a new connection only, and once. -/
structure Begins (s : Threads ι τ) : Prop where
  sound : s.world.Sound
  tasks : ∀ f ∈ s.queue, f.task.Queued ∨ Establishes f
  once : s.establishing ≤ 1
  begun : s.world.conn.state_ ≠ .kConnecting → s.establishing = 0
  tested : (s.destroying = true ∨ ∃ t, s.thread t = .tested) → s.world.conn.state_ ≠ .kConnecting

variable {s t : Threads ι τ}

theorem countP_of_grows {l l' : Link ι} (h : l.Grows l') :
    l'.queue.countP (Establishes ·) = l.queue.countP (Establishes ·) := by
  obtain ⟨news, hqueue, hnews⟩ := h.queue
  have hnone : news.countP (Establishes ·) = 0 := by
    refine List.countP_eq_zero.2 fun f hf => ?_
    have hcallback := hnews f hf
    rw [decide_eq_true_eq]
    intro heq
    rw [show f.task = .conneectEstableished from heq] at hcallback
    exact hcallback
  rw [hqueue, List.countP_append, hnone, Nat.add_zero]

/-- The connection makes a step to the link `l`. -/
theorem Begins.moved (hs : s.Begins) {w : World ι} {l : Link ι} (hrefines : s.world.Refines w l)
    (hgrows : s.world.link.Grows l) (hstate : s.world.conn.state_.Follows l.state_) :
    (s.moved w).Begins := by
  have hgrown := countP_of_grows hgrows
  obtain ⟨hsound, rfl, -, -⟩ := hrefines
  have hcount : (s.moved w).establishing = s.establishing := by
    unfold establishing
    rw [queue, queue, List.countP_append, List.countP_append]
    exact congrArg _ hgrown
  have hne : (s.moved w).world.conn.state_ ≠ .kConnecting → s.world.conn.state_ ≠ .kConnecting := by
    rcases hstate with heq | ⟨hne, -⟩
    · exact fun h h' => h (heq.symm.trans h')
    · exact fun _ => hne
  refine ⟨hsound, fun f hf => ?_, hcount ▸ hs.once, fun h => hcount ▸ hs.begun (hne h), fun h => ?_⟩
  · rcases List.mem_append.1 hf with hf | hf
    · exact hs.tasks f (List.mem_append_left _ hf)
    · rcases hgrows.mem_queue hf with hf | hf
      · exact hs.tasks f (List.mem_append_right _ hf)
      · exact .inl hf.queued
  · rcases hstate with heq | ⟨-, hne⟩
    · exact fun h' => hs.tested h (heq.trans h')
    · exact hne

/-- The next functor is taken from the round. -/
theorem Begins.pop (hs : s.Begins) {f : Functor ι} {fs : List (Functor ι)}
    (hfunctors : s.functors = f :: fs) :
    Begins { s with functors := fs } ∧ (f.task.Queued ∨ Establishes f) ∧
      (Establishes f → s.world.conn.state_ = .kConnecting ∧
        establishing { s with functors := fs } = 0) := by
  have hqueue : s.queue = f :: (fs ++ s.world.loop.pendingFunctors_) := by rw [queue, hfunctors]; rfl
  have hcount : s.establishing =
      establishing { s with functors := fs } + if Establishes f then 1 else 0 := by
    rw [establishing, hqueue, List.countP_cons]
    simp [establishing, queue]
  have honce := hs.once
  refine ⟨⟨hs.sound, fun g hg => ?_, by omega, fun h => ?_, hs.tested⟩, ?_, fun hf => ⟨?_, ?_⟩⟩
  · exact hs.tasks g (hqueue ▸ List.mem_cons_of_mem f hg)
  · have hzero := hs.begun h
    omega
  · exact hs.tasks f (by simp [hqueue])
  · by_contra h
    have hzero := hs.begun h
    rw [if_pos hf] at hcount
    omega
  · rw [if_pos hf] at hcount
    omega

theorem Begins.note (hs : s.Begins) (m : Mark) : (s.note m).Begins :=
  ⟨hs.sound, hs.tasks, hs.once, hs.begun, hs.tested⟩

theorem Begins.queueInLoop (hs : s.Begins) {task : Task} (htask : task.Queued)
    (h : s.queueInLoop task = .ok t) : t.Begins ∧ t.world.conn.state_ = s.world.conn.state_ := by
  obtain ⟨w, hw, rfl⟩ := exec_ok h
  obtain rfl := Except.ok.inj hw
  have hrefines := TcpConnection.queueInLoop_spec hs.sound task
  have hnot : ¬Establishes (⟨s.world.self, task⟩ : Functor ι) := by
    intro heq
    rw [show task = .conneectEstableished from heq] at htask
    exact htask
  have hqueue : (s.moved (TcpConnection.queueInLoop s.world task)).queue =
      s.queue ++ [⟨s.world.self, task⟩] := (List.append_assoc ..).symm
  have hcount : (s.moved (TcpConnection.queueInLoop s.world task)).establishing = s.establishing := by
    rw [establishing, hqueue, List.countP_append, establishing]
    simp [hnot]
  refine ⟨⟨hrefines.sound, fun f hf => ?_, hcount ▸ hs.once, fun h => hcount ▸ hs.begun h, hs.tested⟩,
    rfl⟩
  rw [hqueue] at hf
  rcases List.mem_append.1 hf with hf | hf
  · exact hs.tasks f hf
  · obtain rfl := List.mem_singleton.1 hf
    exact .inl htask

/-! ## Steps -/

/-- A step of the connection that keeps the state or closes the connection, or shuts it down. -/
theorem Begins.exec (hs : s.Begins) {op : TcpConnection.Op} {w : World ι} (h : op.exec s.world = .ok w)
    (hgrows : s.world.link.Grows (op.link s.world)) :
    (s.moved w).Begins ∧ s.world.conn.state_.rank ≤ w.conn.state_.rank := by
  have hrefines := TcpConnection.Op.exec_ok hs.sound h
  have hlink : w.conn.state_ = (op.link s.world).state_ := congrArg Link.state_ hrefines.link_eq
  cases TcpConnection.Op.exec_moves hs.sound h with
  | inside _ hstate =>
    have hstate : w.conn.state_ = s.world.conn.state_ ∨
      s.world.conn.state_ = .kConnected ∧ w.conn.state_ = .kDisconnecting := hstate
    rcases hstate with heq | ⟨hold, hnew⟩
    · exact ⟨hs.moved hrefines hgrows (.inl (heq.symm.trans hlink)), Nat.le_of_eq (by rw [heq])⟩
    · refine ⟨hs.moved hrefines hgrows (.inr ⟨by simp [hold], ?_⟩), by simp [hold, hnew, StateE.rank]⟩
      rw [← hlink, hnew]
      exact StateE.noConfusion
  | closes hlive heq =>
    have hlive : s.world.conn.state_ = .kConnected ∨ s.world.conn.state_ = .kDisconnecting := hlive
    have hnew : w.conn.state_ = .kDisconnected := congrArg Link.state_ heq
    refine ⟨hs.moved hrefines hgrows (.inr ⟨?_, ?_⟩), ?_⟩
    · rcases hlive with h | h <;> simp [h]
    · rw [← hlink, hnew]
      exact StateE.noConfusion
    · rcases hlive with h | h <;> simp [h, hnew, StateE.rank]

/-- A step that keeps the state. -/
theorem Begins.calm (hs : s.Begins) {w : World ι} {l : Link ι} (hrefines : s.world.Refines w l)
    (hgrows : s.world.link.Grows l) (hstate : l.state_ = s.world.conn.state_) :
    (s.moved w).Begins ∧ w.conn.state_ = s.world.conn.state_ :=
  ⟨hs.moved hrefines hgrows (.inl hstate.symm),
    (congrArg Link.state_ hrefines.link_eq).trans hstate⟩

theorem Begins.sendInLoop (hs : s.Begins) {data : Text} {len : ℤ}
    (hlen : -2 ^ 31 ≤ len ∧ len < 2 ^ 31) {write : Write} {w : World ι}
    (h : TcpConnection.sendInLoop s.world data.1 len write = .ok w) :
    (s.moved w).Begins ∧ w.conn.state_ = s.world.conn.state_ := by
  obtain ⟨l, hrefines, hl⟩ := TcpConnection.sendInLoop_cases hs.sound hlen h
  rcases hl with rfl | ⟨n, errno, rfl⟩ | rfl
  · exact hs.calm hrefines (.of_eq List.prefix_rfl rfl) rfl
  · exact hs.calm hrefines (s.world.link.grows_emit _) rfl
  · exact hs.calm hrefines (s.world.link.grows_send _ _) (s.world.link.send_state _ _)

/-- `conneectEstableished` runs on a new connection, and does not run again. -/
theorem Begins.conneectEstableished (hs : s.Begins) (hcount : s.establishing = 0)
    {w : World ι} (h : TcpConnection.conneectEstableished s.world = .ok w) :
    (s.moved w).Begins ∧ w.conn.state_ = .kConnected := by
  obtain ⟨w', hw', hrefines⟩ := TcpConnection.conneectEstableished_spec hs.sound
  obtain rfl := Except.ok.inj (hw'.symm.trans h)
  have hstate : w'.conn.state_ = .kConnected := congrArg Link.state_ hrefines.link_eq
  have hqueue : (s.moved w').queue = s.queue :=
    congrArg (s.functors ++ ·) (congrArg Link.queue hrefines.link_eq)
  have hzero : (s.moved w').establishing = 0 := by rw [establishing, hqueue]; exact hcount
  refine ⟨⟨hrefines.sound, hqueue ▸ hs.tasks, by omega, fun _ => hzero, fun _ => ?_⟩, hstate⟩
  rw [show (s.moved w').world.conn.state_ = _ from hstate]
  exact StateE.noConfusion

theorem Begins.conneectDestroyed (hs : s.Begins) (h : s.conneectDestroyed = .ok t) :
    t.Begins ∧ t.world.conn.state_ = s.world.conn.state_ := by
  rcases conneectDestroyed_ok h with ⟨hconnected, rfl⟩ | ⟨w, hw, rfl⟩
  · exact ⟨⟨hs.sound, hs.tasks, hs.once, hs.begun, fun _ => by simp [hconnected]⟩, rfl⟩
  · exact hs.calm (TcpConnection.callChannel_ok hs.sound hw) (.of_eq List.prefix_rfl rfl) rfl

theorem Begins.finishDestroyed (hs : s.Begins) (hdestroying : s.destroying = true)
    (h : s.finishDestroyed = .ok t) : t.Begins ∧ t.world.conn.state_ = .kDisconnected := by
  obtain ⟨w, rfl, hrefines⟩ := finishDestroyed_ok hs.sound h
  have hstate := hs.tested (.inl hdestroying)
  have hs' : Begins { s with destroying := false } :=
    ⟨hs.sound, hs.tasks, hs.once, hs.begun, fun h => hs.tested (h.imp_left fun h => Bool.noConfusion h)⟩
  exact ⟨hs'.moved hrefines (.of_eq (List.prefix_append _ _) rfl) (.inr ⟨hstate, StateE.noConfusion⟩),
    congrArg Link.state_ hrefines.link_eq⟩

/-- A functor runs. -/
theorem Begins.call (hs : s.Begins) {write : Write} {task : Task}
    (htask : task.Queued ∨ task = .conneectEstableished)
    (hestablish : task = .conneectEstableished →
      s.world.conn.state_ = .kConnecting ∧ s.establishing = 0)
    (h : s.call write task = .ok t) :
    t.Begins ∧ s.world.conn.state_.rank ≤ t.world.conn.state_.rank := by
  have hkeep : t.Begins ∧ t.world.conn.state_ = s.world.conn.state_ →
      t.Begins ∧ s.world.conn.state_.rank ≤ t.world.conn.state_.rank :=
    fun h => ⟨h.1, Nat.le_of_eq (by rw [h.2])⟩
  cases task with
  | sendInLoop data len =>
    have h : s.exec (fun w => TcpConnection.sendInLoop w (s.memory data).1 len write) = .ok t := h
    obtain ⟨w, hw, rfl⟩ := exec_ok h
    exact hkeep (hs.sendInLoop (htask.resolve_right Task.noConfusion) hw)
  | shutdownInLoop =>
    obtain rfl := shutdownInLoop_ok h
    have hrefines := TcpConnection.shutdownInLoop_spec hs.sound
    obtain ⟨hbegins, hstate⟩ := hs.calm hrefines s.world.link.grows_shutdownInLoop (by simp)
    exact hkeep ⟨hbegins.note _, hstate⟩
  | writeCompleteCallback | highWaterMarkCallback => exact hkeep (Except.ok.inj h ▸ ⟨hs, rfl⟩)
  | conneectEstableished =>
    have h : s.exec TcpConnection.conneectEstableished = .ok t := h
    obtain ⟨w, hw, rfl⟩ := exec_ok h
    obtain ⟨hstate, hcount⟩ := hestablish rfl
    obtain ⟨hbegins, hstate'⟩ := hs.conneectEstableished hcount hw
    exact ⟨hbegins, by simp [hstate, StateE.rank]⟩
  | conneectDestroyed => exact hkeep (hs.conneectDestroyed h)
  | removeConnectionInLoop =>
    have hqueued : Task.conneectDestroyed.Queued := trivial
    exact hkeep (hs.queueInLoop hqueued h)

variable [DecidableEq τ]

/-- A thread other than the loop thread moves on. -/
theorem Begins.enter (hs : s.Begins) (t : τ) {pc : Pc}
    (hpc : pc = .tested → s.world.conn.state_ ≠ .kConnecting) : (s.enter t pc).Begins := by
  refine ⟨hs.sound, hs.tasks, hs.once, hs.begun, ?_⟩
  rintro (hdestroying | ⟨t', htested⟩)
  · exact hs.tested (.inl hdestroying)
  · by_cases ht : t' = t
    · subst ht
      exact hpc (by simpa [Threads.enter] using htested)
    · exact hs.tested (.inr ⟨t', by simpa [Threads.enter, ht] using htested⟩)

theorem Begins.storeShutdown (hs : s.Begins) {i : τ} (hi : s.thread i = .tested) :
    (s.storeShutdown i).Begins := by
  have hne := hs.tested (.inr ⟨i, hi⟩)
  have hstore : Begins { s with world := TcpConnection.setState s.world .kDisconnecting } :=
    ⟨⟨hs.sound.valid, hs.sound.agrees⟩, hs.tasks, hs.once, fun _ => hs.begun hne,
      fun _ => StateE.noConfusion⟩
  exact hstore.enter i (by simp)

/-- **Every step keeps the invariant**, and moves the state forward unless a store of `shutdown`
comes too late. -/
theorem Begins.step (hs : s.Begins) {a : Action τ} (h : s.step a = .ok t) :
    t.Begins ∧ (s.world.conn.state_.rank ≤ t.world.conn.state_.rank ↔ ¬s.StoresLate a) := by
  have hforward : t.Begins ∧ s.world.conn.state_.rank ≤ t.world.conn.state_.rank →
      ¬s.StoresLate a →
      t.Begins ∧ (s.world.conn.state_.rank ≤ t.world.conn.state_.rank ↔ ¬s.StoresLate a) :=
    fun h hlate => ⟨h.1, iff_of_true h.2 hlate⟩
  have hkeep : t.Begins ∧ t.world.conn.state_ = s.world.conn.state_ → ¬s.StoresLate a →
      t.Begins ∧ (s.world.conn.state_.rank ≤ t.world.conn.state_.rank ↔ ¬s.StoresLate a) :=
    fun h => hforward ⟨h.1, Nat.le_of_eq (by rw [h.2])⟩
  cases step_ok h with
  | stay a _ hstore =>
    refine hkeep ⟨hs, rfl⟩ fun hlate => ?_
    cases a with
    | storeShutdown i => exact hstore i rfl hlate.1
    | _ => exact hlate
  | event e w hw => exact hforward (hs.exec hw (e.grows s.world)) id
  | send data write w _ hw =>
    obtain ⟨hbegins, hstate⟩ := hs.sendInLoop (castInt_range _) hw
    exact hkeep ⟨hbegins.note _, hstate⟩ id
  | shutdown _ h =>
    rcases shutdown_ok h with ⟨-, rfl⟩ | ⟨-, rfl⟩
    · have hop : (TcpConnection.Op.shutdown true).exec s.world =
          .ok (TcpConnection.shutdown s.world true) := rfl
      obtain ⟨hbegins, hrank⟩ := (hs.note _).exec hop s.world.link.grows_shutdown
      exact hforward ⟨hbegins.note _, hrank⟩ id
    · exact hkeep ⟨hs.note _, rfl⟩ id
  | swap hfunctors =>
    have hqueue : s.queue = s.world.loop.pendingFunctors_ ++ [] := by
      rw [queue, hfunctors, List.append_nil, List.nil_append]
    have hcount : s.establishing =
        (s.world.loop.pendingFunctors_ ++ []).countP (Establishes ·) := by
      rw [establishing, hqueue]
    refine hkeep ⟨⟨⟨hs.sound.valid, hs.sound.agrees⟩, fun f hf => hs.tasks f (hqueue ▸ hf), ?_, ?_,
      hs.tested⟩, rfl⟩ id
    · exact Nat.le_trans (Nat.le_of_eq hcount.symm) hs.once
    · exact fun h => hcount.symm.trans (hs.begun h)
  | next f fs write _ _ hfunctors h =>
    obtain ⟨hpop, htask, hestablish⟩ := hs.pop hfunctors
    exact hforward (hpop.call htask hestablish h) id
  | conneectDestroyed _ h => exact hkeep (hs.conneectDestroyed h) id
  | finishDestroyed _ hdestroying h =>
    obtain ⟨hbegins, hstate⟩ := hs.finishDestroyed hdestroying h
    refine hforward ⟨hbegins, ?_⟩ id
    rw [hstate]
    cases s.world.conn.state_ <;> simp [StateE.rank]
  | queueDestroyed _ h =>
    have hqueued : Task.conneectDestroyed.Queued := trivial
    exact hkeep (hs.queueInLoop hqueued h) id
  | callSend i data => exact hkeep ⟨hs.enter i (by simp), rfl⟩ id
  | queueSend i data buf u _ hu =>
    have hqueued : Task.Queued (.sendInLoop data (castInt buf.1.length)) := castInt_range _
    obtain ⟨hbegins, hstate⟩ := hs.queueInLoop hqueued hu
    exact hkeep ⟨(hbegins.enter i (by simp)).note _, hstate⟩ id
  | callShutdown i _ hconnected =>
    have hne : s.world.conn.state_ ≠ .kConnecting := by simp [hconnected]
    exact hkeep ⟨(hs.note _).enter i fun _ => hne, rfl⟩ id
  | callShutdownLate => exact hkeep ⟨hs.note _, rfl⟩ id
  | storeShutdown i hi =>
    refine ⟨hs.storeShutdown hi, ?_⟩
    have hstate : (s.storeShutdown i).world.conn.state_ = .kDisconnecting := rfl
    rw [hstate, StoresLate, and_iff_right hi]
    cases s.world.conn.state_ <;> simp [StateE.rank]
  | queueShutdown i u _ hu =>
    have hqueued : Task.shutdownInLoop.Queued := trivial
    obtain ⟨hbegins, hstate⟩ := hs.queueInLoop hqueued hu
    exact hkeep ⟨hbegins.enter i (by simp), hstate⟩ id
  | overwrite => exact hkeep ⟨⟨hs.sound, hs.tasks, hs.once, hs.begun, hs.tested⟩, rfl⟩ id

/-! ## Runs -/

omit [DecidableEq τ] in
theorem start_begins {w : World ι} (hw : w.Fresh)
    (hqueue : w.loop.pendingFunctors_ = [⟨w.self, .conneectEstableished⟩])
    (memory : Address → Text) : (start w memory : Threads ι τ).Begins := by
  obtain ⟨fd, complete, high, mark, hconn⟩ := hw.conn_eq
  have hstate : (start w memory : Threads ι τ).world.conn.state_ = .kConnecting := by
    simp [start, hconn, TcpConnection.construct, TcpConnection.setHighWaterMarkCallback,
      TcpConnection.setWriteCompleteCallback]
  have hall : (start w memory : Threads ι τ).queue = [⟨w.self, .conneectEstableished⟩] := by
    simp [queue, start, hqueue]
  refine ⟨hw.sound, fun f hf => ?_, ?_, fun h => absurd hstate h, ?_⟩
  · rw [hall] at hf
    obtain rfl := List.mem_singleton.1 hf
    exact .inr rfl
  · simp [establishing, hall, Establishes]
  · simp [start]

/-- **The state moves forward, exactly**: over a run from a new connection whose
`conneectEstableished` has been queued, the values of the state are in order if and only if no store
of `shutdown` finds the connection disconnected. -/
theorem forward_iff {w : World ι} {memory : Address → Text} {actions : List (Action τ)}
    (hw : w.Fresh) (hqueue : w.loop.pendingFunctors_ = [⟨w.self, .conneectEstableished⟩])
    (h : run step (start w memory) actions = .ok t) :
    (states (start w memory) actions).Pairwise (fun x y => x.rank ≤ y.rank) ↔
      ¬Occurs step StoresLate (start w memory) actions := by
  rw [pairwise_states, not_occurs]
  refine along_congr (I := Begins) (fun _ _ _ hs ht => (hs.step ht).1) (fun s a t hs ht => ?_)
    (start_begins hw hqueue memory) h
  rw [← (hs.step ht).2, Forward, ht]
  simp

/-- A new connection whose `conneectEstableished` has been queued. -/
def newborn : World Unit :=
  { TcpConnection.newWorld false with
    loop.pendingFunctors_ := [⟨(), .conneectEstableished⟩] }

theorem newborn_fresh : newborn.Fresh :=
  ⟨(TcpConnection.newWorld_fresh false).conn_eq, rfl, rfl⟩

/-- Another thread shuts the connection down, and then the peer closes it. -/
theorem forward_iff_closed : ∃ t : Threads Unit Unit,
    run step (start newborn oneByte) [.swap, .next TcpConnection.takesAll, .callShutdown (),
      .storeShutdown (), .queueShutdown (), .event .close] = .ok t ∧
    ((states (start newborn oneByte : Threads Unit Unit) [.swap, .next TcpConnection.takesAll,
        .callShutdown (), .storeShutdown (), .queueShutdown (), .event .close]).Pairwise
          (fun x y => x.rank ≤ y.rank) ↔
      ¬Occurs step StoresLate (start newborn oneByte) [.swap, .next TcpConnection.takesAll,
        .callShutdown (), .storeShutdown (), .queueShutdown (), .event .close]) := by
  have hrun : (run step (start newborn oneByte : Threads Unit Unit) [.swap,
      .next TcpConnection.takesAll, .callShutdown (), .storeShutdown (), .queueShutdown (),
      .event .close]).map (fun t => t.world.conn.state_) = .ok .kDisconnected := by
    decide +kernel
  obtain ⟨t, ht, -⟩ := exists_of_map hrun
  exact ⟨t, ht, forward_iff newborn_fresh rfl ht⟩

/-- The peer closes the connection between the test and the store of a `shutdown`. -/
theorem not_forward_late : ¬∀ (w : World Unit) (memory : Address → Text)
    (actions : List (Action Unit)) (t : Threads Unit Unit), w.Fresh →
      w.loop.pendingFunctors_ = [⟨w.self, .conneectEstableished⟩] →
      run step (start w memory) actions = .ok t →
      (states (start w memory : Threads Unit Unit) actions).Pairwise
        (fun x y => x.rank ≤ y.rank) := by
  intro h
  have hrun : (run step (start newborn oneByte : Threads Unit Unit) [.swap,
      .next TcpConnection.takesAll, .callShutdown (), .event .close, .storeShutdown ()]).map
        (fun t => t.world.conn.state_) = .ok .kDisconnecting := by
    decide +kernel
  obtain ⟨t, ht, -⟩ := exists_of_map hrun
  have hforward := h newborn oneByte _ t newborn_fresh rfl ht
  have hstates : states (start newborn oneByte : Threads Unit Unit) [.swap,
      .next TcpConnection.takesAll, .callShutdown (), .event .close, .storeShutdown ()] =
        [.kConnecting, .kConnecting, .kConnected, .kConnected, .kDisconnected, .kDisconnecting] := by
    decide +kernel
  rw [hstates] at hforward
  exact absurd hforward (by decide)

end Threads

end Muduo
