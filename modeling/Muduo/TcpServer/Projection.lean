import Muduo.LoopThread.Trace
import Muduo.TcpServer.Advance

/-!
# The loops of a server are loops

`Loops` has for each loop a queue and a round, and knows neither `quit_`, nor where the owner is in
`loop()`, nor the calls of `queueInLoop` that have not returned; a `LoopThread` is one loop with all
of this. Every run of a server with its loops is, for each of them, a run of a `LoopThread`
(`Loops.projects`): the same threads queue the same functors, and the owner calls the same functors,
in the same order. So what is proved about the queue of a `LoopThread` holds of the loops of a server.

A `LoopThread` takes its queue for a round as late as it can, when the first functor of the round is
called: the user may call a connection between the swap of a `Loops` and this call, which the owner
of a `LoopThread` can do before the swap only.
-/

namespace Muduo

open Run

variable {ℓ : Type}

namespace Loops

/-! ## What is seen of a queue -/

variable [DecidableEq ℓ]

/-- The loop whose thread takes the step. -/
def thread (s : Loops ℓ) : Action ℓ → ℓ
  | .accept _ _ _ _ => s.server.loop_
  | .dispatch l _ _ | .proceed l _ | .swap l | .next l _ => l
  | .user conn _ => (s.server.created[conn]?).elim s.server.loop_ Created.loop_

/-- The functors that the step queues in `l`. -/
def queued (s : Loops ℓ) (l : ℓ) (a : Action ℓ) : List (Functor ℕ) :=
  match s.step a with
  | .ok t => (t.loop l).pendingFunctors_.drop (s.loop l).pendingFunctors_.length
  | .error _ => []

/-- What is seen in the step of the queue of `l`. -/
def events (l : ℓ) (s : Loops ℓ) (a : Action ℓ) : List (QueueEvent (Functor ℕ) ℓ) :=
  (s.called l a).map .called ++ (s.queued l a).map (.queued (s.thread a))

variable {s t : Loops ℓ} {l : ℓ} {phase : ℕ → Phase} {gone : List ℕ}

theorem called_cases (s : Loops ℓ) (l : ℓ) (a : Action ℓ) :
    s.called l a = [] ∨ ∃ f rest, s.called l a = [f] ∧ s.queue l = f :: rest := by
  cases a with
  | next l' answers =>
    simp only [called]
    split
    · rw [queue]
      cases s.functors l with
      | nil => exact .inl rfl
      | cons f fs => exact .inr ⟨f, fs ++ (s.loop l).pendingFunctors_, rfl, rfl⟩
    · exact .inl rfl
  | _ => exact .inl rfl

theorem queued_eq {a : Action ℓ} (h : s.step a = .ok t) {news : List (Functor ℕ)}
    (hnews : (t.loop l).pendingFunctors_ = (s.loop l).pendingFunctors_ ++ news) :
    s.queued l a = news := by
  rw [queued, h]
  simp only [hnews, List.drop_left]

/-- **A step** takes what it calls from the front of the queue, and adds what it queues at the
end. -/
theorem Ok.queue_step (hs : s.Ok phase gone) {a : Action ℓ} (h : s.step a = .ok t) (l : ℓ) :
    s.called l a ++ t.queue l = s.queue l ++ s.queued l a := by
  cases hs.takes h with
  | none hcalled hj hadvances =>
    obtain ⟨news, hpending, -⟩ := hadvances.pending l
    rw [hcalled, List.nil_append, queued_eq h hpending, queue, queue, hadvances.functors_eq, hpending,
      List.append_assoc]
  | @queue l' ha hidle ht =>
    subst ha ht
    have hcalled : s.called l (.swap l') = [] := rfl
    by_cases hl : l = l'
    · subst hl
      have hqueued : s.queued l (.swap l) = [] := by
        rw [queued, h]
        simp [Loops.swap, setPending]
      rw [hcalled, hqueued, List.nil_append, List.append_nil, queue, queue, hidle.2]
      simp [Loops.swap, setPending, round]
    · have hpending : ((s.swap l').loop l).pendingFunctors_ = (s.loop l).pendingFunctors_ ++ [] := by
        simp [Loops.swap, setPending, round, hl]
      rw [hcalled, queued_eq h hpending, List.nil_append, List.append_nil, Loops.swap,
        setPending_queue_of_ne hl, round_queue_of_ne hl]
  | @functor l' answers ha hstack f fs hfunctors j hj hadvances =>
    subst ha
    obtain ⟨news, hpending, -⟩ := hadvances.pending l
    have hpending : (t.loop l).pendingFunctors_ = (s.loop l).pendingFunctors_ ++ news := hpending
    have hqueue : t.queue l = (s.round l' fs).queue l ++ news := by
      rw [queue, queue, hadvances.functors_eq, hpending, ← List.append_assoc]
      rfl
    rw [queued_eq h hpending, hqueue]
    by_cases hl : l' = l
    · subst hl
      have hcalled : s.called l' (.next l' answers) = [f] := by simp [called, hstack, hfunctors]
      have hround : [f] ++ (s.round l' fs).queue l' = s.queue l' := by
        simp [queue, round, hfunctors]
      rw [hcalled, ← List.append_assoc, hround]
    · have hcalled : s.called l (.next l' answers) = [] := by simp [called, hl]
      rw [hcalled, List.nil_append, round_queue_of_ne (Ne.symm hl)]

/-! ## The projection -/

/-- **A step** of a server with its loops is a run of each of them. -/
theorem Ok.project (hs : s.Ok phase gone) {a : Action ℓ} (h : s.step a = .ok t) {l : ℓ}
    {k : LoopThread (Functor ℕ) ℓ} (hk : k.Quiet) (hwaiting : k.waiting = s.queue l) :
    ∃ k', Yields LoopThread.step LoopThread.events k (s.events l a) k' ∧ k'.Quiet ∧
      k'.waiting = t.queue l := by
  have hqueue := hs.queue_step h l
  have hcalled : ∃ k', Yields LoopThread.step LoopThread.events k ((s.called l a).map .called) k' ∧
      k'.Quiet ∧ k'.waiting ++ s.queued l a = t.queue l := by
    rcases s.called_cases l a with hnil | ⟨f, rest, hcalled, hrest⟩
    · rw [hnil, List.nil_append] at hqueue
      exact ⟨k, hnil ▸ .refl k, hk, by rw [hwaiting, hqueue]⟩
    · obtain ⟨k', hyields, hk', hwaiting'⟩ := hk.next (hwaiting.trans hrest)
      rw [hcalled, hrest, List.singleton_append, List.cons_append] at hqueue
      exact ⟨k', hcalled ▸ hyields, hk', by rw [hwaiting', (List.cons.inj hqueue).2]⟩
  obtain ⟨k₁, hyields, hk₁, hwaiting₁⟩ := hcalled
  obtain ⟨k₂, hyields', hk₂, hwaiting₂⟩ := hk₁.queue (s.thread a) (s.queued l a)
  exact ⟨k₂, hyields.trans hyields', hk₂, hwaiting₂.trans hwaiting₁⟩

/-- **The loops of a server are loops**: for each loop, every run of the server with its loops is a
run of a `LoopThread`, in which the same threads queue the same functors and the owner calls the same
ones, in the same order, and which leaves the same functors in the queue; so the functors that have
been called and those that wait are the functors that have been queued, in order. -/
theorem projects {loop : ℓ} {loops : List ℓ} {listenAddr : InetAddress} {nameArg : List Char}
    {server : TcpServer ℓ} {actions : List (Action ℓ)} {s : Loops ℓ}
    (hserver : TcpServer.construct loop listenAddr nameArg = .ok server)
    (h : run step (start (server.start loops)) actions = .ok s) (l : ℓ) :
    (∃ k, Yields LoopThread.step LoopThread.events (LoopThread.construct l)
        (collect step (events l) (start (server.start loops)) actions) k ∧
      k.quit_ = false ∧ (∀ t, k.thread t = .idle) ∧ k.waiting = s.queue l) ∧
    (collect step (events l) (start (server.start loops)) actions).filterMap QueueEvent.call ++
        s.queue l =
      (collect step (events l) (start (server.start loops)) actions).filterMap QueueEvent.push := by
  obtain ⟨k, hstarted, hk, hwaiting⟩ : ∃ k : LoopThread (Functor ℕ) ℓ, _ :=
    LoopThread.exists_started l
  have hstep : ∀ (s : Loops ℓ) a t (k : LoopThread (Functor ℕ) ℓ),
      ((∃ phase gone, s.Ok phase gone) ∧ k.Quiet ∧ k.waiting = s.queue l) → s.step a = .ok t →
      ∃ k', Yields LoopThread.step LoopThread.events k (s.events l a) k' ∧
        (∃ phase gone, t.Ok phase gone) ∧ k'.Quiet ∧ k'.waiting = t.queue l := by
    rintro s a t k ⟨⟨phase, gone, hs⟩, hk, hwaiting⟩ ht
    obtain ⟨k', hyields, hk', hwaiting'⟩ := hs.project ht hk hwaiting
    exact ⟨k', hyields, hs.step ht, hk', hwaiting'⟩
  obtain ⟨k', hyields, -, hk', hwaiting'⟩ := Yields.simulates hstep
    ⟨⟨_, _, start_ok hserver⟩, hk, hwaiting⟩ ⟨actions, h, rfl⟩
  have hyields := hstarted.trans hyields
  refine ⟨⟨k', hyields, hk'.quit_eq, hk'.thread_eq, hwaiting'⟩, ?_⟩
  exact hwaiting' ▸ LoopThread.waiting_of_yields hyields

/-- The connection of the loop `1` is accepted, served, closed and torn down. -/
theorem projects_lifetime : ∃ (server : TcpServer ℕ) (s : Loops ℕ),
    TcpServer.construct 0 ⟨(127, 0, 0, 1), 16415⟩ ['s'] = .ok server ∧
    run step (start (server.start [1])) lifetime = .ok s ∧ s.queue 1 = [] ∧
    (∃ k, Yields LoopThread.step LoopThread.events (LoopThread.construct 1)
        (collect step (events 1) (start (server.start [1])) lifetime) k ∧
      k.quit_ = false ∧ (∀ t, k.thread t = .idle) ∧ k.waiting = s.queue 1) ∧
    (collect step (events 1) (start (server.start [1])) lifetime).filterMap QueueEvent.call ++
        s.queue 1 =
      (collect step (events 1) (start (server.start [1])) lifetime).filterMap QueueEvent.push := by
  have hrun : (TcpServer.construct 0 ⟨(127, 0, 0, 1), 16415⟩ ['s'] >>= fun server =>
      run step (start (server.start [1])) lifetime).map
        (fun s => decide (s.queue 1 = [])) = .ok true := by
    decide +kernel
  obtain ⟨s, hs, hqueue⟩ := exists_of_map hrun
  obtain ⟨server, hserver, hs⟩ := bind_eq_ok.1 hs
  exact ⟨server, s, hserver, hs, of_decide_eq_true hqueue, projects hserver hs 1⟩

end Loops

end Muduo
