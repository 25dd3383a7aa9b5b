import Muduo.Foundations.Trace
import Muduo.LoopThread.Queue

/-!
# From one functor to the next

While the owner is in user code and no thread is inside a call, a loop is `Quiet`. Any thread can then
queue functors (`Quiet.queue`), and the owner can come to call the first functor that waits, whether
the round has taken it or not (`Quiet.next`); the loop is quiet again. So whatever is done to a queue
between such states can be done by a loop, and the trace of the run leaves in the queue what has been
queued and not called (`waiting_of_yields`).
-/

namespace Muduo

open Run

variable {φ τ : Type}

namespace LoopThread

/-- The owner is in user code, outside of a round or inside, and no thread is in a call. -/
structure Quiet (s : LoopThread φ τ) : Prop where
  quit_eq : s.quit_ = false
  thread_eq : ∀ t, s.thread t = .idle
  pc : s.pc = .dispatching false ∧ s.functors = [] ∨ s.pc = .running true

variable {s t : LoopThread φ τ}

theorem Quiet.free (hs : s.Quiet) : s.Free := hs.thread_eq _

theorem Quiet.calls (hs : s.Quiet) (i : τ) : s.Calls i := by
  refine ⟨hs.thread_eq i, fun _ => ?_⟩
  rcases hs.pc with ⟨hpc, -⟩ | hpc <;> simp [hpc, LoopPc.User]

variable [DecidableEq τ]

/-! ## The trace and the queue -/

/-- **The queue**: the functors that have been called, and those that wait, are the functors that
have been queued, in order. -/
theorem waiting_of_yields {threadId : τ} {trace : List (QueueEvent φ τ)}
    (h : Yields LoopThread.step events (construct threadId) trace s) :
    trace.filterMap QueueEvent.call ++ s.waiting = trace.filterMap QueueEvent.push := by
  obtain ⟨actions, hrun, rfl⟩ := h
  obtain ⟨hpushes, hexecuted, -⟩ := recorded hrun
  have hfifo := fifo_run (construct_fifo threadId) hrun
  rw [← hpushes, ← hexecuted, ← hfifo.order, waiting, List.append_assoc]

/-! ## From one piece of user code to another -/

/-- **A thread queues** a functor, and returns from `queueInLoop`. -/
theorem Quiet.push (hs : s.Quiet) (i : τ) (f : φ) :
    ∃ t, Yields LoopThread.step events s [.queued i f] t ∧ t.Quiet ∧
      t.waiting = s.waiting ++ [f] := by
  have hcalls : s.Enabled (.queueInLoop i f) := hs.calls i
  have hpush : s.step (.queueInLoop i f) = .ok (s.queueInLoop i f) := by
    rw [LoopThread.step, if_pos hcalls, perform]
  have hcall : (s.queueInLoop i f).thread i = .queueInLoop s.pushes.length := Function.update_self ..
  have henabled : (s.queueInLoop i f).Enabled (.wakeQueued i) := ⟨_, hcall⟩
  have hwake : (s.queueInLoop i f).step (.wakeQueued i) = .ok ((s.queueInLoop i f).wakeQueued i) := by
    rw [LoopThread.step, if_pos henabled, perform]
  have hpushed : Yields LoopThread.step events s _ _ := .of_step hpush
  have hyields := hpushed.trans (.of_step hwake)
  simp only [events, if_pos hcalls, List.append_nil] at hyields
  obtain ⟨n, hn⟩ := (s.queueInLoop i f).wakeQueued_eq i
  rw [hn] at hyields
  refine ⟨_, hyields, ⟨hs.quit_eq, fun j => ?_, hs.pc⟩, ?_⟩
  · by_cases hj : j = i
    · subst hj
      exact Function.update_self ..
    · exact (Function.update_of_ne hj ..).trans
        ((Function.update_of_ne hj ..).trans (hs.thread_eq j))
  · simp [waiting, queueInLoop, enter]

/-- **A thread queues** functors. -/
theorem Quiet.queue (hs : s.Quiet) (i : τ) (news : List φ) :
    ∃ t, Yields LoopThread.step events s (news.map (.queued i)) t ∧ t.Quiet ∧
      t.waiting = s.waiting ++ news := by
  induction news generalizing s with
  | nil => exact ⟨s, .refl s, hs, (List.append_nil _).symm⟩
  | cons f news ih =>
    obtain ⟨t, hyields, ht, hwaiting⟩ := hs.push i f
    obtain ⟨u, hyields', hu, hwaiting'⟩ := ih ht
    refine ⟨u, hyields.trans hyields', hu, ?_⟩
    rw [hwaiting', hwaiting, List.append_assoc, List.singleton_append]

/-- The loop comes to the active channels, and has read the eventfd if it has been written. -/
theorem exists_polled (hpc : s.pc = .testing) (hquit : s.quit_ = false) (hfree : s.Free) :
    ∃ n, Yields LoopThread.step events s []
      ({ s with weakupFd_ := n }.goto (.dispatching false)) := by
  have htest : s.step .test = .ok (s.goto .polling) := by
    simp [LoopThread.step, Enabled, hpc, perform, hquit]
  have htested : Yields LoopThread.step events s [] (s.goto .polling) := .of_step htest
  by_cases hweakup : 0 < s.weakupFd_
  · have hpoll : (s.goto .polling).step (.poll true) = .ok (s.goto (.dispatching true)) := by
      simp [LoopThread.step, Enabled, goto, perform, hweakup]
    have hread : (s.goto (.dispatching true)).step .handleRead =
        .ok ({ s with weakupFd_ := 0 }.goto (.dispatching false)) := by
      have henabled : (s.goto (.dispatching true)).Enabled .handleRead := ⟨rfl, hfree⟩
      rw [LoopThread.step, if_pos henabled]
      rfl
    exact ⟨0, (htested.trans (.of_step hpoll)).trans (.of_step hread)⟩
  · have hpoll : (s.goto .polling).step (.poll false) = .ok (s.goto (.dispatching false)) := by
      simp [LoopThread.step, Enabled, goto, perform]
    exact ⟨s.weakupFd_, htested.trans (.of_step hpoll)⟩

/-- A round that has nothing left ends, and the loop comes to the active channels again. -/
theorem Quiet.exists_dispatching (hs : s.Quiet) (hfunctors : s.functors = []) :
    ∃ t, Yields LoopThread.step events s [] t ∧ t.Quiet ∧
      t.waiting = s.waiting ∧ t.functors = [] ∧ t.pc = .dispatching false := by
  rcases hs.pc with ⟨hpc, -⟩ | hpc
  · exact ⟨s, .refl s, hs, rfl, hfunctors, hpc⟩
  · have hend : s.step .endRound = .ok s.endRound := by
      have henabled : s.Enabled .endRound := ⟨.inr hpc, hfunctors, hs.free⟩
      rw [LoopThread.step, if_pos henabled, perform]
    obtain ⟨n, hpolled⟩ := exists_polled (s := s.endRound) rfl hs.quit_eq hs.free
    have hended : Yields LoopThread.step events s [] s.endRound := .of_step hend
    refine ⟨_, hended.trans hpolled, ?_, rfl, hfunctors, rfl⟩
    exact ⟨hs.quit_eq, hs.thread_eq, .inl ⟨rfl, hfunctors⟩⟩

/-- The next functor of the round is called. -/
theorem exists_called {f : φ} {fs : List φ} (hpc : s.pc.InRound) (hfunctors : s.functors = f :: fs)
    (hfree : s.Free) : Yields LoopThread.step events s [.called f] (s.call f fs) := by
  have henabled : s.Enabled .next := ⟨hpc, by simp [hfunctors], hfree⟩
  have hnext : s.step .next = .ok (s.call f fs) := by
    simp [LoopThread.step, henabled, perform, hfunctors]
  have hyields : Yields LoopThread.step events s _ _ := .of_step hnext
  simpa [events, henabled, hfunctors] using hyields

/-- **The owner calls** the first functor that waits; for this it begins a round, if the present one
has nothing left. -/
theorem Quiet.next (hs : s.Quiet) {f : φ} {rest : List φ} (hwaiting : s.waiting = f :: rest) :
    ∃ t, Yields LoopThread.step events s [.called f] t ∧ t.Quiet ∧
      t.waiting = rest := by
  cases hfunctors : s.functors with
  | cons g fs =>
    rw [waiting, hfunctors, List.cons_append] at hwaiting
    obtain ⟨rfl, rfl⟩ := List.cons.inj hwaiting
    have hpc : s.pc.InRound := by
      rcases hs.pc with ⟨-, hnil⟩ | hpc
      · rw [hnil] at hfunctors
        cases hfunctors
      · exact .inr hpc
    exact ⟨_, exists_called hpc hfunctors hs.free, ⟨hs.quit_eq, hs.thread_eq, .inr rfl⟩, rfl⟩
  | nil =>
    obtain ⟨t, hyields, ht, hwaiting', hnil, hpc⟩ := hs.exists_dispatching hfunctors
    have hpending : t.pendingFunctors_ = f :: rest := by
      rw [← hwaiting, ← hwaiting', waiting, hnil, List.nil_append]
    have hdo : t.step .doPendingFunctors = .ok t.doPendingFunctors := by
      have henabled : t.Enabled .doPendingFunctors := ⟨hpc, ht.free⟩
      rw [LoopThread.step, if_pos henabled, perform]
    have hswap : t.doPendingFunctors.step .swap = .ok t.doPendingFunctors.swap := by
      have henabled : t.doPendingFunctors.Enabled .swap := rfl
      rw [LoopThread.step, if_pos henabled, perform]
    have hcalled := exists_called (s := t.doPendingFunctors.swap) (.inl rfl) hpending ht.free
    have hbegun := (hyields.trans (.of_step hdo)).trans (.of_step hswap)
    refine ⟨_, .trans hbegun hcalled, ⟨ht.quit_eq, ht.thread_eq, .inr rfl⟩, ?_⟩
    simp [waiting, call, swap, LoopThread.goto]

/-- The loop begins, and nothing waits. -/
theorem exists_started (threadId : τ) : ∃ t : LoopThread φ τ,
    Yields LoopThread.step events (construct threadId) [] t ∧ t.Quiet ∧ t.waiting = [] := by
  have hloop : (construct threadId : LoopThread φ τ).step .loop =
      .ok ((construct threadId).goto .testing) := by
    simp [LoopThread.step, Enabled, Free, construct, perform, goto]
  obtain ⟨n, hpolled⟩ := exists_polled (s := (construct threadId : LoopThread φ τ).goto .testing)
    rfl rfl rfl
  have hstarted : Yields LoopThread.step events (construct threadId) []
      ((construct threadId : LoopThread φ τ).goto .testing) := .of_step hloop
  refine ⟨_, hstarted.trans hpolled, ?_, rfl⟩
  exact ⟨rfl, fun _ => rfl, .inl ⟨rfl, rfl⟩⟩

end LoopThread

end Muduo
