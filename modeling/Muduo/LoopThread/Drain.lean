import Muduo.LoopThread.Queue

/-!
# Functors that wait when the loop is quit

After `quit()` the loop goes on to the next test of its `while`. Between the swap of a round and that
test it takes no more functors; what is pending then is not executed by this call of `loop()`. The
number of functors that rounds have taken (`taken`) grows at a swap only, and `drained_iff` says
which functors are executed when `loop()` returns.
-/

namespace Muduo

open Run

variable {φ τ : Type}

/-- No swap comes before the next test of the `while`. -/
def LoopPc.Past (pc : LoopPc) : Prop := pc = .testing ∨ pc.InRound ∨ pc = .returned

instance (pc : LoopPc) : Decidable pc.Past := inferInstanceAs (Decidable (_ ∨ _))

namespace LoopThread

/-- The call of `queueInLoop` that pushed functor number `i` has returned. -/
def Completed (s : LoopThread φ τ) (i : ℕ) : Prop :=
  i < s.pushes.length ∧ ∀ t, s.thread t ≠ .queueInLoop i

/-- The number of functors that rounds have taken. -/
def taken (s : LoopThread φ τ) : ℕ := s.executed.length + s.functors.length

/-- If no swap comes before the next test, the calls of `queueInLoop` that have returned have had
their functors taken. -/
def Drains (s : LoopThread φ τ) : Prop := s.pc.Past → ∀ i, s.Completed i → i < s.taken

theorem Fifo.taken_le {s : LoopThread φ τ} (hs : s.Fifo) : s.taken ≤ s.pushes.length := by
  have horder := congrArg List.length hs.order
  simp only [List.length_append] at horder
  unfold taken
  omega

variable [DecidableEq τ] {s t : LoopThread φ τ}

/-- A step of the loop once `quit()` has been called, from one place to another. -/
structure Quitting (s t : LoopThread φ τ) : Prop where
  quit_eq : t.quit_ = true
  pc_ne : t.pc ≠ .outside
  pushes_le : s.pushes.length ≤ t.pushes.length
  past : s.pc.Past → t.pc.Past ∧ t.taken = s.taken
  before : ¬s.pc.Past → t.pc.Past → s.pushes.length ≤ t.taken

/-- **After `quit()`**: `quit_` stays, and a loop past the swap takes nothing more. -/
theorem Fifo.quitting (hs : s.Fifo) (hquit : s.quit_ = true) (hpc : s.pc ≠ .outside)
    {a : Action φ τ} (h : s.step a = .ok t) : s.Quitting t := by
  have hle := hs.taken_le
  rcases step_ok h with ⟨henabled, rfl⟩ | ⟨-, rfl⟩
  · cases a with
    | loop => exact absurd henabled.1 hpc
    | test =>
      have htest : s.perform .test = s.goto .returned := by simp [perform, hquit]
      have hpc' : s.pc = .testing := henabled
      rw [htest]
      exact ⟨hquit, by simp [LoopThread.goto], Nat.le_refl _, fun _ => ⟨.inr (.inr rfl), rfl⟩,
        fun hnot => absurd (.inl hpc') hnot⟩
    | poll | handleRead | doPendingFunctors =>
      refine ⟨hquit, ?_, Nat.le_refl _, fun hpast => ?_, fun _ hpast => ?_⟩
      · simp [perform, handleRead, LoopThread.doPendingFunctors, LoopThread.goto]
      · simp [henabled.1, LoopPc.Past, LoopPc.InRound] at hpast
      · simp [perform, handleRead, LoopThread.doPendingFunctors, LoopThread.goto, LoopPc.Past,
          LoopPc.InRound] at hpast
    | swap =>
      have hpc' : s.pc = .swapping := henabled
      have hnil := hs.functors_eq (by simp [hpc', LoopPc.InRound])
      refine ⟨hquit, by simp [perform, LoopThread.swap, LoopThread.goto], Nat.le_refl _,
        fun hpast => ?_, fun _ _ => ?_⟩
      · simp [hpc', LoopPc.Past, LoopPc.InRound] at hpast
      · have horder := congrArg List.length hs.order
        simp only [List.length_append, hnil, List.length_nil] at horder
        simp only [taken, perform, LoopThread.swap, LoopThread.goto]
        omega
    | next =>
      have hpast : s.pc.Past := .inr (.inl henabled.1)
      simp only [perform]
      split
      next => exact ⟨hquit, hpc, Nat.le_refl _, fun _ => ⟨hpast, rfl⟩, fun hnot => absurd hpast hnot⟩
      next f fs hfunctors =>
        refine ⟨hquit, by simp [LoopThread.call, LoopThread.goto], Nat.le_refl _,
          fun _ => ⟨.inr (.inl (.inr rfl)), ?_⟩, fun hnot => absurd hpast hnot⟩
        simp only [taken, LoopThread.call, LoopThread.goto, hfunctors, List.length_append,
          List.length_cons, List.length_nil]
        omega
    | endRound =>
      have hpast : s.pc.Past := .inr (.inl henabled.1)
      exact ⟨hquit, by simp [perform, LoopThread.endRound, LoopThread.goto], Nat.le_refl _,
        fun _ => ⟨.inl rfl, rfl⟩, fun hnot => absurd hpast hnot⟩
    | queueInLoop i f =>
      refine ⟨hquit, hpc, ?_, fun hpast => ⟨hpast, rfl⟩, fun hnot hpast => absurd hpast hnot⟩
      simp [perform, LoopThread.queueInLoop, enter]
    | wakeQueued i =>
      obtain ⟨n, hn⟩ := s.wakeQueued_eq i
      rw [perform, hn]
      exact ⟨hquit, hpc, Nat.le_refl _, fun hpast => ⟨hpast, rfl⟩, fun hnot hpast => absurd hpast hnot⟩
    | quit i =>
      exact ⟨rfl, hpc, Nat.le_refl _, fun hpast => ⟨hpast, rfl⟩, fun hnot hpast => absurd hpast hnot⟩
    | wakeQuit i =>
      obtain ⟨n, hn⟩ := s.wakeQuit_eq i
      rw [perform, hn]
      exact ⟨hquit, hpc, Nat.le_refl _, fun hpast => ⟨hpast, rfl⟩, fun hnot hpast => absurd hpast hnot⟩
  · exact ⟨hquit, hpc, Nat.le_refl _, fun hpast => ⟨hpast, rfl⟩, fun hnot hpast => absurd hpast hnot⟩

/-- The same of a run. -/
theorem Fifo.quitting_run (hs : s.Fifo) (hquit : s.quit_ = true) (hpc : s.pc ≠ .outside)
    {actions : List (Action φ τ)} (h : run LoopThread.step s actions = .ok t) : s.Quitting t := by
  refine run_induction (motive := fun _ t => t.Fifo ∧ s.Quitting t) ⟨hs, ?_⟩ ?_ h |>.2
  · exact ⟨hquit, hpc, Nat.le_refl _, fun hpast => ⟨hpast, rfl⟩, fun hnot hpast => absurd hpast hnot⟩
  · rintro actions a t u - hu ⟨ht, hst⟩
    have htu := ht.quitting hst.quit_eq hst.pc_ne hu
    refine ⟨ht.step hu, htu.quit_eq, htu.pc_ne, Nat.le_trans hst.pushes_le htu.pushes_le, ?_, ?_⟩
    · intro hpast
      obtain ⟨hpast, htaken⟩ := hst.past hpast
      obtain ⟨hpast, htaken'⟩ := htu.past hpast
      exact ⟨hpast, htaken'.trans htaken⟩
    · intro hnot hpast
      by_cases hmid : t.pc.Past
      · rw [(htu.past hmid).2]
        exact hst.before hnot hmid
      · exact Nat.le_trans hst.pushes_le (htu.before hmid hpast)

/-- **Draining, exactly**: when a running loop returns after a call of `quit()`, the functors whose
`queueInLoop` had returned before that call have been executed if and only if the call did not
leave one of them pending past the swap. -/
theorem drained_iff {threadId i : τ} {before after : List (Action φ τ)}
    (hs : run step (construct threadId) before = .ok s) (hpc : s.pc ≠ .outside)
    (hquit : s.Enabled (.quit i)) (ht : run step s (.quit i :: after) = .ok t)
    (hreturned : t.pc = .returned) :
    (∀ k, s.Completed k → k < t.executed.length) ↔ s.Drains := by
  have hfifo : s.Fifo := fifo_run (construct_fifo threadId) hs
  obtain ⟨u, hu, ht⟩ := run_cons_ok.1 ht
  have hfifo' : u.Fifo := hfifo.step hu
  rcases step_ok hu with ⟨-, rfl⟩ | ⟨hdisabled, -⟩
  · have hquitting := hfifo'.quitting_run rfl hpc ht
    have hnil := (fifo_run hfifo' ht).functors_eq (by simp [hreturned, LoopPc.InRound])
    have htaken : t.taken = t.executed.length := by simp [taken, hnil]
    have hpast : t.pc.Past := .inr (.inr hreturned)
    by_cases hs : s.pc.Past
    · have heq : t.executed.length = s.taken := htaken.symm.trans (hquitting.past hs).2
      rw [heq]
      exact ⟨fun h _ => h, fun h => h hs⟩
    · have hle : s.pushes.length ≤ t.executed.length := htaken ▸ hquitting.before hs hpast
      exact iff_of_true (fun k hk => Nat.lt_of_lt_of_le hk.1 hle) fun h => absurd h hs
  · exact absurd hquit hdisabled

/-- A functor is queued, and `quit()` called, while the loop polls. -/
theorem drained_iff_polling : ∃ s t : LoopThread Unit Bool,
    run step (construct false) [.loop, .test, .queueInLoop true (), .wakeQueued true] = .ok s ∧
    run step s (.quit true :: [.wakeQuit true, .poll true, .handleRead, .doPendingFunctors, .swap,
      .next, .endRound, .test]) = .ok t ∧
    ((∀ k, s.Completed k → k < t.executed.length) ↔ s.Drains) := by
  have hrun : (run step (construct false : LoopThread Unit Bool) [.loop, .test,
      .queueInLoop true (), .wakeQueued true] >>= fun s =>
        (run step s (.quit true :: [.wakeQuit true, .poll true, .handleRead, .doPendingFunctors,
          .swap, .next, .endRound, .test])).map fun t =>
            (s.pc, decide (s.Enabled (.quit true)), t.pc)) = .ok (.polling, true, .returned) := by
    decide
  obtain ⟨s, hs, hrun⟩ := bind_eq_ok.1 hrun
  obtain ⟨t, ht, hview⟩ := exists_of_map hrun
  simp only [Prod.mk.injEq, decide_eq_true_eq] at hview
  obtain ⟨hpc, hquit, hreturned⟩ := hview
  exact ⟨s, t, hs, ht, drained_iff hs (by simp [hpc]) hquit ht hreturned⟩

/-- A functor is queued, and `quit()` called, after the swap of a round. -/
theorem not_drained_running : ¬∀ (threadId i : Bool) (before after : List (Action Unit Bool))
    (s t : LoopThread Unit Bool), run step (construct threadId) before = .ok s → s.pc ≠ .outside →
      s.pc ≠ .returned → s.Enabled (.quit i) → run step s (.quit i :: after) = .ok t →
      t.pc = .returned → ∀ k, s.Completed k → k < t.executed.length := by
  intro h
  have hrun : (run step (construct false : LoopThread Unit Bool) [.loop, .test, .poll false,
      .doPendingFunctors, .swap, .queueInLoop true (), .wakeQueued true] >>= fun s =>
        (run step s (.quit true :: [.endRound, .test])).map fun t =>
          (s.pc, (decide (s.Enabled (.quit true)), s.thread true, s.thread false),
            s.pushes.length, t.pc, t.executed.length)) =
        .ok (.running false, (true, .idle, .idle), 1, .returned, 0) := by
    decide
  obtain ⟨s, hs, hrun⟩ := bind_eq_ok.1 hrun
  obtain ⟨t, ht, hview⟩ := exists_of_map hrun
  simp only [Prod.mk.injEq, decide_eq_true_eq] at hview
  obtain ⟨hpc, ⟨hquit, htrue, hfalse⟩, hpushes, hreturned, hexecuted⟩ := hview
  have hcompleted : s.Completed 0 := by
    refine ⟨by omega, fun t => ?_⟩
    cases t <;> simp [htrue, hfalse]
  have hlt := h false true _ _ s t hs (by simp [hpc]) (by simp [hpc]) hquit ht hreturned 0 hcompleted
  omega

end LoopThread

end Muduo
