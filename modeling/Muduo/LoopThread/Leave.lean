import Muduo.Foundations.Measure
import Muduo.LoopThread.Drain

/-!
# The way out of the loop

Once `quit_` is true inside of `loop()`, the owner goes on to the next test of its `while` and leaves.
On the way it calls the functors of one round at most. `left` bounds the steps that this takes: a
step of the loop uses up a part of it, and only a functor that is queued before the swap of this round
adds to it. Functors that queue others, or themselves, do not keep the loop from leaving (`leaves`).
-/

namespace Muduo

open Run

variable {φ τ : Type}

namespace LoopThread

/-- A step of the owner in `loop()`. -/
def Action.InLoop : Action φ τ → Prop
  | test | poll _ | handleRead | doPendingFunctors | swap | next | endRound => True
  | loop | queueInLoop _ _ | wakeQueued _ | quit _ | wakeQuit _ => False

instance (a : Action φ τ) : Decidable a.InLoop :=
  match a with
  | .test | .poll _ | .handleRead | .doPendingFunctors | .swap | .next | .endRound => .isTrue trivial
  | .loop | .queueInLoop _ _ | .wakeQueued _ | .quit _ | .wakeQuit _ => .isFalse id

/-- The most steps of the loop until it leaves, when `quit_` is true and nothing more is queued. -/
def left (s : LoopThread φ τ) : ℕ :=
  match s.pc with
  | .outside | .returned => 0
  | .testing => 1
  | .polling => 6 + s.pendingFunctors_.length
  | .dispatching true => 5 + s.pendingFunctors_.length
  | .dispatching false => 4 + s.pendingFunctors_.length
  | .swapping => 3 + s.pendingFunctors_.length
  | .running _ => 2 + s.functors.length

variable [DecidableEq τ]

/-- The steps of the loop that are taken. -/
def taking (s : LoopThread φ τ) (a : Action φ τ) : List (Action φ τ) :=
  if a.InLoop ∧ s.Enabled a then [a] else []

/-- The functors that are queued before the swap of the round that is to come. -/
def queuing (s : LoopThread φ τ) : Action φ τ → List φ
  | .queueInLoop t f => if s.Enabled (.queueInLoop t f) ∧ ¬s.pc.Past then [f] else []
  | _ => []

variable {s t : LoopThread φ τ}

/-- **A step of the loop** uses up a part of what is left. -/
theorem left_lt (hquit : s.quit_ = true) {a : Action φ τ} (ha : a.InLoop) (henabled : s.Enabled a) :
    (s.perform a).left < s.left := by
  cases a with
  | loop | queueInLoop | wakeQueued | quit | wakeQuit => exact absurd ha id
  | test =>
    have hpc : s.pc = .testing := henabled
    simp [perform, hquit, LoopThread.goto, left, hpc]
  | poll weakup => cases weakup <;> simp [perform, LoopThread.goto, left, henabled.1]
  | handleRead | doPendingFunctors =>
    simp [perform, handleRead, LoopThread.doPendingFunctors, LoopThread.goto, left, henabled.1]
  | swap =>
    have hpc : s.pc = .swapping := henabled
    simp [perform, LoopThread.swap, LoopThread.goto, left, hpc]
  | next =>
    obtain ⟨f, fs, hfunctors⟩ := List.exists_cons_of_ne_nil henabled.2.1
    rcases henabled.1 with hpc | hpc <;>
      simp [perform, hfunctors, LoopThread.call, LoopThread.goto, left, hpc]
  | endRound =>
    rcases henabled.1 with hpc | hpc <;>
      simp [perform, LoopThread.endRound, LoopThread.goto, left, hpc, henabled.2.1]

/-- A functor that is queued past the swap is left for later. -/
theorem left_queueInLoop {i : τ} {f : φ} (henabled : s.Enabled (.queueInLoop i f)) :
    (s.queueInLoop i f).left ≤ s.left + (s.queuing (.queueInLoop i f)).length := by
  by_cases hpast : s.pc.Past
  · have hsame : (s.queueInLoop i f).left = s.left := by
      obtain hpc | (hpc | hpc) | hpc := hpast <;>
        simp [left, LoopThread.queueInLoop, enter, hpc]
    rw [hsame]
    exact Nat.le_add_right _ _
  · have hone : (s.queuing (.queueInLoop i f)).length = 1 := by
      rw [queuing, if_pos ⟨henabled, hpast⟩, List.length_singleton]
    rw [hone]
    cases hpc : s.pc with
    | dispatching weakup =>
      cases weakup <;> simp [left, LoopThread.queueInLoop, enter, hpc, Nat.add_assoc]
    | _ => simp [left, LoopThread.queueInLoop, enter, hpc, Nat.add_assoc]

/-- **A step** of any thread: only a functor that comes before the swap adds to what is left. -/
theorem left_step (hquit : s.quit_ = true) (hpc : s.pc ≠ .outside) {a : Action φ τ}
    (h : s.step a = .ok t) : (s.taking a).length + t.left ≤ s.left + (s.queuing a).length := by
  unfold taking
  rcases step_ok h with ⟨henabled, rfl⟩ | ⟨hnot, rfl⟩
  · by_cases ha : a.InLoop
    · have hlt := left_lt hquit ha henabled
      rw [if_pos ⟨ha, henabled⟩, List.length_singleton]
      omega
    · rw [if_neg fun h => ha h.1, List.length_nil, Nat.zero_add]
      cases a with
      | test | poll | handleRead | doPendingFunctors | swap | next | endRound =>
        exact absurd trivial ha
      | loop => exact absurd henabled.1 hpc
      | queueInLoop i f => exact left_queueInLoop henabled
      | quit i => exact Nat.le_refl _
      | wakeQueued i =>
        obtain ⟨n, hn⟩ := s.wakeQueued_eq i
        rw [perform, hn]
        exact Nat.le_refl _
      | wakeQuit i =>
        obtain ⟨n, hn⟩ := s.wakeQuit_eq i
        rw [perform, hn]
        exact Nat.le_refl _
  · rw [if_neg fun h => hnot h.2, List.length_nil, Nat.zero_add]
    exact Nat.le_add_right _ _

omit [DecidableEq τ] in
/-- **Progress**: an owner in `loop()` that is in no call has a step of the loop to take. -/
theorem exists_enabled (hfree : s.Free) (hpc : s.pc ≠ .outside) (hpc' : s.pc ≠ .returned) :
    ∃ a : Action φ τ, a.InLoop ∧ s.Enabled a := by
  cases hs : s.pc with
  | outside => exact absurd hs hpc
  | returned => exact absurd hs hpc'
  | testing => exact ⟨.test, trivial, hs⟩
  | polling => exact ⟨.poll false, trivial, hs, by simp⟩
  | dispatching weakup =>
    cases weakup with
    | true => exact ⟨.handleRead, trivial, hs, hfree⟩
    | false => exact ⟨.doPendingFunctors, trivial, hs, hfree⟩
  | swapping => exact ⟨.swap, trivial, hs⟩
  | running begun =>
    have hround : s.pc = .running false ∨ s.pc = .running true := by cases begun <;> simp [hs]
    by_cases hfunctors : s.functors = []
    · exact ⟨.endRound, trivial, hround, hfunctors, hfree⟩
    · exact ⟨.next, trivial, hround, hfunctors, hfree⟩

/-- **The way out of the loop**: once `quit_` is true inside of `loop()`, whatever the threads do and
whatever the functors queue, the loop takes no more steps than were left, and one more for each
functor that is queued before its last swap; and until it has returned, its owner, when it is in no
call, can take another. -/
theorem leaves {after : List (Action φ τ)} (hquit : s.quit_ = true) (hpc : s.pc ≠ .outside)
    (h : run step s after = .ok t) :
    (collect step taking s after).length + t.left ≤
        s.left + (collect step queuing s after).length ∧
      (t.Free → t.pc ≠ .returned → ∃ a : Action φ τ, a.InLoop ∧ t.Enabled a) := by
  have hstep (s t : LoopThread φ τ) (a : Action φ τ) (hs : s.quit_ = true ∧ s.pc ≠ .outside)
      (h : s.step a = .ok t) : t.quit_ = true ∧ t.pc ≠ .outside :=
    ⟨keeps_quit hs.1 hs.2 h, stays_inside hs.2 h⟩
  constructor
  · refine collect_length_le (I := fun s : LoopThread φ τ => s.quit_ = true ∧ s.pc ≠ .outside) ?_
      ⟨hquit, hpc⟩ h
    exact fun s a t hs h => ⟨hstep s t a hs h, left_step hs.1 hs.2 h⟩
  · have hinside := invariant (fun s a t => hstep s t a) ⟨hquit, hpc⟩ h
    exact fun hfree => exists_enabled hfree hinside.2

/-- The functor `true` queues itself and quits the loop, which leaves without calling it again. -/
theorem leaves_requeued : ∃ s t : LoopThread Bool ℕ,
    run step (construct 0) [.queueInLoop 1 true, .wakeQueued 1, .loop, .test, .poll true, .handleRead,
      .doPendingFunctors, .swap, .next, .queueInLoop 0 true, .wakeQueued 0, .quit 0] = .ok s ∧
    run step s [.wakeQuit 0, .endRound, .test] = .ok t ∧
    (t.pc = .returned ∧ t.pendingFunctors_ = [true]) ∧
    (collect step taking s [.wakeQuit 0, .endRound, .test]).length + t.left ≤
        s.left + (collect step queuing s [.wakeQuit 0, .endRound, .test]).length ∧
      (t.Free → t.pc ≠ .returned → ∃ a : Action Bool ℕ, a.InLoop ∧ t.Enabled a) := by
  have hrun : (run step (construct 0 : LoopThread Bool ℕ) [.queueInLoop 1 true, .wakeQueued 1, .loop,
      .test, .poll true, .handleRead, .doPendingFunctors, .swap, .next, .queueInLoop 0 true,
      .wakeQueued 0, .quit 0] >>= fun s => (run step s [.wakeQuit 0, .endRound, .test]).map fun t =>
        ((s.quit_, s.pc), t.pc, t.pendingFunctors_)) =
          .ok ((true, .running true), .returned, [true]) := by
    decide
  obtain ⟨s, hs, hrun⟩ := bind_eq_ok.1 hrun
  obtain ⟨t, ht, hview⟩ := exists_of_map hrun
  simp only [Prod.mk.injEq] at hview
  obtain ⟨⟨hquit, hpc⟩, hreturned⟩ := hview
  exact ⟨s, t, hs, ht, hreturned, leaves hquit (by simp [hpc]) ht⟩

end LoopThread

end Muduo
