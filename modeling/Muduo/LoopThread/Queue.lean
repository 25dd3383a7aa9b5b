import Muduo.LoopThread

/-!
# The queue of functors

`Fifo` is the invariant of the queue: what has been executed, what is left of the round and what is
pending are the functors that have been pushed, in order, and a round executes what it has taken.
What is recorded of this is what the steps of the run do (`recorded`): a push is a call of
`queueInLoop` that is made (`events`), and what a round takes is pending at its swap (`swaps`).
Only the swap takes functors from `pendingFunctors_`, so that a functor pushed during a round waits
for a later one (`Fifo.le_of_same_round`), and a round has nothing to do but to call the functors it
has taken (`Fifo.finish`).
-/

namespace Muduo

open Run

variable {φ τ : Type}

/-- Inside a round, after the swap. -/
def LoopPc.InRound (pc : LoopPc) : Prop := pc = .running false ∨ pc = .running true

instance (pc : LoopPc) : Decidable pc.InRound := inferInstanceAs (Decidable (_ ∨ _))

/-- What is seen of the queue of a loop. -/
inductive QueueEvent (φ τ : Type)
  /-- The thread `t` has queued `f`. -/
  | queued (t : τ) (f : φ)
  /-- The owner has called `f`. -/
  | called (f : φ)
  deriving DecidableEq

namespace QueueEvent

/-- The functor that has been queued. -/
def push : QueueEvent φ τ → Option φ
  | queued _ f => some f
  | called _ => none

/-- The functor that has been called. -/
def call : QueueEvent φ τ → Option φ
  | queued _ _ => none
  | called f => some f

end QueueEvent

namespace LoopThread

/-- The functors of the loop that have not been called, the next one first. -/
def waiting (s : LoopThread φ τ) : List φ := s.functors ++ s.pendingFunctors_

/-- What the rounds have executed, the present one included. -/
def ran (s : LoopThread φ τ) : List φ :=
  s.rounds.flatMap Prod.snd ++ if s.pc.InRound then s.round.2 else []

theorem ran_of_inRound {s : LoopThread φ τ} (h : s.pc.InRound) :
    s.ran = s.rounds.flatMap Prod.snd ++ s.round.2 := by
  rw [ran, if_pos h]

theorem ran_of_not_inRound {s : LoopThread φ τ} (h : ¬s.pc.InRound) :
    s.ran = s.rounds.flatMap Prod.snd := by
  rw [ran, if_neg h, List.append_nil]

/-- What the rounds have taken, the present one included. -/
def swapped (s : LoopThread φ τ) : List (List φ) :=
  s.rounds.map Prod.fst ++ if s.pc.InRound then [s.round.1] else []

theorem swapped_of_inRound {s : LoopThread φ τ} (h : s.pc.InRound) :
    s.swapped = s.rounds.map Prod.fst ++ [s.round.1] := by
  rw [swapped, if_pos h]

theorem swapped_of_not_inRound {s : LoopThread φ τ} (h : ¬s.pc.InRound) :
    s.swapped = s.rounds.map Prod.fst := by
  rw [swapped, if_neg h, List.append_nil]

/-- The invariant of the queue. -/
structure Fifo (s : LoopThread φ τ) : Prop where
  order : s.executed ++ s.functors ++ s.pendingFunctors_ = s.pushes
  functors_eq : ¬s.pc.InRound → s.functors = []
  round_eq : s.round.2 ++ s.functors = s.round.1
  rounds_eq : ∀ r ∈ s.rounds, r.2 = r.1
  ran_eq : s.ran = s.executed

theorem construct_fifo (threadId : τ) : (construct threadId : LoopThread φ τ).Fifo :=
  ⟨rfl, fun _ => rfl, rfl, by simp [construct], rfl⟩

variable {s t : LoopThread φ τ}

/-- A step of the owner from one place outside a round to another. -/
theorem Fifo.goto (hs : s.Fifo) {pc : LoopPc} (hpc : ¬s.pc.InRound) (hpc' : ¬pc.InRound) :
    (s.goto pc).Fifo := by
  refine ⟨hs.order, fun _ => hs.functors_eq hpc, hs.round_eq, hs.rounds_eq, ?_⟩
  have hpc'' : ¬(s.goto pc).pc.InRound := hpc'
  rw [ran_of_not_inRound hpc'']
  exact (ran_of_not_inRound hpc).symm.trans hs.ran_eq

theorem Fifo.swap (hs : s.Fifo) (hpc : s.pc = .swapping) : s.swap.Fifo := by
  have hnot : ¬s.pc.InRound := by simp [hpc, LoopPc.InRound]
  have hnil := hs.functors_eq hnot
  refine ⟨?_, fun hnot => absurd (.inl rfl) hnot, rfl, hs.rounds_eq, ?_⟩
  · have horder := hs.order
    rw [hnil, List.append_nil] at horder
    simpa [LoopThread.swap, LoopThread.goto] using horder
  · have hin : s.swap.pc.InRound := .inl rfl
    have hran := (ran_of_not_inRound hnot).symm.trans hs.ran_eq
    rw [ran_of_inRound hin]
    simpa [LoopThread.swap, LoopThread.goto] using hran

theorem Fifo.call (hs : s.Fifo) (hpc : s.pc.InRound) {f : φ} {fs : List φ}
    (hfunctors : s.functors = f :: fs) : (s.call f fs).Fifo := by
  refine ⟨?_, fun hnot => absurd (.inr rfl) hnot, ?_, hs.rounds_eq, ?_⟩
  · have horder := hs.order
    rw [hfunctors] at horder
    simpa [LoopThread.call, LoopThread.goto] using horder
  · have hround := hs.round_eq
    rw [hfunctors] at hround
    simpa [LoopThread.call, LoopThread.goto] using hround
  · have hin : (s.call f fs).pc.InRound := .inr rfl
    have hran := (ran_of_inRound hpc).symm.trans hs.ran_eq
    rw [ran_of_inRound hin]
    simp [LoopThread.call, LoopThread.goto, ← hran]

theorem Fifo.endRound (hs : s.Fifo) (hpc : s.pc.InRound) (hfunctors : s.functors = []) :
    s.endRound.Fifo := by
  have hround := hs.round_eq
  rw [hfunctors, List.append_nil] at hround
  refine ⟨hs.order, fun _ => hfunctors, hs.round_eq, ?_, ?_⟩
  · intro r hr
    rcases List.mem_append.1 hr with hr | hr
    · exact hs.rounds_eq r hr
    · obtain rfl := List.mem_singleton.1 hr
      exact hround
  · have hout : ¬s.endRound.pc.InRound := by simp [LoopThread.endRound, LoopThread.goto, LoopPc.InRound]
    have hran := (ran_of_inRound hpc).symm.trans hs.ran_eq
    rw [ran_of_not_inRound hout]
    simpa [LoopThread.endRound, LoopThread.goto] using hran

variable [DecidableEq τ]

theorem Fifo.queueInLoop (hs : s.Fifo) (i : τ) (f : φ) : (s.queueInLoop i f).Fifo := by
  refine ⟨?_, hs.functors_eq, hs.round_eq, hs.rounds_eq, hs.ran_eq⟩
  simp [LoopThread.queueInLoop, enter, ← hs.order]

/-- **Every step keeps the invariant.** -/
theorem Fifo.step (hs : s.Fifo) {a : Action φ τ} (h : s.step a = .ok t) : t.Fifo := by
  rcases step_ok h with ⟨henabled, rfl⟩ | ⟨-, rfl⟩
  · cases a with
    | loop =>
      have hquit : Fifo { s with quit_ := false } := ⟨hs.1, hs.2, hs.3, hs.4, hs.5⟩
      exact hquit.goto (by simp [henabled.1, LoopPc.InRound]) (by simp [LoopPc.InRound])
    | test =>
      have hpc : s.pc = .testing := henabled
      refine hs.goto (by simp [hpc, LoopPc.InRound]) ?_
      split <;> simp [LoopPc.InRound]
    | poll weakup =>
      exact hs.goto (by simp [henabled.1, LoopPc.InRound]) (by simp [LoopPc.InRound])
    | handleRead =>
      have hread : Fifo { s with weakupFd_ := 0 } := ⟨hs.1, hs.2, hs.3, hs.4, hs.5⟩
      exact hread.goto (by simp [henabled.1, LoopPc.InRound]) (by simp [LoopPc.InRound])
    | doPendingFunctors =>
      have hcalling : Fifo { s with callingPendingFunctors_ := true } := ⟨hs.1, hs.2, hs.3, hs.4, hs.5⟩
      exact hcalling.goto (by simp [henabled.1, LoopPc.InRound]) (by simp [LoopPc.InRound])
    | swap => exact hs.swap henabled
    | next =>
      obtain ⟨hpc, hne, -⟩ := henabled
      simp only [perform]
      split
      next hnil => exact absurd hnil hne
      next f fs hfunctors => exact hs.call hpc hfunctors
    | endRound => exact hs.endRound henabled.1 henabled.2.1
    | queueInLoop i f => exact hs.queueInLoop i f
    | wakeQueued i =>
      obtain ⟨n, hn⟩ := s.wakeQueued_eq i
      rw [perform, hn]
      exact ⟨hs.1, hs.2, hs.3, hs.4, hs.5⟩
    | quit i => exact ⟨hs.1, hs.2, hs.3, hs.4, hs.5⟩
    | wakeQuit i =>
      obtain ⟨n, hn⟩ := s.wakeQuit_eq i
      rw [perform, hn]
      exact ⟨hs.1, hs.2, hs.3, hs.4, hs.5⟩
  · exact hs

/-! ## What is seen of the queue -/

/-- What is seen of a step. -/
def events (s : LoopThread φ τ) : Action φ τ → List (QueueEvent φ τ)
  | .queueInLoop t f => if s.Enabled (.queueInLoop t f) then [.queued t f] else []
  | .next => if s.Enabled .next then (s.functors.take 1).map .called else []
  | _ => []

/-- The queue that a step takes for a round. -/
def swaps (s : LoopThread φ τ) : Action φ τ → List (List φ)
  | .swap => if s.Enabled .swap then [s.pendingFunctors_] else []
  | _ => []

/-- **The trace** of a step is what has been pushed and what has been executed. -/
theorem events_step {a : Action φ τ} (h : s.step a = .ok t) :
    t.pushes = s.pushes ++ (s.events a).filterMap QueueEvent.push ∧
      t.executed = s.executed ++ (s.events a).filterMap QueueEvent.call := by
  rcases step_ok h with ⟨henabled, rfl⟩ | ⟨hnot, rfl⟩
  · cases a with
    | loop | test | poll | handleRead | doPendingFunctors | swap | endRound | quit =>
      simp [events, perform, goto, handleRead, doPendingFunctors, swap, endRound, quit, enter]
    | next =>
      simp only [events, if_pos henabled, perform]
      split
      next hnil => simp [hnil]
      next f fs hfunctors => simp [hfunctors, call, goto, QueueEvent.push, QueueEvent.call]
    | queueInLoop i f =>
      simp [events, henabled, perform, queueInLoop, enter, QueueEvent.push, QueueEvent.call]
    | wakeQueued i =>
      obtain ⟨n, hn⟩ := s.wakeQueued_eq i
      rw [perform, hn]
      simp [events, enter]
    | wakeQuit i =>
      obtain ⟨n, hn⟩ := s.wakeQuit_eq i
      rw [perform, hn]
      simp [events, enter]
  · cases a with
    | queueInLoop | next => simp [events, hnot]
    | _ => simp [events]

/-- A round begins at a swap, and takes what is pending then. -/
theorem swaps_step {a : Action φ τ} (h : s.step a = .ok t) : t.swapped = s.swapped ++ s.swaps a := by
  rcases step_ok h with ⟨henabled, rfl⟩ | ⟨hnot, rfl⟩
  · cases a with
    | loop | poll | handleRead | doPendingFunctors =>
      have hout : ¬s.pc.InRound := by simp [henabled.1, LoopPc.InRound]
      rw [swapped_of_not_inRound hout]
      simp [swapped, swaps, perform, handleRead, doPendingFunctors, goto, LoopPc.InRound]
    | test =>
      have hpc : s.pc = .testing := henabled
      have hout : ¬s.pc.InRound := by simp [hpc, LoopPc.InRound]
      have hout' : ¬(s.perform .test).pc.InRound := by
        simp only [perform, goto]
        split <;> simp [LoopPc.InRound]
      rw [swapped_of_not_inRound hout, swapped_of_not_inRound hout']
      simp [swaps, perform, goto]
    | swap =>
      have hpc : s.pc = .swapping := henabled
      have hout : ¬s.pc.InRound := by simp [hpc, LoopPc.InRound]
      have hin : (s.perform .swap).pc.InRound := .inl rfl
      rw [swapped_of_not_inRound hout, swapped_of_inRound hin]
      simp [swaps, henabled, perform, swap, goto]
    | next =>
      have hin : s.pc.InRound := henabled.1
      simp only [perform]
      split
      next => simp [swaps]
      next f fs hfunctors =>
        have hin' : (s.call f fs).pc.InRound := .inr rfl
        rw [swapped_of_inRound hin, swapped_of_inRound hin']
        simp [swaps, call, goto]
    | endRound =>
      have hin : s.pc.InRound := henabled.1
      have hout : ¬(s.perform .endRound).pc.InRound := by
        simp [perform, endRound, goto, LoopPc.InRound]
      rw [swapped_of_inRound hin, swapped_of_not_inRound hout]
      simp [swaps, perform, endRound, goto]
    | queueInLoop | quit => exact (List.append_nil _).symm
    | wakeQueued i =>
      obtain ⟨n, hn⟩ := s.wakeQueued_eq i
      rw [perform, hn]
      exact (List.append_nil _).symm
    | wakeQuit i =>
      obtain ⟨n, hn⟩ := s.wakeQuit_eq i
      rw [perform, hn]
      exact (List.append_nil _).symm
  · cases a with
    | swap => simp [swaps, hnot]
    | _ => simp [swaps]

/-- What a run records is what is seen of it. -/
theorem recorded {threadId : τ} {actions : List (Action φ τ)}
    (h : run step (construct threadId) actions = .ok s) :
    s.pushes = (collect step events (construct threadId) actions).filterMap QueueEvent.push ∧
      s.executed = (collect step events (construct threadId) actions).filterMap QueueEvent.call ∧
      s.swapped = collect step swaps (construct threadId) actions := by
  refine run_induction (motive := fun actions s =>
    s.pushes = (collect step events (construct threadId) actions).filterMap QueueEvent.push ∧
      s.executed = (collect step events (construct threadId) actions).filterMap QueueEvent.call ∧
      s.swapped = collect step swaps (construct threadId) actions) ⟨rfl, rfl, rfl⟩ ?_ h
  rintro actions a t u ht hu ⟨hpushes, hexecuted, hswapped⟩
  obtain ⟨hpushes', hexecuted'⟩ := events_step hu
  rw [collect_concat ht, collect_concat ht, List.filterMap_append, List.filterMap_append, hpushes',
    hexecuted', swaps_step hu, hpushes, hexecuted, hswapped]
  exact ⟨rfl, rfl, rfl⟩

/-! ## What waits -/

/-- The functor that is called is the next one that waits. -/
theorem waiting_next (henabled : s.Enabled .next) {f : φ} {fs : List φ}
    (hfunctors : s.functors = f :: fs) (h : s.step .next = .ok t) : s.waiting = f :: t.waiting := by
  rcases step_ok h with ⟨-, rfl⟩ | ⟨hnot, -⟩
  · simp [waiting, perform, hfunctors, LoopThread.call, LoopThread.goto]
  · exact absurd henabled hnot

/-- A functor waits from `queueInLoop` until it is called. -/
theorem Fifo.waiting_step (hs : s.Fifo) {a : Action φ τ} (h : s.step a = .ok t) :
    t.waiting = s.waiting ∨ (∃ i f, a = .queueInLoop i f ∧ t.waiting = s.waiting ++ [f]) ∨
      a = .next ∧ s.Enabled .next ∧ ∃ f, s.waiting = f :: t.waiting := by
  rcases step_ok h with ⟨henabled, rfl⟩ | ⟨-, rfl⟩
  · cases a with
    | loop | test | poll | handleRead | doPendingFunctors | endRound | quit => exact .inl rfl
    | swap =>
      have hpc : s.pc = .swapping := henabled
      have hnil : s.functors = [] := hs.functors_eq (by simp [hpc, LoopPc.InRound])
      refine .inl ?_
      simp [waiting, perform, LoopThread.swap, LoopThread.goto, hnil]
    | next =>
      obtain ⟨f, fs, hfunctors⟩ := List.exists_cons_of_ne_nil henabled.2.1
      exact .inr (.inr ⟨rfl, henabled, f, waiting_next henabled hfunctors h⟩)
    | queueInLoop i f =>
      refine .inr (.inl ⟨i, f, rfl, ?_⟩)
      simp [waiting, perform, LoopThread.queueInLoop, enter]
    | wakeQueued i =>
      obtain ⟨n, hn⟩ := s.wakeQueued_eq i
      refine .inl ?_
      rw [perform, hn]
      rfl
    | wakeQuit i =>
      obtain ⟨n, hn⟩ := s.wakeQuit_eq i
      refine .inl ?_
      rw [perform, hn]
      rfl
  · exact .inl rfl

/-! ## The end of a round -/

/-- The steps with which the owner ends the round, when its functors do nothing more. -/
def finish (s : LoopThread φ τ) : List (Action φ τ) :=
  [.wakeQueued s.threadId_, .wakeQuit s.threadId_] ++ List.replicate s.functors.length .next ++
    [.endRound]

/-- The owner ends a call that it is in, and nothing else changes. -/
theorem exists_free (s : LoopThread φ τ) : ∃ t, run LoopThread.step s
    [.wakeQueued s.threadId_, .wakeQuit s.threadId_] = .ok t ∧ t.Free ∧ t.pc = s.pc ∧
      t.functors = s.functors ∧ t.round = s.round ∧ t.rounds = s.rounds := by
  cases hc : s.thread s.threadId_ with
  | idle =>
    refine ⟨s, ?_, hc, rfl, rfl, rfl, rfl⟩
    simp [run, LoopThread.step, Enabled, hc]
  | queueInLoop i =>
    refine ⟨s.wakeQueued s.threadId_, ?_, ?_, ?_⟩
    · have hidle : (s.wakeQueued s.threadId_).thread s.threadId_ = .idle := by
        simp [wakeQueued, enter]
      simp [run, LoopThread.step, Enabled, hc, perform, hidle]
    · obtain ⟨n, hn⟩ := s.wakeQueued_eq s.threadId_
      rw [hn]
      exact Function.update_self ..
    · obtain ⟨n, hn⟩ := s.wakeQueued_eq s.threadId_
      rw [hn]
      exact ⟨rfl, rfl, rfl, rfl⟩
  | quit =>
    refine ⟨s.wakeQuit s.threadId_, ?_, ?_, ?_⟩
    · simp [run, LoopThread.step, Enabled, hc, perform]
    · obtain ⟨n, hn⟩ := s.wakeQuit_eq s.threadId_
      rw [hn]
      exact Function.update_self ..
    · obtain ⟨n, hn⟩ := s.wakeQuit_eq s.threadId_
      rw [hn]
      exact ⟨rfl, rfl, rfl, rfl⟩

/-- The functors that are left are called one after the other, and the round ends. -/
theorem exists_endRound (hpc : s.pc.InRound) (hfree : s.Free) :
    ∃ t, run LoopThread.step s (List.replicate s.functors.length .next ++ [.endRound]) = .ok t ∧
      t.pc = .testing ∧ t.rounds = s.rounds ++ [(s.round.1, s.round.2 ++ s.functors)] := by
  generalize hfs : s.functors = fs
  induction fs generalizing s with
  | nil =>
    refine ⟨s.endRound, ?_, rfl, by simp [endRound, LoopThread.goto]⟩
    have henabled : s.Enabled .endRound := ⟨hpc, hfs, hfree⟩
    simp [run, LoopThread.step, henabled, perform]
  | cons f fs ih =>
    have henabled : s.Enabled .next := ⟨hpc, by simp [hfs], hfree⟩
    have hstep : s.step .next = .ok (s.call f fs) := by
      simp [LoopThread.step, henabled, perform, hfs]
    obtain ⟨t, ht, hpc', hrounds⟩ := ih (s := s.call f fs) (.inr rfl) hfree rfl
    refine ⟨t, ?_, hpc', ?_⟩
    · exact run_cons_ok.2 ⟨_, hstep, ht⟩
    · rw [hrounds]
      simp [LoopThread.call, LoopThread.goto]

theorem Fifo.finish (hs : s.Fifo) (hpc : s.pc.InRound) : ∃ t, run LoopThread.step s s.finish = .ok t ∧
    t.pc = .testing ∧ t.rounds = s.rounds ++ [(s.round.1, s.round.1)] := by
  obtain ⟨u, hu, hfree, hpcu, hfunctors, hround, hrounds⟩ := s.exists_free
  obtain ⟨t, ht, hpct, htrounds⟩ := exists_endRound (hpcu ▸ hpc) hfree
  refine ⟨t, ?_, hpct, ?_⟩
  · rw [LoopThread.finish, List.append_assoc, ← hfunctors]
    exact run_append_ok.2 ⟨u, hu, ht⟩
  · rw [htrounds, hrounds, hround, hfunctors, hs.round_eq]

/-! ## The functors of a round -/

/-- As long as no further round has ended, the round is the same. -/
theorem same_round (hpc : s.pc.InRound) {actions : List (Action φ τ)}
    (h : run LoopThread.step s actions = .ok t) :
    s.rounds.length ≤ t.rounds.length ∧
      (t.rounds.length = s.rounds.length → t.pc.InRound ∧ t.round.1 = s.round.1 ∧
        t.rounds = s.rounds) := by
  refine run_induction (motive := fun _ t => s.rounds.length ≤ t.rounds.length ∧
    (t.rounds.length = s.rounds.length → t.pc.InRound ∧ t.round.1 = s.round.1 ∧
      t.rounds = s.rounds)) ⟨Nat.le_refl _, fun _ => ⟨hpc, rfl, rfl⟩⟩ ?_ h
  intro actions a u t _ ht hu
  rcases step_ok ht with ⟨henabled, rfl⟩ | ⟨-, rfl⟩
  · cases a with
    | loop | poll | handleRead | doPendingFunctors =>
      refine ⟨hu.1, fun heq => absurd (hu.2 heq).1 ?_⟩
      simp [henabled.1, LoopPc.InRound]
    | test | swap =>
      have hpcu : u.pc = _ := henabled
      refine ⟨hu.1, fun heq => absurd (hu.2 heq).1 ?_⟩
      simp [hpcu, LoopPc.InRound]
    | next =>
      simp only [perform]
      split
      next => exact hu
      next => exact ⟨hu.1, fun heq => ⟨.inr rfl, (hu.2 heq).2⟩⟩
    | endRound =>
      have hlen : (u.perform .endRound).rounds.length = u.rounds.length + 1 := by
        simp [perform, endRound, LoopThread.goto]
      exact ⟨by omega, fun heq => absurd hu.1 (by omega)⟩
    | queueInLoop i f | quit i => exact hu
    | wakeQueued i =>
      obtain ⟨n, hn⟩ := u.wakeQueued_eq i
      rw [perform, hn]
      exact hu
    | wakeQuit i =>
      obtain ⟨n, hn⟩ := u.wakeQuit_eq i
      rw [perform, hn]
      exact hu
  · exact hu

theorem fifo_run (hs : s.Fifo) {actions : List (Action φ τ)}
    (h : run LoopThread.step s actions = .ok t) : t.Fifo :=
  invariant (fun _ _ _ hs h => hs.step h) hs h

/-- What a round executes before it ends was in the queue at its swap. -/
theorem Fifo.le_of_same_round (hs : s.Fifo) (hpc : s.pc.InRound) {actions : List (Action φ τ)}
    (h : run LoopThread.step s actions = .ok t) (heq : t.rounds.length = s.rounds.length) :
    t.executed.length ≤ s.executed.length + s.functors.length := by
  have ht := fifo_run hs h
  obtain ⟨hpct, hround, hrounds⟩ := (same_round hpc h).2 heq
  have hexecuted := congrArg List.length ((ran_of_inRound hpc).symm.trans hs.ran_eq)
  have hexecuted' := congrArg List.length ((ran_of_inRound hpct).symm.trans ht.ran_eq)
  have htaken := congrArg List.length hs.round_eq
  have htaken' := congrArg List.length ht.round_eq
  rw [hrounds] at hexecuted'
  rw [hround] at htaken'
  rw [List.length_append] at hexecuted hexecuted' htaken htaken'
  omega

/-- **The queue is exactly-once and in order**: in every run, what has been executed, the rest of
the round and `pendingFunctors_` are what the threads have queued. Every round takes what is pending
at its swap and executes this: it can be brought to its end, and until then nothing else is
executed. -/
theorem exactlyOnce (threadId : τ) (actions : List (Action φ τ)) :
    ∃ s, run step (construct threadId) actions = .ok s ∧
      s.pushes = (collect step events (construct threadId) actions).filterMap QueueEvent.push ∧
      s.executed = (collect step events (construct threadId) actions).filterMap QueueEvent.call ∧
      s.swapped = collect step swaps (construct threadId) actions ∧
      s.executed ++ s.functors ++ s.pendingFunctors_ = s.pushes ∧
      s.ran = s.executed ∧ (∀ r ∈ s.rounds, r.2 = r.1) ∧ s.round.2 ++ s.functors = s.round.1 ∧
      (s.pc.InRound →
        (∃ t, run step s s.finish = .ok t ∧ t.pc = .testing ∧
          t.rounds = s.rounds ++ [(s.round.1, s.round.1)]) ∧
        ∀ more t, run step s more = .ok t → t.rounds.length = s.rounds.length →
          t.executed.length ≤ s.executed.length + s.functors.length) := by
  obtain ⟨s, hrun, hs⟩ := progress (I := Fifo) (fun s a hs => ⟨_, rfl, hs.step (a := a) rfl⟩)
    (construct_fifo threadId) actions
  obtain ⟨hpushes, hexecuted, hswapped⟩ := recorded hrun
  exact ⟨s, hrun, hpushes, hexecuted, hswapped, hs.order, hs.ran_eq, hs.rounds_eq, hs.round_eq,
    fun hpc => ⟨hs.finish hpc, fun more t h heq => hs.le_of_same_round hpc h heq⟩⟩

/-- In the first round the functor `true` queues itself, and another thread queues `false`; the second
round takes both. -/
def requeuing : List (Action Bool ℕ) :=
  [.queueInLoop 1 true, .wakeQueued 1, .loop, .test, .poll true, .handleRead, .doPendingFunctors,
    .swap, .next, .queueInLoop 0 true, .wakeQueued 0, .queueInLoop 1 false, .wakeQueued 1, .endRound,
    .test, .poll true, .handleRead, .doPendingFunctors, .swap, .next]

theorem exactlyOnce_requeuing : ∃ s : LoopThread Bool ℕ,
    run step (construct 0) requeuing = .ok s ∧
    (s.executed = [true, true] ∧ s.functors = [false] ∧ s.pendingFunctors_ = []) ∧
    s.pushes = [true, true, false] ∧ s.swapped = [[true], [true, false]] ∧
    s.executed ++ s.functors ++ s.pendingFunctors_ = s.pushes ∧ s.ran = s.executed ∧
    (∀ r ∈ s.rounds, r.2 = r.1) ∧
    ∃ t, run step s s.finish = .ok t ∧ t.rounds = s.rounds ++ [([true, false], [true, false])] := by
  have hview : (run step (construct 0) requeuing).map (fun s =>
      (s.pc, s.round.1, s.executed, s.functors, s.pendingFunctors_)) =
        .ok (.running true, [true, false], [true, true], [false], []) := by
    decide
  have hqueued : (collect step events (construct 0) requeuing).filterMap QueueEvent.push =
      [true, true, false] := by
    decide
  have htaken : collect step swaps (construct 0) requeuing = [[true], [true, false]] := by decide
  obtain ⟨s, hs, hpushes, -, hswapped, horder, hran, hrounds, -, hround⟩ := exactlyOnce 0 requeuing
  rw [hs] at hview
  obtain ⟨hpc, htook, hrest⟩ := by simpa only [Except.map, Except.ok.injEq, Prod.mk.injEq] using hview
  obtain ⟨⟨t, ht, -, hended⟩, -⟩ := hround (.inr hpc)
  exact ⟨s, hs, hrest, hpushes.trans hqueued, hswapped.trans htaken, horder, hran, hrounds, t, ht,
    htook ▸ hended⟩

end LoopThread

end Muduo
