import Muduo.DesignPattern.Delivery

/-!
# The destruction of a subject

`~Subject` has the worker empty the queue before it joins it, but by then there is no `shared_ptr`
left, and `shared_from_this` throws for every observer: the rounds of the worker are those of the
moment of the release (`rounds`). And when the worker is inside `update` at this moment, it holds the
last `shared_ptr` itself, destroys the subject and joins itself. So a subject is torn down as it
should be exactly when the worker has nothing left to pass on (`Quiet`).
-/

namespace Muduo.DesignPattern.Subject

open Run

variable {σ τ ο κ : Type} {s t : Subject τ ο κ}

/-! ## A quiet subject -/

/-- The worker has nothing left to pass on: it is not inside `update`, and no observer is alive, or
all messages of the queue and the one it has taken are empty, and it has already come to every
observer that is alive with the one in delivery. -/
def Quiet (s : Subject τ ο κ) : Prop :=
  (∀ msg passed it, s.worker ≠ .updating msg passed it) ∧
    ((∀ observer ∈ s.observers_, s.live observer = false) ∨
      (∀ msg ∈ s.notification_queue_, msg = []) ∧
        match s.worker with
        | .popped msg => msg = []
        | .visiting _ _ it => ∀ observer ∈ s.observers_.drop it, s.live observer = true →
          observer ∈ s.observers_.take it
        | _ => True)

/-- In `t` every message that was created in `s` and is not empty has been passed to every observer
that is alive. -/
def Delivered (s t : Subject τ ο κ) : Prop := ∀ (i : ℕ) (msg : Message),
  s.acquired[i]? = some msg → msg ≠ [] → ∃ passed, t.completed[i]? = some (msg, passed) ∧
    ∀ observer ∈ s.observers_, s.live observer = true → observer ∈ passed

/-! ## The rounds of the worker -/

/-- The round that the worker is in. -/
def round (s : Subject τ ο κ) : List (Message × List ο) :=
  match s.worker with
  | .popped msg => [(msg, [])]
  | .visiting msg passed _ | .updating msg passed _ => [(msg, passed)]
  | .waiting | .returned => []

/-- The rounds of the worker, if it passes nothing on any more. -/
def rounds (s : Subject τ ο κ) : List (Message × List ο) :=
  s.completed ++ s.round ++ s.notification_queue_.map fun msg => (msg, [])

theorem map_rounds (s : Subject τ ο κ) : s.rounds.map (·.1) =
    s.completed.map (·.1) ++ s.inDelivery ++ s.notification_queue_ := by
  have hround : s.round.map (·.1) = s.inDelivery := by
    unfold round inDelivery
    split <;> simp_all
  simp [rounds, hround, Function.comp_def]

theorem Ordered.rounds (hs : s.Ordered) (hmutex : s.msg_mutex_ = none) :
    s.rounds.map (·.1) = s.acquired := by
  rw [map_rounds, ← hs.account, unqueued, hmutex, List.append_nil]

/-- The rounds are enough for all observers that are alive. -/
def Enough (s : Subject τ ο κ) : Prop := ∀ r ∈ s.rounds, r.1 ≠ [] →
  ∀ observer ∈ s.observers_, s.live observer = true → observer ∈ r.2

/-- **A quiet subject**: its rounds are enough, and the worker holds no `shared_ptr`. -/
theorem Attentive.enough_iff {live : List ο} (hs : s.Attentive live)
    (hworker : ∀ msg passed it, s.worker ≠ .updating msg passed it) : s.Enough ↔ s.Quiet := by
  have hpassing := hs.passing
  rw [Quiet, and_iff_right hworker]
  constructor
  · intro h
    by_cases hdeserted : ∀ observer ∈ s.observers_, s.live observer = false
    · exact .inl hdeserted
    · obtain ⟨observer, hmem, halive⟩ : ∃ observer ∈ s.observers_, s.live observer = true := by
        simpa using hdeserted
      have hempty (msg : Message) (hmsg : (msg, []) ∈ s.rounds) : msg = [] := by
        by_contra hne
        exact List.not_mem_nil (h _ hmsg hne observer hmem halive)
      refine .inr ⟨fun msg hmsg => hempty msg ?_, ?_⟩
      · exact List.mem_append_right _ (List.mem_map_of_mem hmsg)
      · split
        next msg hpopped => exact hempty msg (by simp [Subject.rounds, round, hpopped])
        next msg passed it hvisiting =>
          simp only [Passing, hvisiting] at hpassing
          obtain ⟨hmsg, rfl, -⟩ := hpassing
          refine fun observer hobserver halive => h (msg, _) ?_ hmsg observer
            (List.mem_of_mem_drop hobserver) halive
          simp [Subject.rounds, round, hvisiting]
        next => trivial
  · rintro (hdeserted | ⟨hqueue, hround⟩) r hr hne observer hobserver halive
    · rw [hdeserted observer hobserver] at halive
      cases halive
    · rcases List.mem_append.1 hr with hr | hr
      · rcases List.mem_append.1 hr with hr | hr
        · rw [hs.rounds r hr, if_neg hne, ← hs.observers]
          exact List.mem_filter.2 ⟨hobserver, halive⟩
        · unfold round at hr
          split at hr
          next msg hpopped =>
            obtain rfl := List.mem_singleton.1 hr
            simp only [hpopped] at hround
            exact absurd hround hne
          next msg passed it hvisiting =>
            obtain rfl := List.mem_singleton.1 hr
            simp only [Passing, hvisiting] at hpassing
            simp only [hvisiting] at hround
            obtain ⟨-, rfl, -⟩ := hpassing
            rw [← List.take_append_drop it s.observers_] at hobserver
            rcases List.mem_append.1 hobserver with hobserver | hobserver
            · exact hobserver
            · exact hround observer hobserver halive
          next msg passed it hupdating => exact absurd hupdating (hworker msg passed it)
          next => cases hr
          next => cases hr
      · obtain ⟨msg, hmsg, rfl⟩ := List.mem_map.1 hr
        exact absurd (hqueue msg hmsg) hne

/-- The rounds are enough exactly when they deliver all messages. -/
theorem Ordered.enough_iff (hs : s.Ordered) (hmutex : s.msg_mutex_ = none)
    (hcompleted : t.completed = s.rounds) : s.Enough ↔ s.Delivered t := by
  have hacquired (i : ℕ) : s.acquired[i]? = s.rounds[i]?.map (·.1) := by
    rw [← hs.rounds hmutex, List.getElem?_map]
  constructor
  · intro h i msg hi hne
    rw [hacquired, Option.map_eq_some_iff] at hi
    obtain ⟨⟨msg', passed⟩, hround, rfl⟩ := hi
    exact ⟨passed, hcompleted ▸ hround, h _ (List.mem_of_getElem? hround) hne⟩
  · intro h r hr hne
    obtain ⟨i, hi⟩ := List.mem_iff_getElem?.1 hr
    obtain ⟨passed, hpassed, hall⟩ := h i r.1 (by rw [hacquired, hi]; rfl) hne
    rw [hcompleted, hi] at hpassed
    rw [Option.some.inj hpassed]
    exact hall

/-! ## After the release -/

/-- The last `shared_ptr` is gone, and the rounds of the worker are these. -/
structure Released (rounds : List (Message × List ο)) (s : Subject τ ο κ) : Prop where
  shared : s.shared = false
  idle : ∀ t, s.thread t = .idle
  worker : ∀ msg passed it, s.worker ≠ .updating msg passed it
  rounds_eq : s.rounds = rounds
  emptied : s.worker = .returned → s.notification_queue_ = []
  returned : s.destructor = .returned → s.worker = .returned

variable {r : List (Message × List ο)}

/-- When `~Subject` has returned, the rounds are done. -/
theorem Released.completed (hs : s.Released r) (hreturned : s.destructor = .returned) :
    s.completed = r := by
  have hworker := hs.returned hreturned
  rw [← hs.rounds_eq, rounds, round, hworker, hs.emptied hworker, List.append_nil, List.map_nil,
    List.append_nil]

/-- The worker moves on. -/
theorem Released.moves (hs : s.Released r) (hshared : t.shared = s.shared)
    (hthread : t.thread = s.thread) (hdestructor : t.destructor = s.destructor)
    (hreturned : s.worker ≠ .returned) (hworker : ∀ msg passed it, t.worker ≠ .updating msg passed it)
    (hrounds : t.rounds = s.rounds) (hemptied : t.worker = .returned → t.notification_queue_ = []) :
    t.Released r :=
  ⟨hshared.trans hs.shared, fun i => hthread ▸ hs.idle i, hworker, hrounds.trans hs.rounds_eq,
    hemptied, fun h => absurd (hs.returned (hdestructor ▸ h)) hreturned⟩

variable [DecidableEq τ]

/-- **A step** after the release changes nothing about the rounds. -/
theorem Released.step (hs : s.Released r) (a : Action τ) :
    ∃ t, s.step a = .ok t ∧ t.Released r := by
  have hsucceeds : ∃ t, s.step a = .ok t := by
    cases a with
    | leave thrown =>
      refine ⟨s, ?_⟩
      simp only [Subject.step]
      split
      next msg passed it hworker => exact absurd hworker (hs.worker msg passed it)
      next => rfl
    | _ => simp only [Subject.step]; split <;> exact ⟨_, rfl⟩
  obtain ⟨t, ht⟩ := hsucceeds
  refine ⟨t, ht, ?_⟩
  have hrounds := hs.rounds_eq
  cases step_ok ht with
  | stay => exact hs
  | lock i msg hshared | pass msg passed it observer hworker hit hlive hshared | release hshared =>
    cases hs.shared.symm.trans hshared
  | store i msg hi | notify i hi | unlock i hi => cases (hs.idle i).symm.trans hi
  | leave msg passed it hworker => exact absurd hworker (hs.worker msg passed it)
  | take msg queue hworker hqueue =>
    apply hs.moves <;> simp [Subject.rounds, round, hworker, hqueue]
  | finish hworker hqueue hshutdown =>
    apply hs.moves <;> simp [Subject.rounds, round, hworker, hqueue]
  | skip hworker | finished msg passed it hworker =>
    apply hs.moves <;> simp [Subject.rounds, round, complete, hworker]
  | attend msg hmsg hworker | throws msg passed it observer hworker =>
    apply hs.moves <;> simp [Subject.rounds, round, hworker]
  | erase msg passed it observer hworker =>
    exact hs.moves rfl rfl rfl (by simp [hworker]) hs.worker rfl hs.emptied
  | shutdown => exact ⟨hs.shared, hs.idle, hs.worker, hrounds, hs.emptied, DestructorPc.noConfusion⟩
  | join hdestructor hworker =>
    exact ⟨hs.shared, hs.idle, hs.worker, hrounds, hs.emptied, fun _ => hworker⟩

/-! ## The worker comes to its end -/

/-- The worker can go on until it waits. -/
def Waits (s : Subject τ ο κ) : Prop := ∃ actions t, run step s actions = .ok t ∧
  t.worker = .waiting ∧ t.notification_queue_ = s.notification_queue_ ∧ t.shared = s.shared ∧
  t.shutdown_ = s.shutdown_ ∧ t.destructor = s.destructor

theorem Waits.cons {a : Action τ} (h : s.step a = .ok t) (ht : t.Waits)
    (hqueue : t.notification_queue_ = s.notification_queue_) (hshared : t.shared = s.shared)
    (hshutdown : t.shutdown_ = s.shutdown_) (hdestructor : t.destructor = s.destructor) : s.Waits := by
  obtain ⟨actions, u, hu, hworker, h₁, h₂, h₃, h₄⟩ := ht
  exact ⟨a :: actions, u, run_cons_ok.2 ⟨t, h, hu⟩, hworker, h₁.trans hqueue, h₂.trans hshared,
    h₃.trans hshutdown, h₄.trans hdestructor⟩

theorem waits_of_waiting (hworker : s.worker = .waiting) : s.Waits :=
  ⟨[], s, rfl, hworker, rfl, rfl, rfl, rfl⟩

/-- Without a `shared_ptr` the worker goes through the observers that are left, and erases or skips
each. -/
theorem waits_of_visiting (hshared : s.shared = false) {msg : Message} {passed : List ο} {it : ℕ}
    (hworker : s.worker = .visiting msg passed it) : s.Waits := by
  have hstep : s.step .visit = .ok (s.visit msg passed it) := by simp [step, hworker]
  induction hn : s.observers_.length - it generalizing s it with
  | zero =>
    have hvisit : s.visit msg passed it = s.complete msg passed := by
      rw [visit, List.getElem?_eq_none (by omega)]
    rw [hvisit] at hstep
    exact (waits_of_waiting rfl).cons hstep rfl rfl rfl rfl
  | succ n ih =>
    have hlt : it < s.observers_.length := by omega
    by_cases hlive : s.live s.observers_[it] = true
    · have hvisit : s.visit msg passed it =
          { s with worker := .visiting msg passed (it + 1) } := by
        simp [visit, hlt, hlive, hshared]
      rw [hvisit] at hstep
      have hrest : s.observers_.length - (it + 1) = n := by omega
      exact Waits.cons hstep (ih hshared rfl (by simp [step]) hrest) rfl rfl rfl rfl
    · have hvisit : s.visit msg passed it = { s with observers_ := s.observers_.eraseIdx it } := by
        simp [visit, hlt, hlive]
      rw [hvisit] at hstep
      have hrest : (s.observers_.eraseIdx it).length - it = n := by
        rw [List.length_eraseIdx_of_lt hlt]
        omega
      exact Waits.cons hstep (ih hshared hworker (by simp [step, hworker]) hrest) rfl rfl rfl rfl

theorem waits_of_popped (hshared : s.shared = false) {msg : Message}
    (hworker : s.worker = .popped msg) : s.Waits := by
  cases msg with
  | nil =>
    have hstep : s.step .test = .ok (s.complete [] []) := by simp [step, hworker]
    exact (waits_of_waiting rfl).cons hstep rfl rfl rfl rfl
  | cons c cs =>
    have hstep : s.step .test = .ok { s with worker := .visiting (c :: cs) [] 0 } := by
      simp [step, hworker]
    exact Waits.cons hstep (waits_of_visiting hshared rfl) rfl rfl rfl rfl

/-- The worker empties the queue and returns, and `~Subject` after it. -/
theorem returns_of_waiting (hworker : s.worker = .waiting) (hshared : s.shared = false)
    (hshutdown : s.shutdown_ = true) (hdestructor : s.destructor = .joining) :
    ∃ actions t, run step s actions = .ok t ∧ t.destructor = .returned := by
  induction hqueue : s.notification_queue_ generalizing s with
  | nil =>
    refine ⟨[.wait, .join], { s with worker := .returned, destructor := .returned }, ?_, rfl⟩
    simp [run, step, wait, hworker, hqueue, hshutdown, hdestructor]
  | cons msg queue ih =>
    have hstep : s.step .wait =
        .ok { s with notification_queue_ := queue, worker := .popped msg } := by
      simp [step, wait, hworker, hqueue]
    have hwaits : Waits { s with notification_queue_ := queue, worker := .popped msg } :=
      waits_of_popped hshared rfl
    obtain ⟨actions, t, ht, htworker, htqueue, htshared, htshutdown, htdestructor⟩ := hwaits
    obtain ⟨rest, u, hu, hreturned⟩ := ih htworker (htshared.trans hshared)
      (htshutdown.trans hshutdown) (htdestructor.trans hdestructor) htqueue
    exact ⟨.wait :: (actions ++ rest), u,
      run_cons_ok.2 ⟨_, hstep, run_append_ok.2 ⟨t, ht, hu⟩⟩, hreturned⟩

theorem returns_of_joining (hworker : ∀ msg passed it, s.worker ≠ .updating msg passed it)
    (hshared : s.shared = false) (hshutdown : s.shutdown_ = true)
    (hdestructor : s.destructor = .joining) :
    ∃ actions t, run step s actions = .ok t ∧ t.destructor = .returned := by
  have hwaits : s.Waits → ∃ actions t, run step s actions = .ok t ∧ t.destructor = .returned := by
    rintro ⟨actions, t, ht, htworker, -, htshared, htshutdown, htdestructor⟩
    obtain ⟨rest, u, hu, hreturned⟩ := returns_of_waiting htworker (htshared.trans hshared)
      (htshutdown.trans hshutdown) (htdestructor.trans hdestructor)
    exact ⟨actions ++ rest, u, run_append_ok.2 ⟨t, ht, hu⟩, hreturned⟩
  cases hpc : s.worker with
  | waiting => exact hwaits (waits_of_waiting hpc)
  | popped msg => exact hwaits (waits_of_popped hshared hpc)
  | visiting msg passed it => exact hwaits (waits_of_visiting hshared hpc)
  | updating msg passed it => exact absurd hpc (hworker msg passed it)
  | returned =>
    refine ⟨[.join], { s with destructor := .returned }, ?_, rfl⟩
    simp [run, step, hpc, hdestructor]

/-- **`~Subject` can return** when it has been entered on another thread than the worker. -/
theorem Released.returns (hs : s.Released r) (hdestructor : s.destructor = .entered) :
    ∃ actions t, run Subject.step s actions = .ok t ∧ t.destructor = .returned := by
  have hstep : s.step .shutdown = .ok { s with shutdown_ := true, destructor := .joining } := by
    simp [Subject.step, hdestructor]
  obtain ⟨actions, t, ht, hreturned⟩ :=
    returns_of_joining (s := { s with shutdown_ := true, destructor := .joining }) hs.worker hs.shared
      rfl rfl
  exact ⟨.shutdown :: actions, t, run_cons_ok.2 ⟨_, hstep, ht⟩, hreturned⟩

/-! ## The release -/

/-- The release of the last `shared_ptr` outside of the worker, which is not inside `update`. -/
theorem release_released (hs : s.Ordered) (hmutex : s.msg_mutex_ = none) (hshared : s.shared = true)
    (hworker : ∀ msg passed it, s.worker ≠ .updating msg passed it)
    (hreturned : s.worker ≠ .returned) :
    s.step .release = .ok s.release ∧ s.release.Released s.rounds ∧
      s.release.destructor = .entered := by
  have hrelease : s.release = { s with shared := false, destructor := .entered } := by
    unfold release
    split
    next msg passed it hupdating => exact absurd hupdating (hworker msg passed it)
    next => rfl
  refine ⟨by simp [step, hshared, hmutex], ?_, by rw [hrelease]⟩
  rw [hrelease]
  refine ⟨rfl, fun i => ?_, hworker, rfl, fun h => absurd h hreturned,
    DestructorPc.noConfusion⟩
  by_contra hi
  exact Option.some_ne_none i ((hs.holder i hi).symm.trans hmutex)

/-- The worker does not return as long as the subject is shared. -/
structure Running (s : Subject τ ο κ) : Prop where
  worker : s.worker ≠ .returned
  destructor : s.destructor = .idle
  shutdown : s.shutdown_ = false

theorem Running.step (hs : s.Running) {a : Action τ} (h : s.step a = .ok t)
    (hshared : t.shared = true) : t.Running := by
  cases step_ok h with
  | stay => exact hs
  | release =>
    obtain ⟨pc, hrelease⟩ := s.release_eq
    rw [hrelease] at hshared
    cases hshared
  | finish hworker hqueue hshutdown => cases hs.shutdown.symm.trans hshutdown
  | shutdown hdestructor | join hdestructor =>
    cases hs.destructor.symm.trans hdestructor
  | lock | store | notify | unlock | erase => exact ⟨hs.worker, hs.destructor, hs.shutdown⟩
  | take | skip | attend | finished | pass | throws | leave =>
    exact ⟨by simp [complete], hs.destructor, hs.shutdown⟩

variable [DecidableEq σ]

theorem run_running {w : Registrations σ ο κ} {subject : σ} {live : ο → Bool}
    {actions : List (Action τ)} (h : run step (start w subject live) actions = .ok s)
    (hshared : s.shared = true) : s.Running :=
  invariant (I := fun s => s.shared = true → s.Running)
    (fun _ _ _ hs ht hshared => (hs (shared_of_step ht hshared)).step ht hshared)
    (fun _ => ⟨by simp [start], rfl, rfl⟩) h hshared

/-- **The teardown of a subject, exactly**: however the last `shared_ptr` outside of the worker is
released and the threads go on, the worker does not join itself and every message that was created
before and is not empty has been passed to every observer that is alive when `~Subject` has returned,
if and only if the worker had nothing left to pass on at the release. -/
theorem teardown_iff {w : Registrations σ ο κ} {subject : σ} {live : ο → Bool}
    {before : List (Action τ)} (hs : run step (start w subject live) before = .ok s)
    (hshared : s.shared = true) (hmutex : s.msg_mutex_ = none) :
    (∀ after, ∃ t, run step s (.release :: after) = .ok t ∧
        (t.destructor = .returned → s.Delivered t)) ↔ s.Quiet := by
  have hordered := run_ordered hs
  have hattentive := run_attentive hs hshared
  by_cases hworker : ∀ msg passed it, s.worker ≠ .updating msg passed it
  · obtain ⟨hrelease, hreleased, hentered⟩ := release_released hordered hmutex hshared hworker
      (run_running hs hshared).worker
    have hdelivered {after : List (Action τ)} {t : Subject τ ο κ}
        (ht : run step s (.release :: after) = .ok t) (hreturned : t.destructor = .returned) :
        s.Delivered t ↔ s.Quiet := by
      obtain ⟨u, hu, ht⟩ := run_cons_ok.1 ht
      obtain rfl := Except.ok.inj (hrelease.symm.trans hu)
      obtain ⟨t', ht', hreleased'⟩ := progress (fun _ a hs => hs.step a) hreleased after
      obtain rfl := Except.ok.inj (ht.symm.trans ht')
      rw [← hattentive.enough_iff hworker,
        hordered.enough_iff hmutex (hreleased'.completed hreturned)]
    constructor
    · intro h
      obtain ⟨after, t, ht, hreturned⟩ := hreleased.returns hentered
      have hrun := run_cons_ok.2 ⟨_, hrelease, ht⟩
      obtain ⟨t', ht', hall⟩ := h after
      obtain rfl := Except.ok.inj (hrun.symm.trans ht')
      exact (hdelivered hrun hreturned).1 (hall hreturned)
    · intro hquiet after
      obtain ⟨t, ht, -⟩ := progress (fun _ a hs => hs.step a) hreleased after
      have hrun := run_cons_ok.2 ⟨_, hrelease, ht⟩
      exact ⟨t, hrun, fun hreturned => (hdelivered hrun hreturned).2 hquiet⟩
  · -- the worker is inside `update`, and destroys the subject itself
    refine iff_of_false (fun h => ?_) fun hquiet => hworker hquiet.1
    obtain ⟨msg, passed, it, hupdating⟩ : ∃ msg passed it, s.worker = .updating msg passed it := by
      simpa using hworker
    obtain ⟨t, ht, -⟩ := h [.leave false]
    simp [run, step, hshared, hmutex, release, hupdating, leave] at ht

/-- A subject with one observer. -/
def single : Subject Unit Unit ℕ := start (Registrations.empty.setCallback () () 7) () fun _ => true

/-- The last `shared_ptr` is released when the message has been delivered. -/
theorem teardown_iff_delivered : ∃ s : Subject Unit Unit ℕ,
    run step single [.lock () ['a'], .store (), .notify (), .unlock (), .wait, .test, .visit,
      .leave false, .visit] = .ok s ∧
    ((∀ after, ∃ t, run step s (.release :: after) = .ok t ∧
      (t.destructor = .returned → s.Delivered t)) ↔ s.Quiet) := by
  have hrun : (run step single [.lock () ['a'], .store (), .notify (), .unlock (), .wait, .test,
      .visit, .leave false, .visit]).map (fun s => (s.shared, s.msg_mutex_)) = .ok (true, none) := by
    decide
  obtain ⟨s, hs, hview⟩ := exists_of_map hrun
  obtain ⟨hshared, hmutex⟩ := Prod.mk.inj hview
  exact ⟨s, hs, teardown_iff hs hshared hmutex⟩

/-- The last `shared_ptr` outside of the worker is released while the worker is inside `update`. -/
theorem not_torn_down_updating : ¬∀ (before after : List (Action Unit)) (s : Subject Unit Unit ℕ),
    run step single before = .ok s → s.shared = true → s.msg_mutex_ = none →
    ∃ t, run step s (.release :: after) = .ok t ∧ (t.destructor = .returned → s.Delivered t) := by
  intro h
  have hrun : (run step single [.lock () ['a'], .store (), .notify (), .unlock (), .wait, .test,
      .visit]).map (fun s => (s.shared, s.msg_mutex_)) = .ok (true, none) := by
    decide
  have hjoins : (run step single ([.lock () ['a'], .store (), .notify (), .unlock (), .wait, .test,
      .visit] ++ [.release, .leave false])).isOk = false := by
    decide
  obtain ⟨s, hs, hview⟩ := exists_of_map hrun
  obtain ⟨hshared, hmutex⟩ := Prod.mk.inj hview
  obtain ⟨t, ht, -⟩ := h _ [.leave false] s hs hshared hmutex
  rw [run_append_ok.2 ⟨s, hs, ht⟩] at hjoins
  cases hjoins

end Muduo.DesignPattern.Subject
