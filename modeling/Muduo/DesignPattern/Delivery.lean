import Mathlib.Data.List.InsertIdx
import Muduo.DesignPattern.Registration
import Muduo.DesignPattern.Subject

/-!
# The delivery of messages

`create_message` keeps `msg_mutex_` until its message is in the queue, so that messages are queued
and delivered in the order in which they acquired it. `Ordered` accounts for all of them: a message
is delivered, in delivery, in the queue, or in the hands of the thread that holds the mutex. As long
as there is a `shared_ptr` outside of the worker, every message but an empty one is passed to every
observer that is alive (`Attentive`); the worker takes an empty message for no message.
-/

namespace Muduo.DesignPattern.Subject

open Run

variable {σ τ ο κ : Type} {s t : Subject τ ο κ}

/-! ## The order of the messages -/

/-- Only one thread creates a message at a time, and no message is lost. -/
structure Ordered (s : Subject τ ο κ) : Prop where
  holder : ∀ t, s.thread t ≠ .idle → s.msg_mutex_ = some t
  account : s.completed.map (·.1) ++ s.inDelivery ++ s.notification_queue_ ++ s.unqueued = s.acquired

/-- The worker moves on with the messages. -/
theorem Ordered.moves (hs : s.Ordered) (hthread : t.thread = s.thread)
    (hmutex : t.msg_mutex_ = s.msg_mutex_) (hcurrent : t.current_message_ = s.current_message_)
    (hacquired : t.acquired = s.acquired)
    (haccount : t.completed.map (·.1) ++ t.inDelivery ++ t.notification_queue_ =
      s.completed.map (·.1) ++ s.inDelivery ++ s.notification_queue_) : t.Ordered := by
  have hunqueued : t.unqueued = s.unqueued := by
    unfold unqueued
    rw [hthread, hmutex, hcurrent]
  refine ⟨fun i hi => ?_, ?_⟩
  · rw [hmutex]
    exact hs.holder i (hthread ▸ hi)
  · rw [haccount, hunqueued, hacquired, hs.account]

/-- No other thread than the one that holds the mutex is inside `create_message`. -/
theorem Ordered.others (hs : s.Ordered) {i : τ} (hholder : s.msg_mutex_ = none ∨ s.msg_mutex_ = some i)
    {j : τ} (hji : j ≠ i) : s.thread j = .idle := by
  by_contra hj
  have hmutex := hs.holder j hj
  rcases hholder with hholder | hholder
  · exact Option.some_ne_none j (hmutex.symm.trans hholder)
  · exact hji (Option.some.inj (hmutex.symm.trans hholder))

/-! ## What the worker passes on -/

/-- The place of the worker in the list: it has passed its message to all observers before it. -/
def Passing (s : Subject τ ο κ) : Prop :=
  match s.worker with
  | .visiting msg passed it =>
    msg ≠ [] ∧ passed = s.observers_.take it ∧ ∀ observer ∈ passed, s.live observer = true
  | .updating msg passed it =>
    msg ≠ [] ∧ passed = s.observers_.take (it + 1) ∧ ∀ observer ∈ passed, s.live observer = true
  | _ => True

/-- As long as there is a `shared_ptr` outside of the worker, every message that is not empty is
passed to all of the observers `live`. -/
structure Attentive (live : List ο) (s : Subject τ ο κ) : Prop where
  observers : s.observers_.filter s.live = live
  passing : s.Passing
  rounds : ∀ r ∈ s.completed, r.2 = if r.1 = [] then [] else live

variable {live : List ο}

/-- Nothing that the invariant speaks of changes. -/
theorem Attentive.same (hs : s.Attentive live) (hobservers : t.observers_ = s.observers_)
    (hlive : t.live = s.live) (hworker : t.worker = s.worker) (hcompleted : t.completed = s.completed) :
    t.Attentive live := by
  refine ⟨?_, ?_, hcompleted ▸ hs.rounds⟩
  · rw [hobservers, hlive, hs.observers]
  · have hpassing := hs.passing
    unfold Passing at hpassing ⊢
    rw [hworker, hobservers, hlive]
    exact hpassing

/-- The worker is done with a message. -/
theorem Attentive.complete (hs : s.Attentive live) {msg : Message} {passed : List ο}
    (hpassed : passed = if msg = [] then [] else live) : (s.complete msg passed).Attentive live := by
  refine ⟨hs.observers, trivial, fun r hr => ?_⟩
  rcases List.mem_append.1 hr with hr | hr
  · exact hs.rounds r hr
  · obtain rfl := List.mem_singleton.1 hr
    exact hpassed

theorem filter_eraseIdx {α : Type} {p : α → Bool} {l : List α} {i : ℕ} {x : α} (h : l[i]? = some x)
    (hx : p x = false) : (l.eraseIdx i).filter p = l.filter p := by
  induction l generalizing i with
  | nil => cases h
  | cons y l ih =>
    cases i with
    | zero =>
      obtain rfl := Option.some.inj h
      simp [hx]
    | succ i => rw [List.eraseIdx_cons_succ, List.filter_cons, List.filter_cons, ih h]

/-! ## Steps -/

variable [DecidableEq τ]

/-- The thread that holds the mutex, or acquires it, moves on. -/
theorem Ordered.enters (hs : s.Ordered) {u : Subject τ ο κ} {i : τ} {pc : Pc}
    (hholder : s.msg_mutex_ = none ∨ s.msg_mutex_ = some i) (hthread : u.thread = s.thread)
    (hmutex : pc = .idle ∨ u.msg_mutex_ = some i)
    (haccount : (u.enter i pc).completed.map (·.1) ++ (u.enter i pc).inDelivery ++
      (u.enter i pc).notification_queue_ ++ (u.enter i pc).unqueued = (u.enter i pc).acquired) :
    (u.enter i pc).Ordered := by
  refine ⟨fun j hj => ?_, haccount⟩
  by_cases hji : j = i
  · subst hji
    refine hmutex.resolve_left fun hidle => hj ?_
    simp [enter, hidle]
  · have hne : s.thread j ≠ .idle := by simpa [enter, hji, hthread] using hj
    exact absurd (hs.others hholder hji) hne

/-- **A step** keeps the messages in order. -/
theorem Ordered.step (hs : s.Ordered) {a : Action τ} (h : s.step a = .ok t) : t.Ordered := by
  have haccount := hs.account
  cases step_ok h with
  | stay => exact hs
  | lock i msg hshared hmutex =>
    refine hs.enters (.inl hmutex) rfl (.inr rfl) ?_
    rw [← haccount]
    simp [enter, unqueued, inDelivery, hmutex]
  | store i msg hi =>
    have hholder := hs.holder i (by simp [hi])
    refine hs.enters (.inr hholder) rfl (.inr hholder) ?_
    simpa [enter, unqueued, inDelivery, hholder, hi] using haccount
  | notify i hi =>
    have hholder := hs.holder i (by simp [hi])
    refine hs.enters (.inr hholder) rfl (.inr hholder) ?_
    simpa [enter, unqueued, inDelivery, hholder, hi] using haccount
  | unlock i hi =>
    have hholder := hs.holder i (by simp [hi])
    refine hs.enters (.inr hholder) rfl (.inl rfl) ?_
    simpa [enter, unqueued, inDelivery, hholder, hi] using haccount
  | take msg queue hworker hqueue =>
    refine hs.moves rfl rfl rfl rfl ?_
    simp [inDelivery, hworker, hqueue]
  | finish hworker => exact hs.moves rfl rfl rfl rfl (by simp [inDelivery, hworker])
  | skip hworker => exact hs.moves rfl rfl rfl rfl (by simp [inDelivery, complete, hworker])
  | attend msg hmsg hworker => exact hs.moves rfl rfl rfl rfl (by simp [inDelivery, hworker])
  | finished msg passed it hworker =>
    exact hs.moves rfl rfl rfl rfl (by simp [inDelivery, complete, hworker])
  | pass msg passed it observer hworker | throws msg passed it observer hworker =>
    exact hs.moves rfl rfl rfl rfl (by simp [inDelivery, hworker])
  | erase => exact hs.moves rfl rfl rfl rfl rfl
  | leave msg passed it hworker => exact hs.moves rfl rfl rfl rfl (by simp [inDelivery, hworker])
  | release =>
    obtain ⟨pc, hrelease⟩ := s.release_eq
    rw [hrelease]
    exact hs.moves rfl rfl rfl rfl rfl
  | shutdown | join => exact hs.moves rfl rfl rfl rfl rfl

/-- **A step** of a subject that is shared afterwards. -/
theorem Attentive.step (hs : s.Attentive live) {a : Action τ} (h : s.step a = .ok t)
    (hshared : t.shared = true) : t.Attentive live := by
  have hpassing := hs.passing
  cases step_ok h with
  | stay => exact hs
  | lock | store | notify | unlock | shutdown | join => exact hs.same rfl rfl rfl rfl
  | release =>
    obtain ⟨pc, hrelease⟩ := s.release_eq
    rw [hrelease] at hshared
    cases hshared
  | take | finish => exact ⟨hs.observers, trivial, hs.rounds⟩
  | skip => exact hs.complete rfl
  | attend msg hmsg hworker => exact ⟨hs.observers, ⟨hmsg, rfl, by simp⟩, hs.rounds⟩
  | finished msg passed it hworker hit =>
    simp only [Passing, hworker] at hpassing
    obtain ⟨hmsg, hpassed, hlive⟩ := hpassing
    refine hs.complete ?_
    rw [List.take_of_length_le hit] at hpassed
    rw [if_neg hmsg, ← hs.observers, hpassed, List.filter_eq_self.2 (hpassed ▸ hlive)]
  | pass msg passed it observer hworker hit hlive =>
    simp only [Passing, hworker] at hpassing
    obtain ⟨hmsg, hpassed, hall⟩ := hpassing
    refine ⟨hs.observers, ⟨hmsg, ?_, ?_⟩, hs.rounds⟩
    · rw [List.take_add_one, hit, hpassed]
      rfl
    · simpa [or_imp, forall_and, hlive] using hall
  | throws msg passed it observer hworker hit hnot => cases hnot.symm.trans hshared
  | erase msg passed it observer hworker hit hdead =>
    have hobservers := (filter_eraseIdx hit hdead).trans hs.observers
    refine ⟨hobservers, ?_, hs.rounds⟩
    simp only [Passing, hworker] at hpassing ⊢
    rwa [List.take_eraseIdx_eq_take_of_le _ _ _ (Nat.le_refl it)]
  | leave msg passed it hworker =>
    simp only [Passing, hworker] at hpassing
    exact ⟨hs.observers, hpassing, hs.rounds⟩

/-! ## Runs -/

/-- A subject that is shared has been shared before. -/
theorem shared_of_step {a : Action τ} (h : s.step a = .ok t) (hshared : t.shared = true) :
    s.shared = true := by
  cases step_ok h with
  | release hs => exact hs
  | _ => exact hshared

theorem step_frame {a : Action τ} (h : s.step a = .ok t) :
    t.live = s.live ∧ t.callback = s.callback := by
  cases step_ok h with
  | release =>
    obtain ⟨pc, hrelease⟩ := s.release_eq
    rw [hrelease]
    exact ⟨rfl, rfl⟩
  | _ => exact ⟨rfl, rfl⟩

variable [DecidableEq σ]

theorem run_ordered {w : Registrations σ ο κ} {subject : σ} {live : ο → Bool}
    {actions : List (Action τ)} (h : run step (start w subject live) actions = .ok s) : s.Ordered :=
  invariant (fun _ _ _ hs ht => hs.step ht) ⟨fun _ hi => absurd rfl hi, rfl⟩ h

theorem run_frame {w : Registrations σ ο κ} {subject : σ} {live : ο → Bool}
    {actions : List (Action τ)} (h : run step (start w subject live) actions = .ok s) :
    s.live = live ∧ s.callback = fun o => w.update o subject :=
  invariant (I := fun s => s.live = live ∧ s.callback = fun o => w.update o subject)
    (fun _ _ _ hs ht => ⟨(step_frame ht).1.trans hs.1, (step_frame ht).2.trans hs.2⟩) ⟨rfl, rfl⟩ h

theorem run_attentive {w : Registrations σ ο κ} {subject : σ} {live : ο → Bool}
    {actions : List (Action τ)} (h : run step (start w subject live) actions = .ok s)
    (hshared : s.shared = true) : s.Attentive ((w.observers_ subject).filter live) := by
  refine invariant (I := fun s => s.shared = true → s.Attentive ((w.observers_ subject).filter live))
    (fun _ _ _ hs ht hshared => (hs (shared_of_step ht hshared)).step ht hshared) (fun _ => ?_) h
    hshared
  exact ⟨rfl, trivial, by simp [start]⟩

variable [DecidableEq ο]

/-- **Every message is delivered in order, once**: let any threads create messages of a subject whose
observers have been registered once and stay alive. The messages delivered, the message in delivery,
those in the queue and the one about to be queued are the messages created, in the order in which
`create_message` acquired `msg_mutex_`. A message that has been delivered and is not empty has called
the callback of every registered observer exactly once, whatever the callbacks throw. An empty
message calls none. -/
theorem delivery {setup : List (Registrations.Action σ ο κ)} {w : Registrations σ ο κ} {subject : σ}
    {actions : List (Action τ)} (hsetup : run Registrations.step .empty setup = .ok w)
    (honce : Along Registrations.step Registrations.Orderly .empty setup)
    (h : run step (start w subject fun _ => true) actions = .ok s) (hshared : s.shared = true) :
    s.completed.map (·.1) ++ s.inDelivery ++ s.notification_queue_ ++ s.unqueued = s.acquired ∧
      ∀ msg passed, (msg, passed) ∈ s.completed → ∀ observer, s.calls passed observer =
        if msg = [] then [] else (w.update observer subject).toList := by
  refine ⟨(run_ordered h).account, fun msg passed hmem observer => ?_⟩
  have hpassed := (run_attentive h hshared).rounds _ hmem
  rw [List.filter_true] at hpassed
  simp only at hpassed
  have hcallback := (run_frame h).2
  rw [calls, hpassed, hcallback]
  split
  next => rfl
  next =>
    have hcovered : (Registrations.empty : Registrations σ ο κ).Covered :=
      fun _ _ h => absurd h List.not_mem_nil
    obtain ⟨w', hw', hconsistent⟩ := (Registrations.consistent_run hcovered setup).2
      ⟨fun _ _ => rfl, honce⟩
    obtain rfl := Except.ok.inj (hsetup.symm.trans hw')
    exact hconsistent.invoked subject observer

/-- A message is delivered to its observer, whose callback throws. -/
theorem delivery_letter : ∃ (w : Registrations Unit Unit ℕ) (s : Subject Unit Unit ℕ),
    run Registrations.step .empty [.setCallback () () 7] = .ok w ∧
    run step (start w () fun _ => true) [.lock () ['a'], .store (), .notify (), .unlock (), .wait,
      .test, .visit, .leave true, .visit] = .ok s ∧
    ∀ msg passed, (msg, passed) ∈ s.completed → ∀ observer, s.calls passed observer =
      if msg = [] then [] else (w.update observer ()).toList := by
  have hsetup : run Registrations.step (.empty : Registrations Unit Unit ℕ)
      [.setCallback () () 7] = .ok (Registrations.empty.setCallback () () 7) := rfl
  have hrun : (run step (start (Registrations.empty.setCallback () () 7) () fun _ => true :
      Subject Unit Unit ℕ) [.lock () ['a'], .store (), .notify (), .unlock (), .wait, .test, .visit,
        .leave true, .visit]).map (fun s => s.shared) = .ok true := by
    decide
  obtain ⟨s, hs, hshared⟩ := exists_of_map hrun
  exact ⟨_, s, hsetup, hs, (delivery hsetup (by decide) hs hshared).2⟩

/-- An empty message calls nobody. -/
theorem not_delivered_empty : ¬∀ (setup : List (Registrations.Action Unit Unit ℕ))
    (w : Registrations Unit Unit ℕ) (actions : List (Action Unit)) (s : Subject Unit Unit ℕ),
    run Registrations.step .empty setup = .ok w →
    Along Registrations.step Registrations.Orderly .empty setup →
    run step (start w () fun _ => true) actions = .ok s → s.shared = true →
    ∀ msg passed, (msg, passed) ∈ s.completed → ∀ observer, s.calls passed observer =
      (w.update observer ()).toList := by
  intro h
  have hrun : (run step (start (Registrations.empty.setCallback () () 7) () fun _ => true :
      Subject Unit Unit ℕ) [.lock () [], .store (), .notify (), .unlock (), .wait, .test]).map
        (fun s => (s.shared, s.completed)) = .ok (true, [([], [])]) := by
    decide
  obtain ⟨s, hs, hview⟩ := exists_of_map hrun
  obtain ⟨hshared, hcompleted⟩ := Prod.mk.inj hview
  have hcalls := h [.setCallback () () 7] _ _ s rfl (by decide) hs hshared [] []
    (by simp [hcompleted]) ()
  cases hcalls

end Muduo.DesignPattern.Subject
