import Muduo.TcpServer.Script

/-!
# Whether the start returns

`startLoop` waits until `loop_` is not null. `threadFunc` stores it before its loop runs, and clears
it when the loop has returned, with `mutex_` locked from before the one to behind the other. So a loop
that is quit before `startLoop` has looked, say by a functor that the `ThreadInitCallback` has queued,
leaves `startLoop` to wait for a `loop_` that has come and gone (`Missed`). `start_returns` says that
the thread in `TcpServer::start` then waits for ever, and that in every other state it can be brought
to return by what the threads are inside of.
-/

namespace Muduo

open Run

variable {φ τ : Type}

namespace EventLoopThread

/-- `threadFunc` has locked `mutex_` behind the loop, or has come further. -/
def Over (e : EventLoopThread φ τ) : Prop :=
  e.func = .locked ∨ e.func = .cleared ∨ e.func = .unlocked ∨ e.func = .ended

/-- The thread has been started, and `startLoop` has not returned. -/
structure Awaited (e : EventLoopThread φ τ) : Prop where
  framed : e.Framed
  started : e.started = false
  absent : e.destructor = .absent
  begun : e.func ≠ .idle

theorem Awaited.func_eq {e : EventLoopThread φ τ} (he : e.Awaited) (hover : ¬e.Over) :
    e.func = .callback ∨ e.func = .published := by
  cases hfunc : e.func with
  | idle => exact absurd hfunc he.begun
  | callback => exact .inl rfl
  | published => exact .inr rfl
  | locked | cleared | unlocked | ended => exact absurd (by simp [Over, hfunc]) hover

end EventLoopThread

namespace Startup

/-- The thread waits in `startLoop` for a `loop_` that has come and gone. -/
def Missed (s : Startup φ τ) (t : τ) : Prop :=
  ∃ i n e, s.place t = .waiting i n ∧ s.threads_[n]? = some e ∧ e.Over

/-- A step with which a thread goes on with the start, with the storing of `loop_`, or with a call
that it is in. -/
def Action.Onward : Action φ τ → Prop
  | test _ _ | startLoop _ | leaveCallback _ | runInLoop _ _ | callback _ | thread _ .publish
  | thread _ (.on (.wakeQueued _)) | thread _ (.on (.wakeQuit _)) | base (.wakeQueued _) _
  | base (.wakeQuit _) _ => True
  | _ => False

/-- Every thread that waits in `startLoop` waits for a thread of its own, which has been started. -/
structure Waits (s : Startup φ τ) : Prop where
  agrees : Agrees s.poller () s.acceptChannel_
  awaited : ∀ t i n, s.place t = .waiting i n → ∃ e, s.threads_[n]? = some e ∧ e.Awaited
  distinct : ∀ t u i j n, s.place t = .waiting i n → s.place u = .waiting j n → t = u

theorem construct_waits (main : τ) (sockfd : ℕ) : (construct main sockfd : Startup φ τ).Waits :=
  ⟨rfl, fun _ _ _ h => Place.noConfusion h, fun _ _ _ _ _ h => Place.noConfusion h⟩

variable {s s' : Startup φ τ} {t u : τ} {i n : ℕ} {e e' : EventLoopThread φ τ}

theorem listen_keeps {listens : Bool} (h : s.listen t listens = .ok s') :
    s'.place = s.place ∧ s'.threads_ = s.threads_ ∧
      (Agrees s.poller () s.acceptChannel_ → Agrees s'.poller () s'.acceptChannel_) := by
  unfold listen at h
  split at h
  next =>
    obtain ⟨⟨poller, channel⟩, henable, h⟩ := bind_eq_ok.1 h
    obtain rfl := Except.ok.inj h
    refine ⟨rfl, rfl, fun hs => ?_⟩
    obtain ⟨p, hp, hagrees, -⟩ := watch_spec hs (s.acceptChannel_.events_ ||| Channel.kReadEvent)
    obtain ⟨rfl, rfl⟩ := Prod.mk.inj (Except.ok.inj (hp.symm.trans henable))
    exact hagrees
  next => cases h

variable [DecidableEq τ]

/-! ## The threads of the pool -/

theorem awaited_construct {id : τ} (h : (EventLoopThread.construct id).step .start = .ok e) :
    e.Awaited ∧ e.func = .callback := by
  obtain ⟨hframed, hfunc⟩ := start_construct h
  refine ⟨⟨hframed, ?_, ?_, by simp [hfunc]⟩, hfunc⟩
  all_goals
    obtain rfl := Except.ok.inj h
    rfl

/-- What a thread of the pool does by itself does not bring `startLoop` back, nor `loop_`. -/
theorem keeps_of_own {a : EventLoopThread.Action φ τ} (ha : Own a) (h : e.step a = .ok e') :
    e'.started = e.started ∧ e'.destructor = e.destructor ∧ (e.Over → e'.Over) := by
  cases a with
  | start | startLoop | destroy | call | quit | join => exact absurd ha id
  | publish =>
    obtain rfl := Except.ok.inj h
    split
    next hcallback => exact ⟨rfl, rfl, by simp [EventLoopThread.Over, hcallback]⟩
    next => exact ⟨rfl, rfl, id⟩
  | lock | clear | unlock | leave =>
    obtain rfl := Except.ok.inj h
    split
    next => exact ⟨rfl, rfl, fun _ => by simp [EventLoopThread.Over]⟩
    next => exact ⟨rfl, rfl, id⟩
  | on a =>
    rcases EventLoopThread.on_ok h with ⟨l, -, -, -, rfl⟩ | rfl
    · exact ⟨rfl, rfl, id⟩
    · exact ⟨rfl, rfl, id⟩

theorem awaited_own (he : e.Awaited) {a : EventLoopThread.Action φ τ} (ha : Own a)
    (h : e.step a = .ok e') : e'.Awaited ∧ (e.Over → e'.Over) := by
  obtain ⟨hstarted, hdestructor, hover⟩ := keeps_of_own ha h
  refine ⟨⟨he.framed.step h, hstarted.trans he.started, hdestructor.trans he.absent, ?_⟩, hover⟩
  rcases func_of_own ha h with hfunc | ⟨-, hfunc⟩ | ⟨-, hfunc⟩
  · exact hfunc ▸ he.begun
  · simp [hfunc]
  · exact hfunc.1

/-- `startLoop` does not see a `loop_` that has been cleared, or whose mutex is locked. -/
theorem startLoop_of_over (he : e.Awaited) (hover : e.Over) : e.step .startLoop = .ok e := by
  refine congrArg Except.ok (if_neg ?_)
  rintro ⟨hloop, hlocked, -⟩
  rcases he.framed.loop_.1 hloop with hfunc | hfunc
  · simp [EventLoopThread.Over, hfunc] at hover
  · exact hlocked hfunc

/-! ## The places of the threads -/

/-- What a step does to the places of the threads, and to the threads of the pool. -/
inductive Places (s s' : Startup φ τ) : Prop
  | rest (hplace : s'.place = s.place) (hthreads : s'.threads_ = s.threads_)
  /-- `t` goes on, and is not in `startLoop`. -/
  | moved (t : τ) (place : Place) (hplace : s'.place = Function.update s.place t place)
      (hfrom : ∀ i n, s.place t ≠ .waiting i n) (hto : ∀ i n, place ≠ .waiting i n)
      (hthreads : s'.threads_ = s.threads_)
  /-- `t` starts a thread, and waits for it. -/
  | begins (t id : τ) (i : ℕ) (e : EventLoopThread φ τ) (hfrom : s.place t = .testing i)
      (he : (EventLoopThread.construct id).step .start = .ok e)
      (hplace : s'.place = Function.update s.place t (.waiting i s.threads_.length))
      (hthreads : s'.threads_ = s.threads_ ++ [e])
  /-- `startLoop` returns. -/
  | ends (t : τ) (i n : ℕ) (e e' : EventLoopThread φ τ) (hfrom : s.place t = .waiting i n)
      (hget : s.threads_[n]? = some e) (he : e.step .startLoop = .ok e') (hstarted : e'.started = true)
      (hplace : s'.place = Function.update s.place t (.testing (i + 1)))
      (hthreads : s'.threads_ = s.threads_.set n e')
  /-- A thread of the pool steps. -/
  | thread (n : ℕ) (a : EventLoopThread.Action φ τ) (e e' : EventLoopThread φ τ) (ha : Own a)
      (hget : s.threads_[n]? = some e) (he : e.step a = .ok e') (hplace : s'.place = s.place)
      (hthreads : s'.threads_ = s.threads_.set n e')

/-- The places become those of a step, and what the poller holds of the acceptor stays right. -/
structure Goes (s s' : Startup φ τ) : Prop where
  places : Places s s'
  agrees : Agrees s.poller () s.acceptChannel_ → Agrees s'.poller () s'.acceptChannel_

theorem goes_rfl : Goes s s := ⟨.rest rfl rfl, id⟩

theorem start_goes (henabled : s.Enabled (.start t)) : Goes s (s.start t) := by
  unfold Startup.start
  split
  next hzero =>
    have houtside : s.place t = .outside := by
      rcases henabled.2 with houtside | ⟨-, hstarted⟩
      · exact houtside
      · exact absurd hzero hstarted
    exact ⟨.moved t (.testing 0) rfl (by simp [houtside]) (by simp) rfl, id⟩
  next => exact ⟨.rest rfl rfl, id⟩

theorem test_goes {threadId : τ} (hplace : s.place t = .testing i) (h : s.test t threadId i = .ok s') :
    Goes s s' := by
  have hfrom (j n : ℕ) : s.place t ≠ .waiting j n := by simp [hplace]
  unfold Startup.test at h
  split at h
  next =>
    obtain ⟨e, he, h⟩ := bind_eq_ok.1 h
    obtain rfl := Except.ok.inj h
    exact ⟨.begins t threadId i e hplace he rfl rfl, id⟩
  next =>
    split at h
    next =>
      obtain rfl := Except.ok.inj h
      exact ⟨.moved t .callback rfl hfrom (by simp) rfl, id⟩
    next =>
      obtain rfl := Except.ok.inj h
      exact ⟨.moved t .listening rfl hfrom (by simp) rfl, id⟩

theorem startLoop_goes (hplace : s.place t = .waiting i n) (h : s.startLoop t i n = .ok s') :
    Goes s s' := by
  unfold Startup.startLoop at h
  split at h
  next =>
    obtain rfl := Except.ok.inj h
    exact goes_rfl
  next e hget =>
    obtain ⟨e', he, h⟩ := bind_eq_ok.1 h
    obtain rfl := Except.ok.inj h
    split
    next hstarted => exact ⟨.ends t i n e e' hplace hget he hstarted rfl rfl, id⟩
    next => exact goes_rfl

theorem runInLoop_goes {listens : Bool} (hplace : s.place t = .listening)
    (h : s.runInLoop t listens = .ok s') : Goes s s' := by
  have hfrom (i n : ℕ) : s.place t ≠ .waiting i n := by simp [hplace]
  unfold Startup.runInLoop at h
  split at h
  next =>
    obtain ⟨hplace, hthreads, hagrees⟩ := listen_keeps h
    exact ⟨.moved t .outside hplace hfrom (by simp) hthreads, hagrees⟩
  next =>
    obtain rfl := Except.ok.inj h
    exact ⟨.moved t .outside rfl hfrom (by simp) rfl, id⟩

theorem thread_goes {a : EventLoopThread.Action φ τ} (ha : Own a) (h : s.thread n a = .ok s') :
    Goes s s' := by
  unfold Startup.thread at h
  split at h
  next =>
    obtain rfl := Except.ok.inj h
    exact goes_rfl
  next e hget =>
    obtain ⟨e', he, h⟩ := bind_eq_ok.1 h
    obtain rfl := Except.ok.inj h
    exact ⟨.thread n a e e' ha hget he rfl rfl, id⟩

theorem base_goes {a : LoopThread.Action (Job φ) τ} {listens : Bool}
    (h : s.base a listens = .ok s') : Goes s s' := by
  obtain ⟨l, -, h⟩ := bind_eq_ok.1 h
  simp only at h
  split at h
  · split at h
    · obtain ⟨hplace, hthreads, hagrees⟩ := listen_keeps h
      exact ⟨.rest hplace hthreads, hagrees⟩
    · obtain rfl := Except.ok.inj h
      exact ⟨.rest rfl rfl, id⟩
  · obtain rfl := Except.ok.inj h
    exact ⟨.rest rfl rfl, id⟩

/-- **The places** after a step. -/
theorem goes_of_step {a : Action φ τ} (h : s.step a = .ok s') : Goes s s' := by
  unfold Startup.step at h
  split at h
  next henabled =>
    cases a with
    | setThreadNum | setThreadInitcallback =>
      obtain rfl := Except.ok.inj h
      exact ⟨.rest rfl rfl, id⟩
    | start t =>
      obtain rfl := Except.ok.inj h
      exact start_goes henabled
    | test t threadId =>
      simp only [perform] at h
      split at h
      next i hplace => exact test_goes hplace h
      next =>
        obtain rfl := Except.ok.inj h
        exact goes_rfl
    | startLoop t =>
      simp only [perform] at h
      split at h
      next i n hplace => exact startLoop_goes hplace h
      next =>
        obtain rfl := Except.ok.inj h
        exact goes_rfl
    | leaveCallback t =>
      obtain rfl := Except.ok.inj h
      exact ⟨.moved t .listening rfl (by simp [henabled.1]) (by simp) rfl, id⟩
    | runInLoop t listens => exact runInLoop_goes henabled.1 h
    | callback n =>
      obtain rfl := Except.ok.inj h
      exact ⟨.rest rfl rfl, id⟩
    | thread n a => exact thread_goes henabled.1 h
    | base a listens => exact base_goes h
    | newConnection =>
      obtain ⟨⟨ioLoop, pool⟩, -, h⟩ := bind_eq_ok.1 h
      obtain rfl := Except.ok.inj h
      exact ⟨.rest rfl rfl, id⟩
  next =>
    obtain rfl := Except.ok.inj h
    exact goes_rfl

/-! ## The invariant -/

/-- A thread that waits after the update has waited before it, or is the one that has moved. -/
theorem waiting_of_update {place : Place}
    (h : Function.update s.place u place t = .waiting i n) :
    t = u ∧ place = .waiting i n ∨ t ≠ u ∧ s.place t = .waiting i n := by
  by_cases htu : t = u
  · subst htu
    rw [Function.update_self] at h
    exact .inl ⟨rfl, h⟩
  · rw [Function.update_of_ne htu] at h
    exact .inr ⟨htu, h⟩

/-- A thread that waits does so for a thread that has been started. -/
theorem Waits.awaited_step (hs : s.Waits) (hplaces : Places s s') (ht : s'.place t = .waiting i n) :
    ∃ e, s'.threads_[n]? = some e ∧ e.Awaited := by
  cases hplaces with
  | rest hplace hthreads => exact hthreads ▸ hs.awaited t i n (hplace ▸ ht)
  | moved u place hplace hfrom hto hthreads =>
    rcases waiting_of_update (hplace ▸ ht) with ⟨-, hmoved⟩ | ⟨-, ht⟩
    · exact absurd hmoved (hto i n)
    · exact hthreads ▸ hs.awaited t i n ht
  | begins u id j e hfrom he hplace hthreads =>
    rw [hthreads]
    rcases waiting_of_update (hplace ▸ ht) with ⟨-, hnew⟩ | ⟨-, ht⟩
    · obtain ⟨rfl, rfl⟩ := Place.waiting.inj hnew
      exact ⟨e, List.getElem?_concat_length, (awaited_construct he).1⟩
    · obtain ⟨f, hget, hf⟩ := hs.awaited t i n ht
      exact ⟨f, by rw [List.getElem?_append_left (List.getElem?_eq_some_iff.1 hget).1, hget], hf⟩
  | ends u j m e e' hfrom hget he hstarted hplace hthreads =>
    rw [hthreads]
    rcases waiting_of_update (hplace ▸ ht) with ⟨-, hback⟩ | ⟨htu, ht⟩
    · cases hback
    · obtain ⟨f, hget', hf⟩ := hs.awaited t i n ht
      have hm : m ≠ n := by
        rintro rfl
        exact htu (hs.distinct t u i j m ht hfrom)
      exact ⟨f, by rw [List.getElem?_set_ne hm, hget'], hf⟩
  | thread m a e e' ha hget he hplace hthreads =>
    rw [hthreads]
    obtain ⟨f, hget', hf⟩ := hs.awaited t i n (hplace ▸ ht)
    by_cases hm : m = n
    · subst hm
      obtain rfl := Option.some.inj (hget.symm.trans hget')
      have hlt := (List.getElem?_eq_some_iff.1 hget).1
      exact ⟨e', List.getElem?_set_self hlt, (awaited_own hf ha he).1⟩
    · exact ⟨f, by rw [List.getElem?_set_ne hm, hget'], hf⟩

/-- No two threads wait for one. -/
theorem Waits.distinct_step (hs : s.Waits) (hplaces : Places s s') {j : ℕ}
    (ht : s'.place t = .waiting i n) (hu : s'.place u = .waiting j n) : t = u := by
  -- a thread that has moved to elsewhere does not wait
  have hbefore {v x : τ} {k : ℕ} {place : Place} (hto : ∀ i n, place ≠ .waiting i n)
      (hx : Function.update s.place v place x = .waiting k n) : s.place x = .waiting k n := by
    rcases waiting_of_update hx with ⟨-, hmoved⟩ | ⟨-, hx⟩
    · exact absurd hmoved (hto k n)
    · exact hx
  cases hplaces with
  | rest hplace | thread _ _ _ _ _ _ _ hplace =>
    exact hs.distinct t u i j n (hplace ▸ ht) (hplace ▸ hu)
  | moved v place hplace hfrom hto =>
    rw [hplace] at ht hu
    exact hs.distinct t u i j n (hbefore hto ht) (hbefore hto hu)
  | ends v k m e e' hfrom hget he hstarted hplace =>
    rw [hplace] at ht hu
    exact hs.distinct t u i j n (hbefore (by simp) ht) (hbefore (by simp) hu)
  | begins v id k e hfrom he hplace =>
    rw [hplace] at ht hu
    -- what was waited for before is not the new thread
    have hold {x : τ} {k : ℕ} (hx : s.place x = .waiting k n) : n ≠ s.threads_.length := by
      obtain ⟨f, hget, -⟩ := hs.awaited x k n hx
      exact Nat.ne_of_lt (List.getElem?_eq_some_iff.1 hget).1
    rcases waiting_of_update ht with ⟨htv, hnew⟩ | ⟨-, ht⟩ <;>
      rcases waiting_of_update hu with ⟨huv, hnew'⟩ | ⟨-, hu⟩
    · exact htv.trans huv.symm
    · exact absurd (Place.waiting.inj hnew).2.symm (hold hu)
    · exact absurd (Place.waiting.inj hnew').2.symm (hold ht)
    · exact hs.distinct t u i j n ht hu

/-- **Every step keeps the invariant.** -/
theorem Waits.step (hs : s.Waits) {a : Action φ τ} (h : s.step a = .ok s') : s'.Waits := by
  obtain ⟨hplaces, hagrees⟩ := goes_of_step h
  exact ⟨hagrees hs.agrees, fun _ _ _ => hs.awaited_step hplaces,
    fun _ _ _ _ _ => hs.distinct_step hplaces⟩

/-! ## Waiting for ever -/

/-- **A step** of any thread leaves a thread waiting for what has come and gone. -/
theorem Missed.step (hs : s.Missed t) (hwaits : s.Waits) {a : Action φ τ}
    (h : s.step a = .ok s') : s'.Missed t := by
  obtain ⟨i, n, e, hplace, hget, hover⟩ := hs
  have he : e.Awaited := by
    obtain ⟨f, hget', hf⟩ := hwaits.awaited t i n hplace
    obtain rfl := Option.some.inj (hget.symm.trans hget')
    exact hf
  -- a thread that is elsewhere is another
  have hother {u : τ} {place : Place} (hu : s.place u ≠ .waiting i n) :
      Function.update s.place u place t = .waiting i n := by
    rw [Function.update_of_ne, hplace]
    rintro rfl
    exact hu hplace
  cases (goes_of_step h).places with
  | rest hplace' hthreads => exact ⟨i, n, e, hplace' ▸ hplace, hthreads ▸ hget, hover⟩
  | moved u place hplace' hfrom hto hthreads =>
    exact ⟨i, n, e, hplace' ▸ hother (hfrom i n), hthreads ▸ hget, hover⟩
  | begins u id j e' hfrom he' hplace' hthreads =>
    refine ⟨i, n, e, hplace' ▸ hother (by simp [hfrom]), ?_, hover⟩
    rw [hthreads, List.getElem?_append_left (List.getElem?_eq_some_iff.1 hget).1, hget]
  | ends u j m f f' hfrom hget' hf hstarted hplace' hthreads =>
    have hm : m ≠ n := by
      rintro rfl
      obtain rfl := Option.some.inj (hget.symm.trans hget')
      obtain rfl := Except.ok.inj ((startLoop_of_over he hover).symm.trans hf)
      exact Bool.noConfusion (he.started.symm.trans hstarted)
    refine ⟨i, n, e, hplace' ▸ hother ?_, ?_, hover⟩
    · rw [hfrom]
      exact fun heq => hm (Place.waiting.inj heq).2
    · rw [hthreads, List.getElem?_set_ne hm, hget]
  | thread m a f f' ha hget' hf hplace' hthreads =>
    by_cases hm : m = n
    · subst hm
      obtain rfl := Option.some.inj (hget.symm.trans hget')
      have hkeeps := (awaited_own he ha hf).2
      have hlt := (List.getElem?_eq_some_iff.1 hget).1
      refine ⟨i, m, f', hplace' ▸ hplace, ?_, hkeeps hover⟩
      rw [hthreads, List.getElem?_set_self hlt]
    · refine ⟨i, n, e, hplace' ▸ hplace, ?_, hover⟩
      rw [hthreads, List.getElem?_set_ne hm, hget]

/-! ## Going on -/

/-- The thread `t` can be brought to return by what the threads are inside of. -/
def Reaches (s : Startup φ τ) (t : τ) : Prop :=
  ∃ more u, (∀ a ∈ more, Action.Onward a) ∧ run step s more = .ok u ∧ u.place t = .outside

theorem Reaches.of_step {a : Action φ τ} (ha : a.Onward) (h : s.step a = .ok s')
    (hs : s'.Reaches t) : s.Reaches t := by
  obtain ⟨more, u, honward, hu, hplace⟩ := hs
  exact ⟨a :: more, u, List.forall_mem_cons.2 ⟨ha, honward⟩, run_cons_ok.2 ⟨s', h, hu⟩, hplace⟩

/-- A call on the loop of the server ends first. -/
theorem reaches_of_idle (h : ∀ l : LoopThread (Job φ) τ, l.thread t = .idle →
    Reaches { s with loop_ := l } t) : s.Reaches t := by
  cases hcall : s.loop_.thread t with
  | idle => exact h s.loop_ hcall
  | queueInLoop j =>
    have henabled : s.loop_.Enabled (.wakeQueued t) := ⟨j, hcall⟩
    have hstep : s.step (.base (.wakeQueued t) true) =
        .ok { s with loop_ := s.loop_.wakeQueued t } := by
      simp [step, Startup.Enabled, Permits, perform, base, LoopThread.step, henabled,
        LoopThread.perform]
    refine .of_step (a := .base (.wakeQueued t) true) trivial hstep (h _ ?_)
    obtain ⟨k, hk⟩ := s.loop_.wakeQueued_eq t
    rw [hk]
    exact Function.update_self ..
  | quit =>
    have henabled : s.loop_.Enabled (.wakeQuit t) := hcall
    have hstep : s.step (.base (.wakeQuit t) true) =
        .ok { s with loop_ := s.loop_.wakeQuit t } := by
      simp [step, Startup.Enabled, Permits, perform, base, LoopThread.step, henabled,
        LoopThread.perform]
    refine .of_step (a := .base (.wakeQuit t) true) trivial hstep (h _ ?_)
    obtain ⟨k, hk⟩ := s.loop_.wakeQuit_eq t
    rw [hk]
    exact Function.update_self ..

/-- The last step is `runInLoop`. -/
theorem reaches_of_listening (hagrees : Agrees s.poller () s.acceptChannel_)
    (hplace : s.place t = .listening) : s.Reaches t := by
  refine reaches_of_idle fun l hl => ?_
  have hrun : ∃ s', Startup.runInLoop { s with loop_ := l } t true = .ok s' ∧
      s'.place t = .outside := by
    unfold Startup.runInLoop
    split
    · obtain ⟨p, hp, -⟩ :=
        watch_spec hagrees (s.acceptChannel_.events_ ||| Channel.kReadEvent)
      refine ⟨_, bind_eq_ok.2 ⟨_, hp, rfl⟩, ?_⟩
      exact Function.update_self ..
    · exact ⟨_, rfl, Function.update_self ..⟩
  obtain ⟨s', hs', houtside⟩ := hrun
  have henabled : Startup.Enabled { s with loop_ := l } (.runInLoop t true) := ⟨hplace, hl⟩
  refine .of_step (a := .runInLoop t true) trivial ?_ ⟨[], s', by simp, rfl, houtside⟩
  exact (if_pos henabled).trans hs'

theorem reaches_of_callback (hagrees : Agrees s.poller () s.acceptChannel_)
    (hplace : s.place t = .callback) : s.Reaches t := by
  refine reaches_of_idle fun l hl => ?_
  have henabled : Startup.Enabled { s with loop_ := l } (.leaveCallback t) := ⟨hplace, hl⟩
  refine .of_step (a := .leaveCallback t) trivial (if_pos henabled) ?_
  exact reaches_of_listening hagrees (Function.update_self ..)

/-- A thread of the pool steps. -/
theorem exists_thread {a : EventLoopThread.Action φ τ} (ha : Own a) (hentered : s.entered n = true)
    (hget : s.threads_[n]? = some e) (he : e.step a = .ok e') :
    ∃ s', s.step (.thread n a) = .ok s' ∧ s'.place = s.place ∧ s'.entered = s.entered ∧
      s'.threads_[n]? = some e' ∧ s'.numThreads_ = s.numThreads_ ∧
      (Agrees s.poller () s.acceptChannel_ → Agrees s'.poller () s'.acceptChannel_) := by
  have hstep : s.step (.thread n a) = s.thread n a := if_pos ⟨ha, hentered⟩
  have hlt := (List.getElem?_eq_some_iff.1 hget).1
  simp only [hstep, Startup.thread, hget, he, ok_bind]
  exact ⟨_, rfl, rfl, rfl, List.getElem?_set_self hlt, rfl, id⟩

/-- A thread of the pool is in no call on its loop, or ends it. -/
theorem free_or_exists (he : e.Alive) : e.loop.Free ∨
    ∃ a l, (∀ n : ℕ, Action.Onward (.thread n (.on a) : Action φ τ)) ∧
      e.step (.on a) = .ok { e with loop := l } ∧ l.Free := by
  cases hcall : e.loop.thread e.loop.threadId_ with
  | idle => exact .inl hcall
  | queueInLoop j =>
    have henabled : e.loop.Enabled (.wakeQueued e.loop.threadId_) := ⟨j, hcall⟩
    refine .inr ⟨.wakeQueued e.loop.threadId_, e.loop.wakeQueued e.loop.threadId_,
      fun _ => trivial, ?_, ?_⟩
    · simp [EventLoopThread.step, EventLoopThread.on, he, EventLoopThread.Permits, LoopThread.step,
        henabled, LoopThread.perform]
    · obtain ⟨k, hk⟩ := e.loop.wakeQueued_eq e.loop.threadId_
      rw [hk]
      exact Function.update_self ..
  | quit =>
    have henabled : e.loop.Enabled (.wakeQuit e.loop.threadId_) := hcall
    refine .inr ⟨.wakeQuit e.loop.threadId_, e.loop.wakeQuit e.loop.threadId_,
      fun _ => trivial, ?_, ?_⟩
    · simp [EventLoopThread.step, EventLoopThread.on, he, EventLoopThread.Permits, LoopThread.step,
        henabled, LoopThread.perform]
    · obtain ⟨k, hk⟩ := e.loop.wakeQuit_eq e.loop.threadId_
      rw [hk]
      exact Function.update_self ..

section

variable (hall : ∀ s' : Startup φ τ, Agrees s'.poller () s'.acceptChannel_ →
  s'.numThreads_ = s.numThreads_ → s'.place t = .testing (i + 1) → s'.Reaches t)

include hall

/-- `startLoop` sees a `loop_` that is stored. -/
theorem reaches_of_published (hagrees : Agrees s.poller () s.acceptChannel_)
    (hplace : s.place t = .waiting i n) (hget : s.threads_[n]? = some e) (he : e.Awaited)
    (hfunc : e.func = .published) : s.Reaches t := by
  have hloop : e.loop_ = true := he.framed.loop_.2 (.inl hfunc)
  have hstart : e.step .startLoop = .ok { e with started := true } :=
    congrArg Except.ok (if_pos ⟨hloop, by simp [hfunc], he.absent⟩)
  have hstep : s.step (.startLoop t) = s.startLoop t i n := by
    simp [step, Startup.Enabled, perform, hplace]
  simp only [Startup.startLoop, hget, hstart, ok_bind] at hstep
  exact .of_step (a := .startLoop t) trivial hstep (hall _ hagrees rfl (Function.update_self ..))

/-- The thread stores its `loop_`. -/
theorem reaches_of_free (hagrees : Agrees s.poller () s.acceptChannel_)
    (hplace : s.place t = .waiting i n) (hentered : s.entered n = true)
    (hget : s.threads_[n]? = some e) (he : e.Awaited) (hfunc : e.func = .callback)
    (hfree : e.loop.Free) : s.Reaches t := by
  have hpublish : e.step .publish = .ok { e with loop_ := true, func := .published } :=
    congrArg Except.ok (if_pos ⟨hfunc, hfree⟩)
  obtain ⟨s', hs', hplace', -, hget', hnum, hkeeps⟩ :=
    exists_thread (a := .publish) trivial hentered hget hpublish
  refine .of_step (a := .thread n .publish) trivial hs' ?_
  refine reaches_of_published (fun s'' hagrees' hnum' => hall s'' hagrees' (hnum'.trans hnum))
    (hkeeps hagrees) (hplace' ▸ hplace) hget' (awaited_own (a := .publish) he trivial hpublish).1 rfl

/-- A call that the `ThreadInitCallback` is in ends first. -/
theorem reaches_of_entered (hagrees : Agrees s.poller () s.acceptChannel_)
    (hplace : s.place t = .waiting i n) (hentered : s.entered n = true)
    (hget : s.threads_[n]? = some e) (he : e.Awaited) (hfunc : e.func = .callback) :
    s.Reaches t := by
  have halive : e.Alive := ⟨he.begun, by simp [hfunc]⟩
  rcases free_or_exists halive with hfree | ⟨a, l, honward, hstep, hfree⟩
  · exact reaches_of_free hall hagrees hplace hentered hget he hfunc hfree
  · obtain ⟨s', hs', hplace', hentered', hget', hnum, hkeeps⟩ :=
      exists_thread (a := .on a) trivial hentered hget hstep
    have he' := (awaited_own (a := .on a) he trivial hstep).1
    refine .of_step (a := .thread n (.on a)) (honward n) hs' ?_
    exact reaches_of_free (fun s'' hagrees' hnum' => hall s'' hagrees' (hnum'.trans hnum))
      (hkeeps hagrees) (hplace' ▸ hplace) (hentered' ▸ hentered) hget' he' hfunc hfree

/-- A thread that waits for what is still to come. -/
theorem reaches_of_waiting (hagrees : Agrees s.poller () s.acceptChannel_)
    (hplace : s.place t = .waiting i n) (hget : s.threads_[n]? = some e) (he : e.Awaited)
    (hover : ¬e.Over) : s.Reaches t := by
  rcases he.func_eq hover with hfunc | hfunc
  · cases hentered : s.entered n with
    | true => exact reaches_of_entered hall hagrees hplace hentered hget he hfunc
    | false =>
      have henabled : s.Enabled (.callback n) := ⟨by rw [hget, Option.map_some, hfunc], hentered⟩
      refine .of_step (a := .callback n) trivial (if_pos henabled) ?_
      exact reaches_of_entered hall hagrees hplace (Function.update_self ..) hget he hfunc
  · exact reaches_of_published hall hagrees hplace hget he hfunc

end

/-- From the test of the `for` on: one thread of the pool after the other is brought up. -/
theorem reaches_of_testing [Nontrivial τ] (hagrees : Agrees s.poller () s.acceptChannel_)
    (hplace : s.place t = .testing i) : s.Reaches t := by
  induction hk : (s.numThreads_ - i).toNat generalizing s i with
  | zero =>
    obtain ⟨id, hid⟩ := exists_ne s.loop_.threadId_
    have hstep : s.step (.test t id) = s.test t id i := by
      simp [step, Startup.Enabled, hid, perform, hplace]
    rw [Startup.test, if_neg (by omega)] at hstep
    split at hstep
    next =>
      refine .of_step (a := .test t id) trivial hstep ?_
      exact reaches_of_callback hagrees (Function.update_self ..)
    next =>
      refine .of_step (a := .test t id) trivial hstep ?_
      exact reaches_of_listening hagrees (Function.update_self ..)
  | succ k ih =>
    obtain ⟨id, hid⟩ := exists_ne s.loop_.threadId_
    have hstep : s.step (.test t id) = s.test t id i := by
      simp [step, Startup.Enabled, hid, perform, hplace]
    obtain ⟨e, he⟩ : ∃ e, (EventLoopThread.construct id : EventLoopThread φ τ).step .start = .ok e :=
      ⟨_, rfl⟩
    obtain ⟨hawaited, hfunc⟩ := awaited_construct he
    rw [Startup.test, if_pos (by omega), he] at hstep
    refine .of_step (a := .test t id) trivial hstep ?_
    refine reaches_of_waiting (fun s' hagrees' hnum hplace' => ih hagrees' hplace' ?_) hagrees
      (Function.update_self ..) List.getElem?_concat_length hawaited ?_
    · have hnum : s'.numThreads_ = s.numThreads_ := hnum
      rw [hnum]
      omega
    · simp [EventLoopThread.Over, hfunc]

/-- **Every place**: a thread that has not missed its `loop_` can be brought to return. -/
theorem Waits.reaches [Nontrivial τ] (hs : s.Waits) (hmissed : ¬s.Missed t) : s.Reaches t := by
  cases hplace : s.place t with
  | outside => exact ⟨[], s, by simp, rfl, hplace⟩
  | testing i => exact reaches_of_testing hs.agrees hplace
  | waiting i n =>
    obtain ⟨e, hget, he⟩ := hs.awaited t i n hplace
    have hover : ¬e.Over := fun hover => hmissed ⟨i, n, e, hplace, hget, hover⟩
    exact reaches_of_waiting (fun _ hagrees _ => reaches_of_testing hagrees) hs.agrees hplace hget he
      hover
  | callback => exact reaches_of_callback hs.agrees hplace
  | listening => exact reaches_of_listening hs.agrees hplace

/-- **Whether the start returns, exactly**: in every state that a run reaches, a thread that is in
`TcpServer::start` can be brought to return by what the threads are inside of, unless it waits in
`startLoop` for a `loop_` that `threadFunc` has cleared again, or is about to clear under the mutex;
then it waits for ever, whatever the threads do. -/
theorem start_returns [Nontrivial τ] {main : τ} {sockfd : ℕ} {actions : List (Action φ τ)}
    (h : run step (construct main sockfd) actions = .ok s) (t : τ) :
    (¬s.Missed t → s.Reaches t) ∧
      (s.Missed t → ∀ more u, run step s more = .ok u → u.place t ≠ .outside) := by
  have hs : s.Waits := invariant (fun _ _ _ hs h => hs.step h) (construct_waits main sockfd) h
  refine ⟨hs.reaches, fun hmissed more u hu => ?_⟩
  have hlater : u.Waits ∧ u.Missed t := by
    refine invariant (I := fun s => s.Waits ∧ s.Missed t) ?_ ⟨hs, hmissed⟩ hu
    exact fun _ _ _ hs h => ⟨hs.1.step h, hs.2.step hs.1 h⟩
  obtain ⟨i, n, e, hplace, -⟩ := hlater.2
  simp [hplace]

/-- The functor `()` of the thread `1` quits its loop before `startLoop` has looked. -/
def missing : List (Action Unit ℕ) :=
  [.setThreadNum 1, .setThreadInitcallback true, .start 0, .test 0 1, .callback 0] ++
    [.on (.queueInLoop 1 ()), .on (.wakeQueued 1), .publish, .on .loop, .on .test, .on (.poll false),
      .on .doPendingFunctors, .on .swap, .on .next, .on (.quit 1), .on (.wakeQuit 1), .on .endRound,
      .on .test, .lock].map (.thread 0)

theorem start_returns_missing : ∃ s : Startup Unit ℕ, run step (construct 0 7) missing = .ok s ∧
    (s.place 0, s.threads_.map (·.func)) = (.waiting 0 0, [.locked]) ∧
    ((¬s.Missed 0 → s.Reaches 0) ∧
      (s.Missed 0 → ∀ more u, run step s more = .ok u → u.place 0 ≠ .outside)) := by
  have hrun : (run step (construct 0 7) missing).map
      (fun s => (s.place 0, s.threads_.map (·.func))) = .ok (.waiting 0 0, [.locked]) := by
    decide +kernel
  obtain ⟨s, hs, hview⟩ := exists_of_map hrun
  exact ⟨s, hs, hview, start_returns hs 0⟩

end Startup

end Muduo
