import Muduo.EpollPoller.Agreement

/-!
# Channels without interest

`updateChannel` looks at the mask of a channel only on the branch of `kAdd`: from `kNew` and
`kDelete` it registers whatever the mask is, the empty mask included. `Enrolled` is the part of
the invariant that needs no assumption on the descriptors: a channel with index `kAdd` is what the
kernel holds for its descriptor, under its events.

`silent_iff`: over every run of calls, the calls that disable the last interest leave the channel
unwatched if and only if each of them finds the descriptor registered; and a second `disableAll`
always undoes what the first one did to the kernel.
-/

namespace Muduo

open Run

variable {ι : Type}

/-! ## What a call that returns did -/

/-- What the kernel holds for the descriptor of the channel after an `update()` under `events`. -/
def Channel.registration (c : Channel) (self : ι) (events : Mask) : Option (EpollEvent ι) :=
  if c.index_ = .kAdd ∧ events = Channel.kNoneEvent then none else some ⟨events, some self⟩

/-- An `update` that returns left the descriptor registered or not, as its operation says. -/
theorem EpollPoller.update_ok {p p' : EpollPoller ι} {op : CtlOp} {self : ι} {c : Channel}
    (h : p.update op self c = .ok p') :
    p'.channels_ = p.channels_ ∧
      p'.epoll.interest = Function.update p.epoll.interest c.fd_
        (if op = .EPOLL_CTL_DEL then none else some ⟨c.events_, some self⟩) ∧
      (op = .EPOLL_CTL_ADD → p.epoll.interest c.fd_ = none) := by
  cases hk : p.epoll.interest c.fd_ with
  | none =>
    cases op with
    | EPOLL_CTL_MOD => simp [update, Epoll.epoll_ctl, hk] at h
    | EPOLL_CTL_ADD =>
      simp only [update, Epoll.epoll_ctl, hk] at h
      obtain rfl := Except.ok.inj h
      exact ⟨rfl, rfl, fun _ => rfl⟩
    | EPOLL_CTL_DEL =>
      -- the failed `DEL` is logged: there was nothing to delete
      simp only [update, Epoll.epoll_ctl, hk] at h
      obtain rfl := Except.ok.inj h
      refine ⟨rfl, ?_, fun hop => by cases hop⟩
      rw [if_pos rfl, ← hk, Function.update_eq_self]
  | some event =>
    cases op with
    | EPOLL_CTL_ADD => simp [update, Epoll.epoll_ctl, hk] at h
    | EPOLL_CTL_MOD | EPOLL_CTL_DEL =>
      simp only [update, Epoll.epoll_ctl, hk] at h
      obtain rfl := Except.ok.inj h
      exact ⟨rfl, rfl, fun hop => by cases hop⟩

theorem watch_ok {p p' : EpollPoller ι} {self : ι} {c c' : Channel} {events : Mask}
    (h : c.watch p self events = .ok (p', c')) :
    c' = c.watched events ∧
      p'.epoll.interest =
        Function.update p.epoll.interest c.fd_ (c.registration self events) ∧
      (c.index_ ≠ .kAdd → p.epoll.interest c.fd_ = none) := by
  unfold Channel.watched Channel.registration
  rw [Channel.watch, EpollPoller.updateChannel] at h
  by_cases hi : c.index_ = .kAdd
  · rw [if_neg (by simp [hi])] at h
    by_cases he : events = Channel.kNoneEvent
    · rw [if_pos (by simp [Channel.isNoneEvent, he])] at h
      obtain ⟨p₁, hupdate, hret⟩ := bind_eq_ok.1 h
      obtain ⟨rfl, rfl⟩ := Prod.mk.inj (Except.ok.inj hret)
      refine ⟨?_, ?_, fun hne => absurd hi hne⟩
      · simp [Channel.set_index, Index.updated, hi, he]
      · simpa [hi, he] using (EpollPoller.update_ok hupdate).2.1
    · rw [if_neg (by simp [Channel.isNoneEvent, he])] at h
      obtain ⟨p₁, hupdate, hret⟩ := bind_eq_ok.1 h
      obtain ⟨rfl, rfl⟩ := Prod.mk.inj (Except.ok.inj hret)
      refine ⟨?_, ?_, fun hne => absurd hi hne⟩
      · simp [Index.updated, hi, he]
      · simpa [he] using (EpollPoller.update_ok hupdate).2.1
  · have hnew : c.index_ = .kNew ∨ c.index_ = .kDelete := by
      cases h' : c.index_ with
      | kAdd => exact absurd h' hi
      | kNew => exact .inl rfl
      | kDelete => exact .inr rfl
    rw [if_pos hnew] at h
    obtain ⟨p₁, hupdate, hret⟩ := bind_eq_ok.1 h
    obtain ⟨rfl, rfl⟩ := Prod.mk.inj (Except.ok.inj hret)
    obtain ⟨-, hinterest, hnone⟩ := EpollPoller.update_ok hupdate
    have hepoll : ∀ m, (if c.index_ = .kNew then { p with channels_ := m } else p).epoll =
        p.epoll := by
      intro m
      split <;> rfl
    simp only [hepoll] at hinterest hnone
    refine ⟨?_, ?_, fun _ => hnone trivial⟩
    · simp [Channel.set_index, Index.updated, hi]
    · simpa [hi, Channel.set_index] using hinterest

theorem remove_ok {p p' : EpollPoller ι} {self : ι} {c c' : Channel}
    (h : c.remove p self = .ok (p', c')) :
    c' = { c with index_ := .kNew } ∧
      p'.epoll.interest = Function.update p.epoll.interest c.fd_
        (if c.index_ = .kAdd then none else p.epoll.interest c.fd_) := by
  rw [Channel.remove, EpollPoller.removeChannel] at h
  by_cases hi : c.index_ = .kAdd
  · simp only [if_pos hi] at h ⊢
    obtain ⟨p₁, hupdate, hret⟩ := bind_eq_ok.1 h
    obtain ⟨rfl, rfl⟩ := Prod.mk.inj (Except.ok.inj hret)
    exact ⟨rfl, (EpollPoller.update_ok hupdate).2.1⟩
  · simp only [if_neg hi] at h ⊢
    obtain ⟨rfl, rfl⟩ := Prod.mk.inj (Except.ok.inj h)
    exact ⟨rfl, by rw [Function.update_eq_self]⟩

namespace Channel.Call

/-- What the kernel holds for the descriptor of the channel after the call; `before` is what it held
before. -/
def registration (c : Channel) (self : ι) (before : Option (EpollEvent ι)) :
    Channel.Call → Option (EpollEvent ι)
  | .remove => if c.index_ = .kAdd then none else before
  | call => c.registration self (call.after c).events_

/-- **A call that returns** changed the channel and the entry of its descriptor as follows; from
`kNew` and `kDelete`, an `update()` found the descriptor unregistered. -/
theorem exec_ok {p p' : EpollPoller ι} {self : ι} {c c' : Channel} {call : Channel.Call}
    (h : call.exec p self c = .ok (p', c')) :
    c' = call.after c ∧
      p'.epoll.interest = Function.update p.epoll.interest c.fd_
        (call.registration c self (p.epoll.interest c.fd_)) ∧
      (call ≠ .remove → c.index_ ≠ .kAdd → p.epoll.interest c.fd_ = none) := by
  cases call with
  | remove =>
    obtain ⟨hc, hinterest⟩ := remove_ok h
    exact ⟨hc, hinterest, fun hne => absurd rfl hne⟩
  | enableReading | disableReading | enableWriting | disableWriting | disableAll =>
    obtain ⟨hc, hinterest, hnone⟩ := watch_ok h
    exact ⟨hc, hinterest, fun _ => hnone⟩

end Channel.Call

/-- An `update()` that leaves the index `kAdd` leaves the channel registered. -/
theorem Channel.registration_watched {c : Channel} {self : ι} {events : Mask}
    (h : (c.watched events).index_ = .kAdd) :
    c.registration self events = some ⟨events, some self⟩ := by
  refine if_neg fun hnone => ?_
  rw [Channel.watched, Index.updated, if_pos hnone] at h
  cases h

theorem Channel.Call.registration_after {c : Channel} {self : ι} {before : Option (EpollEvent ι)}
    {call : Channel.Call} (h : (call.after c).index_ = .kAdd) :
    call.registration c self before = some ⟨(call.after c).events_, some self⟩ := by
  cases call with
  | remove => cases h
  | enableReading | disableReading | enableWriting | disableWriting | disableAll =>
    exact Channel.registration_watched h

namespace Polled

/-- A channel with index `kAdd` is registered, under its events. -/
def Enrolled (s : Polled ι) : Prop :=
  ∀ i, (s.channel i).index_ = .kAdd →
    s.poller.epoll.interest (s.channel i).fd_ = some ⟨(s.channel i).events_, some i⟩

theorem construct_enrolled (fd : ι → ℕ) : (construct fd).Enrolled := by
  intro i hi
  cases hi

variable [DecidableEq ι]

/-- What a call on the channel `i` did, when it returned. -/
theorem call_ok {s t : Polled ι} {i : ι} {call : Channel.Call} (h : s.call (i, call) = .ok t) :
    t.channel = Function.update s.channel i (call.after (s.channel i)) ∧
      t.poller.epoll.interest = Function.update s.poller.epoll.interest (s.channel i).fd_
        (call.registration (s.channel i) i (s.poller.epoll.interest (s.channel i).fd_)) ∧
      (call ≠ .remove → (s.channel i).index_ ≠ .kAdd →
        s.poller.epoll.interest (s.channel i).fd_ = none) := by
  obtain ⟨⟨p, c⟩, hexec, hret⟩ := bind_eq_ok.1 h
  obtain rfl := Except.ok.inj hret
  obtain ⟨rfl, hinterest, hnone⟩ := Channel.Call.exec_ok hexec
  exact ⟨rfl, hinterest, hnone⟩

theorem call_enrolled {s t : Polled ι} (hs : s.Enrolled) {a : ι × Channel.Call}
    (h : s.call a = .ok t) : t.Enrolled := by
  obtain ⟨i, call⟩ := a
  obtain ⟨hchannel, hinterest, hnone⟩ := call_ok h
  intro j hj
  rw [hchannel] at hj ⊢
  rw [hinterest]
  by_cases hji : j = i
  · subst hji
    rw [Function.update_self] at hj ⊢
    rw [Channel.Call.fd_after, Function.update_self, Channel.Call.registration_after hj]
  · rw [Function.update_of_ne hji] at hj ⊢
    have henrolled := hs j hj
    by_cases hfd : (s.channel j).fd_ = (s.channel i).fd_
    · -- `j` is what the kernel holds for the descriptor, so `i` is not registered for it
      have hi : (s.channel i).index_ ≠ .kAdd := by
        intro hi
        have hboth := (hfd ▸ henrolled).symm.trans (hs i hi)
        exact hji (Option.some.inj (EpollEvent.mk.inj (Option.some.inj hboth)).2)
      cases call with
      | remove => rw [Channel.Call.registration, if_neg hi, Function.update_eq_self, henrolled]
      | enableReading | disableReading | enableWriting | disableWriting | disableAll =>
        have hfree := hnone (by decide) hi
        rw [← hfd, henrolled] at hfree
        cases hfree
    · rw [Function.update_of_ne hfd, henrolled]

end Polled

/-! ## Silence -/

/-- The calls that take interest away. -/
def Channel.Call.Disables (call : Channel.Call) : Prop :=
  call = .disableReading ∨ call = .disableWriting ∨ call = .disableAll

instance (call : Channel.Call) : Decidable call.Disables :=
  inferInstanceAs (Decidable (_ ∨ _ ∨ _))

theorem Channel.Call.Disables.ne_remove {call : Channel.Call} (h : call.Disables) :
    call ≠ .remove := by
  rintro rfl
  exact absurd h (by decide)

/-- From an index other than `kAdd`, an `update()` returns when the descriptor is free. -/
theorem watch_of_free {p : EpollPoller ι} {self : ι} {c : Channel} (events : Mask)
    (hi : c.index_ ≠ .kAdd) (hfree : p.epoll.interest c.fd_ = none) :
    ∃ r, c.watch p self events = .ok r := by
  rw [Channel.watch, EpollPoller.updateChannel]
  cases h : c.index_ with
  | kAdd => exact absurd h hi
  | kNew | kDelete =>
    simp [EpollPoller.update, Epoll.epoll_ctl, Channel.set_index, hfree, pure, Except.pure]

namespace Channel.Call.Disables

variable {call : Channel.Call} {c : Channel}

theorem exec_of_free {p : EpollPoller ι} {self : ι} (h : call.Disables) (hi : c.index_ ≠ .kAdd)
    (hfree : p.epoll.interest c.fd_ = none) : ∃ r, call.exec p self c = .ok r := by
  rcases h with rfl | rfl | rfl <;> exact watch_of_free _ hi hfree

/-- From an index other than `kAdd`, the call registers the channel, whatever it left of its
events. -/
theorem index_after_of_ne (h : call.Disables) (hi : c.index_ ≠ .kAdd) :
    (call.after c).index_ = .kAdd := by
  rcases h with rfl | rfl | rfl <;> exact if_neg fun hnone => hi hnone.1

/-- From `kAdd`, a call that leaves no events takes the channel out of the kernel's set. -/
theorem silent_after {self : ι} {before : Option (EpollEvent ι)} (h : call.Disables)
    (hi : c.index_ = .kAdd) (hnone : (call.after c).isNoneEvent) :
    call.registration c self before = none ∧ (call.after c).index_ ≠ .kAdd := by
  have hevents : (call.after c).events_ = kNoneEvent := eq_of_beq hnone
  rcases h with rfl | rfl | rfl
  all_goals
    refine ⟨if_pos ⟨hi, hevents⟩, ?_⟩
    rw [Channel.Call.after, watched] at hevents ⊢
    rw [Index.updated, if_pos ⟨hi, hevents⟩]
    intro hadd
    cases hadd

end Channel.Call.Disables

namespace Polled

variable [DecidableEq ι]

/-- The call, when it returns from taking the last interest away, leaves the descriptor out of the
kernel's set and the index other than `kAdd`. -/
def Silent (s : Polled ι) (a : ι × Channel.Call) : Prop :=
  a.2.Disables → ∀ t, s.call a = .ok t → (t.channel a.1).isNoneEvent →
    t.poller.epoll.interest (t.channel a.1).fd_ = none ∧ (t.channel a.1).index_ ≠ .kAdd

/-- The call, when it takes the last interest away, finds the descriptor in the kernel's set. -/
def FindsEnrolled (s : Polled ι) (a : ι × Channel.Call) : Prop :=
  a.2.Disables → (a.2.after (s.channel a.1)).isNoneEvent →
    s.poller.epoll.interest (s.channel a.1).fd_ ≠ none

theorem silent_iff_findsEnrolled {s : Polled ι} (hs : s.Enrolled) (a : ι × Channel.Call) :
    s.Silent a ↔ s.FindsEnrolled a := by
  obtain ⟨i, call⟩ := a
  constructor
  · intro hsilent hdisables hnone hfree
    have hi : (s.channel i).index_ ≠ .kAdd := by
      intro hi
      rw [hs i hi] at hfree
      cases hfree
    obtain ⟨⟨p, c⟩, hexec⟩ := hdisables.exec_of_free hi hfree
    obtain ⟨rfl, -, -⟩ := Channel.Call.exec_ok hexec
    have hret : s.call (i, call) =
        .ok ⟨p, Function.update s.channel i (call.after (s.channel i))⟩ := by
      rw [Polled.call, hexec]
      rfl
    have hsilent' := hsilent hdisables _ hret
    simp only [Function.update_self] at hsilent'
    exact (hsilent' hnone).2 (hdisables.index_after_of_ne hi)
  · intro hfinds hdisables t hret hnone
    obtain ⟨hchannel, hinterest, hfree⟩ := call_ok hret
    rw [hchannel, Function.update_self] at hnone ⊢
    have hi : (s.channel i).index_ = .kAdd := by
      by_contra hi
      exact hfinds hdisables hnone (hfree hdisables.ne_remove hi)
    rw [hinterest, Channel.Call.fd_after, Function.update_self]
    exact hdisables.silent_after hi hnone

/-- What a `disableAll` that returns did: `kAdd` and the registration are gone when they were there,
and are there when they were not. -/
theorem call_disableAll_ok {s t : Polled ι} {i : ι} (h : s.call (i, .disableAll) = .ok t) :
    (t.channel i).fd_ = (s.channel i).fd_ ∧
      ((t.channel i).index_ = .kAdd ↔ (s.channel i).index_ ≠ .kAdd) ∧
      (t.poller.epoll.interest (s.channel i).fd_ = none ↔ (s.channel i).index_ = .kAdd) := by
  obtain ⟨hchannel, hinterest, -⟩ := call_ok h
  rw [hchannel, hinterest, Function.update_self, Function.update_self, Channel.Call.fd_after]
  refine ⟨rfl, ?_, ?_⟩
  · simp [Channel.Call.after, Channel.watched, Index.updated]
  · simp [Channel.Call.registration, Channel.Call.after, Channel.watched, Channel.registration]

/-- A second `disableAll` in a row undoes what the first one did to the kernel. -/
theorem interest_disableAll_twice {s t u : Polled ι} {i : ι}
    (ht : s.call (i, .disableAll) = .ok t) (hu : t.call (i, .disableAll) = .ok u) :
    u.poller.epoll.interest (s.channel i).fd_ ≠ t.poller.epoll.interest (s.channel i).fd_ := by
  obtain ⟨hfd, hindex, hnone⟩ := call_disableAll_ok ht
  obtain ⟨-, -, hnone'⟩ := call_disableAll_ok hu
  rw [hfd, hindex, ne_eq, ← hnone] at hnone'
  intro heq
  rw [heq] at hnone'
  exact absurd hnone' (by simp)

/-- **Channels without interest, exactly**: over a run of calls on any channels of one poller, every
call that takes the last interest away leaves the descriptor unwatched if and only if each of them
finds it in the kernel's set; and in no reachable state is `disableAll` idempotent. -/
theorem silent_iff (fd : ι → ℕ) (calls : List (ι × Channel.Call)) :
    (Along Polled.call Silent (construct fd) calls ↔
      Along Polled.call FindsEnrolled (construct fd) calls) ∧
      ∀ s, run Polled.call (construct fd) calls = .ok s → ∀ i t u,
        s.call (i, .disableAll) = .ok t → t.call (i, .disableAll) = .ok u →
          u.poller.epoll.interest (s.channel i).fd_ ≠ t.poller.epoll.interest (s.channel i).fd_ := by
  constructor
  · exact along_iff_of_invariant (R := fun _ _ => True) (I := Enrolled)
      (fun _ _ _ hs _ _ h => call_enrolled hs h)
      (fun _ a hs _ => silent_iff_findsEnrolled hs a) (construct_enrolled fd)
      (along_of_forall (fun _ _ => trivial) _ _)
  · intro s _ i t u ht hu
    exact interest_disableAll_twice ht hu

/-- `Acceptor::~Acceptor` on a channel that never listened: `disableAll` registers it. -/
theorem not_silent_new :
    ¬∀ (fd : Unit → ℕ) (calls : List (Unit × Channel.Call)),
      Along Polled.call Silent (construct fd) calls := by
  intro h
  obtain ⟨hsilent, -⟩ := h (fun _ => 5) [((), .disableAll)]
  have henrolled : ((construct fun _ => 5).call ((), .disableAll)).map
      (fun t => (t.channel ()).index_) = .ok .kAdd := by decide
  obtain ⟨t, hret, hindex⟩ := exists_of_map henrolled
  have hnone : (t.channel ()).isNoneEvent := by
    rw [(call_ok hret).1, Function.update_self]
    rfl
  exact (hsilent (by decide) t hret hnone).2 hindex

end Polled

end Muduo
