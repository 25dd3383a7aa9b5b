import Muduo.EpollPoller.Poll

/-!
# The slots of `events_`

The slots that the kernel has not written hold no channel, and `fillActivateChannels` goes through
them all the same. From a new poller on, a poll that reports anything therefore returns only when it
fills `events_`; it then doubles `events_`, and the new slots hold no channel either. So a loop that
is to survive has to find twice as many events at every poll that finds any (`survives`): when at
most `N` can happen at once, it survives a number of such polls that is logarithmic in `N`.
-/

namespace Muduo

open Memory Run

variable {ι : Type}

/-! ## What the calls leave -/

theorem EpollPoller.update_events {p p' : EpollPoller ι} {op : CtlOp} {self : ι} {c : Channel}
    (h : p.update op self c = .ok p') : p'.events_ = p.events_ := by
  unfold update at h
  simp only at h
  split at h
  · obtain rfl := Except.ok.inj h
    rfl
  · cases h

theorem EpollPoller.updateChannel_events {p : EpollPoller ι} {self : ι} {c : Channel}
    {x : EpollPoller ι × Channel} (h : p.updateChannel self c = .ok x) :
    x.1.events_ = p.events_ := by
  unfold updateChannel at h
  simp only at h
  split at h
  · obtain ⟨p', hp', h⟩ := bind_eq_ok.1 h
    obtain rfl := Except.ok.inj h
    refine (update_events hp').trans ?_
    split <;> rfl
  · split at h
    all_goals
      obtain ⟨p', hp', h⟩ := bind_eq_ok.1 h
      obtain rfl := Except.ok.inj h
      exact update_events hp'

theorem EpollPoller.removeChannel_events {p : EpollPoller ι} {self : ι} {c : Channel}
    {x : EpollPoller ι × Channel} (h : p.removeChannel self c = .ok x) :
    x.1.events_ = p.events_ := by
  unfold removeChannel at h
  simp only at h
  split at h
  · obtain ⟨p', hp', h⟩ := bind_eq_ok.1 h
    obtain rfl := Except.ok.inj h
    exact (update_events hp').trans rfl
  · obtain rfl := Except.ok.inj h
    rfl

/-- A call on a channel leaves `events_`. -/
theorem Channel.Call.exec_events {p : EpollPoller ι} {self : ι} {c : Channel} {call : Channel.Call}
    {x : EpollPoller ι × Channel} (h : call.exec p self c = .ok x) : x.1.events_ = p.events_ := by
  cases call with
  | remove => exact EpollPoller.removeChannel_events h
  | enableReading | disableReading | enableWriting | disableWriting | disableAll =>
    exact EpollPoller.updateChannel_events h

/-! ## The slots -/

namespace Polled

/-- A poll that reports anything fills `events_`. -/
def Fills (s : Polled ι) : Action ι → Prop
  | .poll wait => s.reported wait = [] ∨ (s.reported wait).length = s.poller.events_.length
  | .call _ _ => True

/-- At most `N` events are reported at once. -/
def AtMost (N : ℕ) (s : Polled ι) : Action ι → Prop
  | .poll wait => (s.reported wait).length ≤ N
  | .call _ _ => True

/-- A mark for a poll that reports anything. -/
def reports (s : Polled ι) : Action ι → List Unit
  | .poll wait => if s.reported wait = [] then [] else [()]
  | .call _ _ => []

/-- The last slot of `events_` holds no channel. -/
def Vacant (s : Polled ι) : Prop := ∃ events m, s.poller.events_ = events ++ [⟨m, none⟩]

/-- What a loop that survives relies on. -/
structure Alive (fd : ι → ℕ) (s : Polled ι) : Prop where
  agreeing : s.Agreeing fd
  vacant : s.Vacant

theorem construct_alive (fd : ι → ℕ) : (construct fd).Alive fd := by
  refine ⟨construct_agreeing fd, List.replicate 15 ⟨0, none⟩, 0, ?_⟩
  rfl

end Polled

/-! ## One poll -/

variable [DecidableEq ι]

/-- The loop over `events_` does not come past a slot without a channel. -/
theorem fillFrom_null {events : List (EpollEvent ι)} (h : ∃ e ∈ events, e.ptr = none)
    (channel : ι → Channel) (active : List ι) :
    fillFrom events channel active = .error .outOfBounds := by
  induction events generalizing channel active with
  | nil =>
    obtain ⟨e, he, -⟩ := h
    cases he
  | cons event events ih =>
    unfold fillFrom
    cases hptr : event.ptr with
    | none => rfl
    | some i =>
      obtain ⟨e, he, hnull⟩ := h
      rcases List.mem_cons.1 he with rfl | he
      · exact absurd (hptr.symm.trans hnull) (Option.some_ne_none i)
      · exact ih ⟨e, he, hnull⟩ _ _

namespace Polled

/-- `set_revents` of some channels leaves what the poller goes by. -/
theorem setRevents_eq (entries : List (ι × Mask)) (channel : ι → Channel) (i : ι) :
    ∃ m, setRevents channel entries i = (channel i).set_revents m := by
  induction entries generalizing channel with
  | nil => exact ⟨(channel i).revents_, rfl⟩
  | cons e entries ih =>
    obtain ⟨m, hm⟩ := ih (Function.update channel e.1 ((channel e.1).set_revents e.2))
    refine ⟨m, hm.trans ?_⟩
    rw [Function.update_apply]
    split
    next hi =>
      subst hi
      rfl
    next => rfl

variable {s t : Polled ι} {wait : Wait ι}

theorem dispatch_step {dispatched : List (ι × Mask)} (h : s.dispatch wait = .ok (t, dispatched)) :
    s.step (.poll wait) = .ok t := by
  rw [step, h]
  rfl

/-- A poll without entries changes nothing. -/
theorem poll_of_none (h : s.reported wait = []) : s.step (.poll wait) = .ok s := by
  unfold reported at h
  have hdispatch : s.dispatch wait = .ok (s, []) := by
    unfold dispatch poll
    cases hw : wait (castInt s.poller.events_.length) with
    | failed errno => rfl
    | happened entries le =>
      rw [hw, WaitResult.entries] at h
      subst h
      obtain ⟨⟨channels, events, epoll⟩, channel⟩ := s
      simp [overwrite, bind, Except.bind, pure, Except.pure]
  exact dispatch_step hdispatch

/-- A poll that does not fill `events_` comes to a slot without a channel. -/
theorem poll_of_lt (hvacant : s.Vacant) (hne : s.reported wait ≠ [])
    (hlt : (s.reported wait).length < s.poller.events_.length) :
    s.step (.poll wait) = .error .outOfBounds := by
  obtain ⟨front, m, hevents⟩ := hvacant
  unfold reported at hne hlt
  unfold step dispatch poll
  cases hw : wait (castInt s.poller.events_.length) with
  | failed errno =>
    rw [hw] at hne
    exact absurd rfl hne
  | happened entries le =>
    rw [hw, WaitResult.entries] at hne hlt
    have hlast : (⟨m, none⟩ : EpollEvent ι) ∈
        overwrite s.poller.events_ 0 (entries.map EpollEvent.report) := by
      rw [hevents, List.length_append, List.length_singleton] at hlt
      refine List.mem_append_right _ ?_
      rw [hevents, List.drop_append_of_le_length (by rw [List.length_map]; omega)]
      exact List.mem_append_right _ List.mem_cons_self
    have hfill := fillFrom_null ⟨_, hlast, rfl⟩ s.channel []
    simp only [hw, if_pos (List.length_pos_iff.2 hne), EpollPoller.fillActivateChannels, hfill]
    rfl

/-- A poll that fills `events_` doubles it. -/
theorem poll_of_full (hne : s.reported wait ≠ [])
    (hlen : (s.reported wait).length = s.poller.events_.length) :
    ∃ events channel, s.step (.poll wait) = .ok ⟨{ s.poller with events_ := events }, channel⟩ ∧
      events = (s.reported wait).map .report ++ List.replicate (s.reported wait).length ⟨0, none⟩ ∧
      ∀ i, ∃ m, channel i = (s.channel i).set_revents m := by
  unfold reported at hne hlen ⊢
  unfold step dispatch poll
  cases hw : wait (castInt s.poller.events_.length) with
  | failed errno =>
    rw [hw] at hne
    exact absurd rfl hne
  | happened entries le =>
    rw [hw, WaitResult.entries] at hne hlen
    have hover : overwrite s.poller.events_ 0 (entries.map EpollEvent.report) =
        entries.map .report := by
      rw [overwrite, List.take_zero, List.nil_append, List.drop_eq_nil_of_le (by
        rw [List.length_map]; omega), List.append_nil]
    have hresize : resizeEvents (entries.map EpollEvent.report) (entries.length * 2) =
        entries.map .report ++ List.replicate entries.length ⟨0, none⟩ := by
      rw [resizeEvents, List.length_map, List.take_of_length_le (by rw [List.length_map]; omega)]
      congr 2
      omega
    simp only [hw, if_pos (List.length_pos_iff.2 hne), EpollPoller.fillActivateChannels, hover,
      fillFrom_report, ok_bind, List.length_map, if_true, hresize]
    exact ⟨_, _, rfl, rfl, setRevents_eq entries s.channel⟩

/-! ## The steps -/

variable {fd : ι → ℕ} {a : Action ι}

/-- Only a poll that fills `events_`, or reports nothing, returns. -/
theorem fills_of_step (hs : s.Vacant) (h : s.step a = .ok t) : s.Fills a := by
  cases a with
  | call => trivial
  | poll wait =>
    by_contra hnot
    obtain ⟨hne, hlen⟩ := not_or.1 hnot
    have hlt := Nat.lt_of_le_of_ne (s.length_reported_le wait) hlen
    rw [poll_of_lt hs hne hlt] at h
    cases h

/-- What a poll or a call makes of the slots: `events_` is doubled when the poll reports anything. -/
structure Doubles (s : Polled ι) (a : Action ι) (t : Polled ι) : Prop where
  length_eq : t.poller.events_.length = s.poller.events_.length * 2 ^ (s.reports a).length
  le_of_reports : ∀ N, s.AtMost N a → s.reports a = [] ∨ t.poller.events_.length ≤ 2 * N

/-- **A step** that fills `events_`, or reports nothing, returns. -/
theorem Alive.step (hfd : fd.Injective) (hs : s.Alive fd) (hfills : s.Fills a) :
    ∃ t, s.step a = .ok t ∧ t.Alive fd ∧ Doubles s a t := by
  cases a with
  | call i c =>
    obtain ⟨t, ht, hagreeing⟩ := call_agreeing hfd hs.agreeing (i, c)
    have hevents : t.poller.events_ = s.poller.events_ := by
      obtain ⟨x, hx, hret⟩ := bind_eq_ok.1 ht
      obtain rfl := Except.ok.inj hret
      exact Channel.Call.exec_events hx
    refine ⟨t, ht, ⟨hagreeing, ?_⟩, ?_, fun N _ => .inl rfl⟩
    · rw [Vacant, hevents]
      exact hs.vacant
    · rw [hevents, reports, List.length_nil, Nat.pow_zero, Nat.mul_one]
  | poll wait =>
    by_cases hnil : s.reported wait = []
    · refine ⟨s, poll_of_none hnil, hs, ?_, fun N _ => .inl (if_pos hnil)⟩
      rw [reports, if_pos hnil, List.length_nil, Nat.pow_zero, Nat.mul_one]
    · have hlen := hfills.resolve_left hnil
      obtain ⟨events, channel, ht, hevents, hchannel⟩ := poll_of_full hnil hlen
      have hlength : events.length = 2 * (s.reported wait).length := by
        rw [hevents, List.length_append, List.length_map, List.length_replicate]
        omega
      refine ⟨_, ht, ⟨⟨fun i => ?_, fun i => ?_, hs.agreeing.failures_eq⟩, ?_⟩, ?_, fun N hN => ?_⟩
      · obtain ⟨m, hm⟩ := hchannel i
        simp only [hm]
        exact hs.agreeing.fd_eq i
      · obtain ⟨m, hm⟩ := hchannel i
        simp only [hm]
        exact hs.agreeing.agrees i
      · -- the slots that have come are vacant
        obtain ⟨n, hn⟩ := Nat.exists_eq_succ_of_ne_zero (Nat.ne_of_gt (List.length_pos_iff.2 hnil))
        refine ⟨(s.reported wait).map .report ++ List.replicate n ⟨0, none⟩, 0, ?_⟩
        rw [hevents, hn, List.replicate_succ', List.append_assoc]
      · simp only [hlength, hlen, reports, if_neg hnil, List.length_singleton]
        omega
      · refine .inr ?_
        simp only [hlength]
        exact Nat.mul_le_mul_left 2 hN

/-! ## Runs -/

/-- The polls of a run that report anything. -/
def polls (s : Polled ι) (actions : List (Action ι)) : ℕ := (collect step reports s actions).length

/-- A step that returns keeps the slots in order, and doubles them with a report. -/
theorem Alive.doubles (hfd : fd.Injective) (hs : s.Alive fd) (h : s.step a = .ok t) :
    t.Alive fd ∧ Doubles s a t := by
  obtain ⟨u, hu, halive⟩ := hs.step hfd (fills_of_step hs.vacant h)
  obtain rfl := Except.ok.inj (hu.symm.trans h)
  exact halive

/-- The slots after a run. -/
theorem run_doubled (hfd : fd.Injective) {actions : List (Action ι)}
    (h : run step (construct fd) actions = .ok s) :
    s.Alive fd ∧ s.poller.events_.length = 16 * 2 ^ (construct fd).polls actions ∧
      ∀ N, Along step (AtMost N) (construct fd) actions →
        (construct fd).polls actions = 0 ∨ s.poller.events_.length ≤ 2 * N := by
  refine run_induction (motive := fun actions (s : Polled ι) => s.Alive fd ∧
    s.poller.events_.length = 16 * 2 ^ (construct fd).polls actions ∧
    ∀ N, Along step (AtMost N) (construct fd) actions →
      (construct fd).polls actions = 0 ∨ s.poller.events_.length ≤ 2 * N) ?_ ?_ h
  · exact ⟨construct_alive fd, rfl, fun N _ => .inl rfl⟩
  · rintro actions a t u ht hu ⟨halive, hlength, hbound⟩
    obtain ⟨halive', hdoubles⟩ := halive.doubles hfd hu
    have hpolls : (construct fd).polls (actions ++ [a]) =
        (construct fd).polls actions + (t.reports a).length := by
      rw [polls, collect_concat ht, List.length_append, polls]
    refine ⟨halive', ?_, fun N hN => ?_⟩
    · rw [hdoubles.length_eq, hlength, hpolls, Nat.pow_add, Nat.mul_assoc]
    · obtain ⟨hN, hNa⟩ := along_concat.1 hN
      rcases hdoubles.le_of_reports N (hNa t ht) with hnil | hle
      · have hsame := hdoubles.length_eq
        rw [hnil, List.length_nil, Nat.pow_zero, Nat.mul_one] at hsame
        rw [hpolls, hnil, List.length_nil, Nat.add_zero, hsame]
        exact hbound N hN
      · exact .inr hle

/-- **Survival**: a run of polls and calls on a new poller, with channels of their own descriptors,
returns if and only if every poll that reports anything fills `events_`. Then `events_` has doubled
with each of these polls; and when at most `N` events are reported at once, there have been none or
so few that `8 * 2 ^ polls ≤ N`. -/
theorem survives (hfd : fd.Injective) (actions : List (Action ι)) :
    ((∃ s, run step (construct fd) actions = .ok s) ↔ Along step Fills (construct fd) actions) ∧
    ∀ s, run step (construct fd) actions = .ok s →
      s.poller.events_.length = 16 * 2 ^ (construct fd).polls actions ∧
      ∀ N, Along step (AtMost N) (construct fd) actions →
        (construct fd).polls actions = 0 ∨ 8 * 2 ^ (construct fd).polls actions ≤ N := by
  refine ⟨⟨fun ⟨s, h⟩ => ?_, fun h => ?_⟩, fun s h => ?_⟩
  · have htrue : Along step (fun _ _ => True) (construct fd) actions :=
      along_of_forall (fun _ _ => trivial) _ _
    refine (along_congr (I := Alive fd) (fun s a t hs ht => (hs.doubles hfd ht).1)
      (fun s a t hs ht => ?_) (construct_alive fd) h).1 htrue
    exact iff_of_true trivial (fills_of_step hs.vacant ht)
  · obtain ⟨u, hu, -⟩ := h.progress (I := Alive fd) (fun s a hs hfills => by
      obtain ⟨t, ht, halive, -⟩ := hs.step hfd hfills
      exact ⟨t, ht, halive⟩) (construct_alive fd)
    exact ⟨u, hu⟩
  · obtain ⟨-, hlength, hbound⟩ := run_doubled hfd h
    refine ⟨hlength, fun N hN => (hbound N hN).imp_right fun hle => ?_⟩
    omega

/-- The kernel reports the channels below `n`, when the code asks for as many. -/
def allBelow (n : ℕ) : Wait ℕ := fun maxevents =>
  if h : ((List.range n).map fun i => (i, EPOLLIN)).length ≤ maxevents then .happened _ h
  else .failed EINVAL

/-- Sixteen channels are watched, and each has something to read. -/
def allReady : List (Action ℕ) :=
  (List.range 16).map (fun i => .call i .enableReading) ++ [.poll (allBelow 16)]

theorem survives_allReady : ∃ s, run step (construct fun i => i + 5) allReady = .ok s ∧
    (construct fun i => i + 5).polls allReady = 1 ∧
    ((∃ s, run step (construct fun i => i + 5) allReady = .ok s) ↔
      Along step Fills (construct fun i => i + 5) allReady) ∧
    ∀ s, run step (construct fun i => i + 5) allReady = .ok s →
      s.poller.events_.length = 16 * 2 ^ (construct fun i => i + 5).polls allReady ∧
      ∀ N, Along step (AtMost N) (construct fun i => i + 5) allReady →
        (construct fun i => i + 5).polls allReady = 0 ∨
          8 * 2 ^ (construct fun i => i + 5).polls allReady ≤ N := by
  have hrun : (run step (construct fun i => i + 5) allReady).isOk = true := by decide +kernel
  have hpolls : (construct fun i => i + 5).polls allReady = 1 := by decide +kernel
  obtain ⟨s, hs⟩ := exists_of_isOk hrun
  exact ⟨s, hs, hpolls, survives (fun i j h => Nat.add_right_cancel h) allReady⟩

end Polled

end Muduo
