import Muduo.EpollPoller.Agreement

/-!
# What a poll dispatches

`EpollPoller::poll` lets the kernel write its entries into the first slots of `events_` and hands
the result to `EventLoop::loop`, which runs `handleEvent` of every active channel.
`fillActivateChannels` is told how many slots the kernel wrote but goes through all of `events_`:
the slots behind are null, or left over from an earlier poll. `exact_iff` says on which runs of
polls and calls the loop still dispatches what the kernel reported: when every poll that reports
anything fills `events_`.
-/

namespace Muduo

open Memory Run

variable {ι : Type}

/-- The answer to an `epoll_wait` for at most `maxevents` entries: the channels with their masks, or
`-1` and an `errno`. -/
inductive WaitResult (ι : Type) (maxevents : ℤ)
  | happened (entries : List (ι × Mask)) (le : entries.length ≤ maxevents)
  | failed (errno : Errno)

/-- What the kernel would answer to the next `epoll_wait`, for each number of entries. -/
abbrev Wait (ι : Type) := ∀ maxevents : ℤ, WaitResult ι maxevents

/-- The entries of an answer. -/
def WaitResult.entries {maxevents : ℤ} : WaitResult ι maxevents → List (ι × Mask)
  | .happened entries _ => entries
  | .failed _ => []

/-- What the kernel writes for a channel. -/
def EpollEvent.report (e : ι × Mask) : EpollEvent ι := ⟨e.2, some e.1⟩

/-- `events_.resize(n)`; new entries are zero. -/
def resizeEvents (events : List (EpollEvent ι)) (n : ℕ) : List (EpollEvent ι) :=
  events.take n ++ List.replicate (n - events.length) ⟨0, none⟩

/-- The entries the kernel reports to the next poll. -/
def Polled.reported (s : Polled ι) (wait : Wait ι) : List (ι × Mask) :=
  (wait (castInt s.poller.events_.length)).entries

/-- The kernel never writes past the end of `events_`. -/
theorem Polled.length_reported_le (s : Polled ι) (wait : Wait ι) :
    (s.reported wait).length ≤ s.poller.events_.length := by
  have hcast := castInt_le s.poller.events_.length
  unfold Polled.reported
  cases wait (castInt s.poller.events_.length) with
  | happened entries le =>
    simp only [WaitResult.entries]
    omega
  | failed errno => exact Nat.zero_le _

section

variable [DecidableEq ι]

/-- The loop of `fillActivateChannels` over the events it is given. -/
def fillFrom : List (EpollEvent ι) → (ι → Channel) → List ι → Except Fault ((ι → Channel) × List ι)
  | [], channel, activateChannels => .ok (channel, activateChannels)
  | event :: events, channel, activateChannels =>
    match event.ptr with
    | none => .error .outOfBounds
    | some i =>
      fillFrom events (Function.update channel i ((channel i).set_revents event.events))
        (activateChannels ++ [i])

/-- `fillActivateChannels`, which leaves `numEvents` unused. -/
def EpollPoller.fillActivateChannels (p : EpollPoller ι) (_numEvents : ℕ) (channel : ι → Channel)
    (activateChannels : List ι) : Except Fault ((ι → Channel) × List ι) :=
  fillFrom p.events_ channel activateChannels

namespace Polled

/-- `poll`; it returns the active channels behind those of `activateChannels`. -/
def poll (s : Polled ι) (wait : Wait ι) (activateChannels : List ι) :
    Except Fault (Polled ι × List ι) :=
  match wait (castInt s.poller.events_.length) with
  | .failed _ => .ok (s, activateChannels)
  | .happened entries _ =>
    let numEvents := entries.length
    let p := { s.poller with events_ := overwrite s.poller.events_ 0 (entries.map .report) }
    if 0 < numEvents then do
      let (channel, activateChannels) ← p.fillActivateChannels numEvents s.channel activateChannels
      let p := if numEvents = p.events_.length then
          { p with events_ := resizeEvents p.events_ (p.events_.length * 2) }
        else p
      return (⟨p, channel⟩, activateChannels)
    else .ok (⟨p, s.channel⟩, activateChannels)

/-- What an iteration of `EventLoop::loop` dispatches: the active channels in order, each with the
`revents_` that its `handleEvent` looks at. -/
def dispatch (s : Polled ι) (wait : Wait ι) : Except Fault (Polled ι × List (ι × Mask)) := do
  let (s, activateChannels) ← s.poll wait []
  return (s, activateChannels.map fun i => (i, (s.channel i).revents_))

/-- A step of a loop: a poll with what it dispatches, or a call on a channel. -/
inductive Action (ι : Type)
  | poll (wait : Wait ι)
  | call (i : ι) (call : Channel.Call)

/-- A step; what a `poll` dispatches is dropped. -/
def step (s : Polled ι) : Action ι → Except Fault (Polled ι)
  | .poll wait => do return (← s.dispatch wait).1
  | .call i c => s.call (i, c)

/-- The kernel reports registered channels only. -/
def Registered (s : Polled ι) : Action ι → Prop
  | .poll wait => ∀ e ∈ s.reported wait, s.poller.epoll.interest (s.channel e.1).fd_ ≠ none
  | .call _ _ => True

/-- The poll returns, and what is dispatched is what the kernel reported. -/
def Exact (s : Polled ι) : Action ι → Prop
  | .poll wait => ∃ t, s.dispatch wait = .ok (t, s.reported wait)
  | .call _ _ => True

/-- The kernel reports nothing, or as many entries as `events_` has slots and no channel with two
masks. -/
def FillsOrNone (s : Polled ι) : Action ι → Prop
  | .poll wait => s.reported wait = [] ∨
      (s.reported wait).length = s.poller.events_.length ∧
        ∀ e ∈ s.reported wait, ∀ e' ∈ s.reported wait, e.1 = e'.1 → e.2 = e'.2
  | .call _ _ => True

/-! ## The loop over `events_` -/

/-- Every slot the loop goes through becomes an active channel. -/
theorem length_fillFrom {events : List (EpollEvent ι)} {channel channel' : ι → Channel}
    {active active' : List ι} (h : fillFrom events channel active = .ok (channel', active')) :
    active'.length = active.length + events.length := by
  induction events generalizing channel active with
  | nil =>
    obtain ⟨-, rfl⟩ := Prod.mk.inj (Except.ok.inj h)
    rfl
  | cons event events ih =>
    simp only [fillFrom] at h
    split at h
    · cases h
    · rw [ih h, List.length_append, List.length_singleton, List.length_cons]
      omega

/-- The channels after the masks of `entries` have been set, in order. -/
def setRevents (channel : ι → Channel) (entries : List (ι × Mask)) : ι → Channel :=
  entries.foldl (fun channel e => Function.update channel e.1 ((channel e.1).set_revents e.2)) channel

/-- Over slots that the kernel has written, the loop collects just their channels. -/
theorem fillFrom_report (entries : List (ι × Mask)) (channel : ι → Channel) (active : List ι) :
    fillFrom (entries.map .report) channel active =
      .ok (setRevents channel entries, active ++ entries.map Prod.fst) := by
  induction entries generalizing channel active with
  | nil => simp [fillFrom, setRevents]
  | cons e entries ih => simp [fillFrom, EpollEvent.report, setRevents, ih]

/-- The last mask of a channel is the one that stays. -/
theorem revents_setRevents {i : ι} {m : Mask} {entries : List (ι × Mask)} {channel : ι → Channel}
    (h : ∀ e ∈ entries, e.1 = i → e.2 = m)
    (hi : (∃ e ∈ entries, e.1 = i) ∨ (channel i).revents_ = m) :
    (setRevents channel entries i).revents_ = m := by
  induction entries generalizing channel with
  | nil => simpa [setRevents] using hi
  | cons e entries ih =>
    refine ih (fun e' he' => h e' (List.mem_cons_of_mem e he')) ?_
    by_cases hei : e.1 = i
    · subst hei
      right
      simpa [Channel.set_revents] using h e List.mem_cons_self rfl
    · rcases hi with ⟨e', he', hi⟩ | hi
      · rcases List.mem_cons.1 he' with rfl | he'
        · exact absurd hi hei
        · exact .inl ⟨e', he', hi⟩
      · right
        simpa [Function.update_of_ne (Ne.symm hei)] using hi

/-! ## One poll -/

variable {s : Polled ι} {wait : Wait ι}

/-- A poll without entries dispatches nothing. -/
theorem dispatch_of_reported_nil (h : s.reported wait = []) :
    ∃ t, s.dispatch wait = .ok (t, []) := by
  unfold reported at h
  unfold dispatch poll
  cases hw : wait (castInt s.poller.events_.length) with
  | failed errno => exact ⟨_, rfl⟩
  | happened entries le =>
    rw [hw, WaitResult.entries] at h
    subst h
    exact ⟨_, rfl⟩

/-- A poll that returns with entries dispatches as many channels as `events_` has slots. -/
theorem length_dispatch (h : s.reported wait ≠ []) {t : Polled ι} {dispatched : List (ι × Mask)}
    (hd : s.dispatch wait = .ok (t, dispatched)) :
    dispatched.length = s.poller.events_.length := by
  have hle := length_reported_le s wait
  unfold reported at h hle
  unfold dispatch poll at hd
  cases hw : wait (castInt s.poller.events_.length) with
  | failed errno =>
    rw [hw] at h
    exact absurd rfl h
  | happened entries le =>
    rw [hw, WaitResult.entries] at h hle
    simp only [hw, if_pos (List.length_pos_iff.2 h)] at hd
    obtain ⟨⟨u, active⟩, hpoll, hret⟩ := bind_eq_ok.1 hd
    obtain ⟨⟨channel, active'⟩, hfill, hret'⟩ := bind_eq_ok.1 hpoll
    obtain ⟨rfl, rfl⟩ := Prod.mk.inj (Except.ok.inj hret')
    obtain ⟨rfl, rfl⟩ := Prod.mk.inj (Except.ok.inj hret)
    have hover : (overwrite s.poller.events_ 0 (entries.map .report)).length =
        s.poller.events_.length := length_overwrite (by rw [List.length_map]; omega)
    rw [List.length_map, length_fillFrom hfill, List.length_nil, hover, Nat.zero_add]

/-- A poll whose entries fill `events_` dispatches their channels. -/
theorem dispatch_of_fills (hlen : (s.reported wait).length = s.poller.events_.length)
    (hone : ∀ e ∈ s.reported wait, ∀ e' ∈ s.reported wait, e.1 = e'.1 → e.2 = e'.2) :
    ∃ t, s.dispatch wait = .ok (t, s.reported wait) := by
  unfold reported at hlen hone ⊢
  unfold dispatch poll
  cases hw : wait (castInt s.poller.events_.length) with
  | failed errno => exact ⟨_, rfl⟩
  | happened entries le =>
    rw [hw, WaitResult.entries] at hlen hone
    -- the kernel has written every slot
    have hover : overwrite s.poller.events_ 0 (entries.map .report) = entries.map .report := by
      rw [overwrite, List.take_zero, List.nil_append, List.drop_eq_nil_of_le (by
        rw [List.length_map]; omega), List.append_nil]
    have hactive : (entries.map Prod.fst).map
        (fun i => (i, (setRevents s.channel entries i).revents_)) = entries := by
      rw [List.map_map]
      refine (List.map_congr_left fun e he => ?_).trans (List.map_id entries)
      have hrevents : (setRevents s.channel entries e.1).revents_ = e.2 :=
        revents_setRevents (fun e' he' h => hone e' he' e he h) (.inl ⟨e, he, rfl⟩)
      exact Prod.ext rfl hrevents
    by_cases hpos : 0 < entries.length
    · simp only [hpos, if_pos, EpollPoller.fillActivateChannels, hover, fillFrom_report, ok_bind,
        List.nil_append]
      exact ⟨_, congrArg (fun d => Except.ok (_, d)) hactive⟩
    · obtain rfl := List.length_eq_zero_iff.1 (Nat.eq_zero_of_not_pos hpos)
      exact ⟨_, rfl⟩

theorem exact_iff_fillsOrNone (s : Polled ι) (a : Action ι) : s.Exact a ↔ s.FillsOrNone a := by
  cases a with
  | call i c => exact Iff.rfl
  | poll wait =>
    constructor
    · rintro ⟨t, ht⟩
      by_cases hnil : s.reported wait = []
      · exact .inl hnil
      · refine .inr ⟨length_dispatch hnil ht, fun e he e' he' hee' => ?_⟩
        -- what is dispatched takes its mask from the channel
        obtain ⟨⟨u, active⟩, -, hret⟩ := bind_eq_ok.1 ht
        obtain ⟨rfl, hmap⟩ := Prod.mk.inj (Except.ok.inj hret)
        rw [← hmap] at he he'
        obtain ⟨i, -, rfl⟩ := List.mem_map.1 he
        obtain ⟨j, -, rfl⟩ := List.mem_map.1 he'
        obtain rfl : i = j := hee'
        rfl
    · rintro (hnil | ⟨hlen, hone⟩)
      · obtain ⟨t, ht⟩ := dispatch_of_reported_nil hnil
        exact ⟨t, by rw [ht, hnil]⟩
      · exact dispatch_of_fills hlen hone

/-- **Dispatch, exactly**: over any run of polls and calls, every poll dispatches just what the
kernel reported if and only if every poll reports nothing or fills `events_`, with one mask for
each channel. -/
theorem exact_iff (s : Polled ι) (actions : List (Action ι)) :
    Along step Exact s actions ↔ Along step FillsOrNone s actions :=
  along_iff exact_iff_fillsOrNone

end Polled

end

/-- One entry, when the code asks for at least one. -/
def oneEntry (i : ι) (m : Mask) : Wait ι := fun maxevents =>
  if h : 1 ≤ maxevents then .happened [(i, m)] h else .failed EINVAL

/-- A new poller with one channel, watched for reading: the first poll that reports it runs into a
null slot. -/
theorem Polled.not_exact_first_event :
    ¬∀ actions : List (Polled.Action Unit),
      Along Polled.step Polled.Registered (Polled.construct fun _ => 5) actions →
        Along Polled.step Polled.Exact (Polled.construct fun _ => 5) actions := by
  intro h
  have hregistered : ∀ t, Polled.step (Polled.construct fun _ => 5) (.call () .enableReading) =
      .ok t → t.Registered (.poll (oneEntry () EPOLLIN)) := by
    rintro t ht e he
    obtain rfl := Except.ok.inj ht
    obtain rfl : e = ((), EPOLLIN) := List.mem_singleton.1 he
    exact Option.some_ne_none _
  obtain ⟨-, hpoll⟩ := h [.call () .enableReading, .poll (oneEntry () EPOLLIN)]
    ⟨trivial, fun t ht => ⟨hregistered t ht, fun _ _ => trivial⟩⟩
  obtain ⟨⟨u, hu⟩, -⟩ := hpoll _ rfl
  cases hu

end Muduo
