import Muduo.EpollPoller

/-!
# Any number of channels on one poller

`Polled` is a poller with the channels that share it, and `Polled.call` a call on one of them. The
invariant is that every channel agrees with the poller (`Polled.Agreeing`): a call keeps the channel
it is made on in agreement (`Call.exec_spec`), and every other one because their descriptors differ
(`Frame.agrees`). `agreement` reads off what this says of the three copies of a registration after
any sequence of calls.
-/

namespace Muduo

open Run

variable {ι : Type}

/-- A call on a channel that reaches the poller. -/
inductive Channel.Call
  | enableReading
  | disableReading
  | enableWriting
  | disableWriting
  | disableAll
  | remove
  deriving DecidableEq

/-- The call, with the poller and the channel after it. -/
def Channel.Call.exec (p : EpollPoller ι) (self : ι) (c : Channel) :
    Channel.Call → Except Fault (EpollPoller ι × Channel)
  | .enableReading => c.enableReading p self
  | .disableReading => c.disableReading p self
  | .enableWriting => c.enableWriting p self
  | .disableWriting => c.disableWriting p self
  | .disableAll => c.disableAll p self
  | .remove => c.remove p self

/-- The channel after a call. -/
def Channel.Call.after (c : Channel) : Channel.Call → Channel
  | .enableReading => c.watched (c.events_ ||| kReadEvent)
  | .disableReading => c.watched (c.events_ &&& ~~~kReadEvent)
  | .enableWriting => c.watched (c.events_ ||| kWriteEvent)
  | .disableWriting => c.watched (c.events_ &&& ~~~kWriteEvent)
  | .disableAll => c.watched kNoneEvent
  | .remove => { c with index_ := .kNew }

@[simp] theorem Channel.Call.fd_after (c : Channel) (call : Channel.Call) :
    (call.after c).fd_ = c.fd_ := by
  cases call <;> rfl

/-- Every call on a channel that agrees succeeds, keeps the agreement, and touches no other
descriptor. -/
theorem Channel.Call.exec_spec {p : EpollPoller ι} {self : ι} {c : Channel} (h : Agrees p self c)
    (call : Channel.Call) :
    ∃ p', call.exec p self c = .ok (p', call.after c) ∧ Agrees p' self (call.after c) ∧
      Frame p p' c.fd_ := by
  cases call with
  | remove => exact remove_spec h
  | enableReading | disableReading | enableWriting | disableWriting | disableAll =>
    exact watch_spec h _

/-- A poller and the channels that share it. -/
structure Polled (ι : Type) where
  poller : EpollPoller ι
  channel : ι → Channel

namespace Polled

/-- A new poller, and a new channel for every descriptor of `fd`. -/
def construct (fd : ι → ℕ) : Polled ι := ⟨.construct, fun i => .construct (fd i)⟩

/-- A call on the channel `a.1`. -/
def call [DecidableEq ι] (s : Polled ι) (a : ι × Channel.Call) : Except Fault (Polled ι) := do
  let (p, c) ← a.2.exec s.poller a.1 (s.channel a.1)
  return ⟨p, Function.update s.channel a.1 c⟩

/-- The invariant: every channel has its own descriptor and agrees with the poller, and no
`epoll_ctl` has failed. -/
structure Agreeing (fd : ι → ℕ) (s : Polled ι) : Prop where
  fd_eq : ∀ i, (s.channel i).fd_ = fd i
  agrees : ∀ i, Agrees s.poller i (s.channel i)
  failures_eq : s.poller.epoll.failures = 0

theorem construct_agreeing (fd : ι → ℕ) : (construct fd).Agreeing fd :=
  ⟨fun _ => rfl, fun _ => rfl, rfl⟩

variable [DecidableEq ι]

theorem call_agreeing {fd : ι → ℕ} (hfd : fd.Injective) {s : Polled ι} (hs : s.Agreeing fd)
    (a : ι × Channel.Call) : ∃ t, s.call a = .ok t ∧ t.Agreeing fd := by
  obtain ⟨i, call⟩ := a
  obtain ⟨p, hret, hagrees, hframe⟩ := call.exec_spec (hs.agrees i)
  refine ⟨⟨p, Function.update s.channel i (call.after (s.channel i))⟩, ?_, ?_, ?_, ?_⟩
  · rw [Polled.call, hret]
    rfl
  · intro j
    by_cases hj : j = i
    · subst hj
      simpa only [Function.update_self, Channel.Call.fd_after] using hs.fd_eq j
    · simpa only [Function.update_of_ne hj] using hs.fd_eq j
  · intro j
    by_cases hj : j = i
    · subst hj
      simpa only [Function.update_self] using hagrees
    · have hne : (s.channel j).fd_ ≠ (s.channel i).fd_ := by
        rw [hs.fd_eq, hs.fd_eq]
        exact hfd.ne hj
      simpa only [Function.update_of_ne hj] using hframe.agrees hne (hs.agrees j)
  · exact hframe.failures_eq.trans hs.failures_eq

/-- **Agreement**: over any sequence of calls on channels with distinct descriptors, no `epoll_ctl`
fails, and the index of every channel says what the kernel and `channels_` hold for it. -/
theorem agreement {fd : ι → ℕ} (hfd : fd.Injective) (calls : List (ι × Channel.Call)) :
    ∃ s, run Polled.call (construct fd) calls = .ok s ∧ s.poller.epoll.failures = 0 ∧
      ∀ i, ((s.channel i).index_ = .kAdd ↔ s.poller.epoll.interest (fd i) ≠ none) ∧
        (∀ e, s.poller.epoll.interest (fd i) = some e → e.events = (s.channel i).events_) ∧
        ((s.channel i).index_ ≠ .kNew ↔ s.poller.channels_ (fd i) = some i) := by
  obtain ⟨s, hrun, hs⟩ :=
    progress (fun _ a hs => call_agreeing hfd hs a) (construct_agreeing fd) calls
  refine ⟨s, hrun, hs.failures_eq, fun i => ?_⟩
  obtain ⟨hmap, hkernel⟩ := agrees_iff.1 (hs.agrees i)
  rw [hs.fd_eq] at hmap hkernel
  rw [hmap, hkernel]
  cases hi : (s.channel i).index_ <;> simp [Channel.entry, hi]

/-- Two channels: one is removed twice and enabled again, the other watched and turned off. -/
theorem agreement_two :
    ∃ s, run Polled.call (construct (fun i : Fin 2 => (i : ℕ) + 5))
        [(0, .enableReading), (1, .enableWriting), (0, .remove), (0, .remove), (1, .disableAll),
          (0, .enableReading)] = .ok s ∧ s.poller.epoll.failures = 0 ∧
      ∀ i, ((s.channel i).index_ = .kAdd ↔ s.poller.epoll.interest (i + 5) ≠ none) ∧
        (∀ e, s.poller.epoll.interest (i + 5) = some e → e.events = (s.channel i).events_) ∧
        ((s.channel i).index_ ≠ .kNew ↔ s.poller.channels_ (i + 5) = some i) :=
  agreement (fun i j h => by ext; simpa using h) _

end Polled

end Muduo
