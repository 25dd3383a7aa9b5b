import Mathlib.Logic.Function.Basic
import Muduo.Channel
import Muduo.Machine

/-!
# The poller

`EpollPoller` keeps the registration of a channel in three places: the `index_` of the channel, the
map `channels_` from descriptors to channels, and the interest set of the kernel, which `Epoll`
models as a map from descriptors to what was last registered for them. `updateChannel` and
`removeChannel` follow `EpollPoller.cpp`; channels are named by a type `ι` of pointers.

`Channel.entry` is what the other two places should hold for a channel, and `Agrees` that they do.
`updateChannel_spec` and `removeChannel_spec` are what the two calls do to a channel that agrees:
no `epoll_ctl` fails, the channel agrees again, and no other descriptor is touched.
-/

namespace Muduo

open Run

variable {ι : Type}

/-! ## The kernel's interest set -/

/-- `struct epoll_event`; a null `data.ptr` is `none`. -/
structure EpollEvent (ι : Type) where
  events : Mask
  ptr : Option ι
  deriving DecidableEq

/-- The operation of an `epoll_ctl`. -/
inductive CtlOp
  | EPOLL_CTL_ADD
  | EPOLL_CTL_MOD
  | EPOLL_CTL_DEL
  deriving DecidableEq

/-- An epoll instance: what is registered for each descriptor. `failures` counts the `epoll_ctl`
calls that returned `-1`. -/
structure Epoll (ι : Type) where
  interest : ℕ → Option (EpollEvent ι)
  failures : ℕ

/-- `epoll_ctl`, and whether it succeeds: `ADD` fails when the descriptor is registered, `MOD` and
`DEL` when it is not. -/
def Epoll.epoll_ctl (k : Epoll ι) (op : CtlOp) (fd : ℕ) (event : EpollEvent ι) : Epoll ι × Bool :=
  match op, k.interest fd with
  | .EPOLL_CTL_ADD, none | .EPOLL_CTL_MOD, some _ =>
    ({ k with interest := Function.update k.interest fd (some event) }, true)
  | .EPOLL_CTL_DEL, some _ => ({ k with interest := Function.update k.interest fd none }, true)
  | _, _ => ({ k with failures := k.failures + 1 }, false)

/-! ## The poller -/

/-- `EpollPoller`, with the epoll instance of its `epoll_fd_`. -/
structure EpollPoller (ι : Type) where
  channels_ : ℕ → Option ι
  events_ : List (EpollEvent ι)
  epoll : Epoll ι

namespace EpollPoller

/-- The number of slots that `events_` starts with. -/
def kInitEventsListSize : ℕ := 16

/-- The constructor. -/
def construct : EpollPoller ι where
  channels_ _ := none
  events_ := List.replicate kInitEventsListSize ⟨0, none⟩
  epoll := ⟨fun _ => none, 0⟩

/-- `update`: a failed `DEL` is logged, any other failure is fatal. -/
def update (p : EpollPoller ι) (operation : CtlOp) (self : ι) (channel : Channel) :
    Except Fault (EpollPoller ι) :=
  let (epoll, succeeds) :=
    p.epoll.epoll_ctl operation channel.fd_ ⟨channel.events_, some self⟩
  if succeeds || operation = .EPOLL_CTL_DEL then .ok { p with epoll := epoll }
  else .error .fatal

/-- `updateChannel`: a channel that the kernel does not watch is added, and one that watches for
nothing is deleted from what it watches. -/
def updateChannel (p : EpollPoller ι) (self : ι) (channel : Channel) :
    Except Fault (EpollPoller ι × Channel) :=
  let index := channel.index_
  if index = .kNew ∨ index = .kDelete then do
    let p := if index = .kNew then
        { p with channels_ := Function.update p.channels_ channel.fd_ (some self) }
      else p
    let channel := channel.set_index .kAdd
    return (← p.update .EPOLL_CTL_ADD self channel, channel)
  else if channel.isNoneEvent then do
    return (← p.update .EPOLL_CTL_DEL self channel, channel.set_index .kDelete)
  else do
    return (← p.update .EPOLL_CTL_MOD self channel, channel)

/-- `removeChannel`: the channel leaves `channels_`, and what the kernel watches if it is there. -/
def removeChannel (p : EpollPoller ι) (self : ι) (channel : Channel) :
    Except Fault (EpollPoller ι × Channel) := do
  let p := { p with channels_ := Function.update p.channels_ channel.fd_ none }
  let p ← if channel.index_ = .kAdd then p.update .EPOLL_CTL_DEL self channel else .ok p
  return (p, channel.set_index .kNew)

/-- `Poller::hasChannel`. -/
def hasChannel [DecidableEq ι] (p : EpollPoller ι) (self : ι) (channel : Channel) : Bool :=
  p.channels_ channel.fd_ = some self

end EpollPoller

/-! ## The calls on a channel that reach the poller -/

namespace Channel

/-- Set the events to watch for, and `update()`. -/
def watch (p : EpollPoller ι) (self : ι) (c : Channel) (events : Mask) :
    Except Fault (EpollPoller ι × Channel) :=
  p.updateChannel self { c with events_ := events }

/-- `enableReading`: the events of reading are added. -/
def enableReading (p : EpollPoller ι) (self : ι) (c : Channel) :
    Except Fault (EpollPoller ι × Channel) :=
  c.watch p self (c.events_ ||| kReadEvent)

/-- `disableReading`: the events of reading are taken away, with `EPOLLPRI`. -/
def disableReading (p : EpollPoller ι) (self : ι) (c : Channel) :
    Except Fault (EpollPoller ι × Channel) :=
  c.watch p self (c.events_ &&& ~~~kReadEvent)

/-- `enableWriting`: the events of writing are added. -/
def enableWriting (p : EpollPoller ι) (self : ι) (c : Channel) :
    Except Fault (EpollPoller ι × Channel) :=
  c.watch p self (c.events_ ||| kWriteEvent)

/-- `disableWriting`: the events of writing are taken away, with `EPOLLPRI`. -/
def disableWriting (p : EpollPoller ι) (self : ι) (c : Channel) :
    Except Fault (EpollPoller ι × Channel) :=
  c.watch p self (c.events_ &&& ~~~kWriteEvent)

/-- `disableAll`: nothing is watched for. -/
def disableAll (p : EpollPoller ι) (self : ι) (c : Channel) :
    Except Fault (EpollPoller ι × Channel) :=
  c.watch p self kNoneEvent

/-- `remove`, which asks the loop for `removeChannel`. -/
def remove (p : EpollPoller ι) (self : ι) (c : Channel) :
    Except Fault (EpollPoller ι × Channel) :=
  p.removeChannel self c

end Channel

/-! ## Agreement -/

/-- What `channels_` and the kernel hold for one descriptor. -/
structure Entry (ι : Type) where
  inMap : Option ι
  inKernel : Option (EpollEvent ι)

/-- What the poller holds for a descriptor. -/
def EpollPoller.entry (p : EpollPoller ι) (fd : ℕ) : Entry ι :=
  ⟨p.channels_ fd, p.epoll.interest fd⟩

/-- What the poller should hold for a channel, going by the index of the channel. -/
def Channel.entry (self : ι) (c : Channel) : Entry ι :=
  match c.index_ with
  | .kNew => ⟨none, none⟩
  | .kAdd => ⟨some self, some ⟨c.events_, some self⟩⟩
  | .kDelete => ⟨some self, none⟩

/-- The channel `i` is what `channels_` or the kernel holds. -/
def Entry.Mentions (e : Entry ι) (i : ι) : Prop :=
  e.inMap = some i ∨ ∃ event ∈ e.inKernel, event.ptr = some i

instance [DecidableEq ι] (e : Entry ι) (i : ι) : Decidable (e.Mentions i) :=
  inferInstanceAs (Decidable (_ = _ ∨ ∃ event ∈ e.inKernel, event.ptr = some i))

theorem Channel.eq_of_mentions {self i : ι} {c : Channel} (h : (c.entry self).Mentions i) :
    i = self := by
  unfold Channel.entry at h
  cases hi : c.index_ <;> simp_all [Entry.Mentions, eq_comm]

/-- The poller holds for the channel what its index says. -/
def Agrees (p : EpollPoller ι) (self : ι) (c : Channel) : Prop := p.entry c.fd_ = c.entry self

theorem agrees_iff {p : EpollPoller ι} {self : ι} {c : Channel} :
    Agrees p self c ↔ p.channels_ c.fd_ = (c.entry self).inMap ∧
      p.epoll.interest c.fd_ = (c.entry self).inKernel := by
  unfold Agrees EpollPoller.entry
  cases c.entry self
  simp

/-- From `p` to `p'` only the entry of `fd` may have changed, and no `epoll_ctl` has failed. -/
structure Frame (p p' : EpollPoller ι) (fd : ℕ) : Prop where
  entry_eq : ∀ fd', fd' ≠ fd → p'.entry fd' = p.entry fd'
  failures_eq : p'.epoll.failures = p.epoll.failures

/-- A channel of another descriptor keeps agreeing. -/
theorem Frame.agrees {p p' : EpollPoller ι} {fd : ℕ} (h : Frame p p' fd) {other : ι} {c : Channel}
    (hfd : c.fd_ ≠ fd) (hc : Agrees p other c) : Agrees p' other c :=
  (h.entry_eq _ hfd).trans hc

/-- Two updates of the entry of `fd` change that entry only. -/
theorem frame_update (p : EpollPoller ι) (fd : ℕ) (m : Option ι) (e : Option (EpollEvent ι)) :
    Frame p { p with
      channels_ := Function.update p.channels_ fd m
      epoll := { p.epoll with interest := Function.update p.epoll.interest fd e } } fd where
  entry_eq fd' h := by simp [EpollPoller.entry, h]
  failures_eq := rfl

/-- The index of a channel whose events become `events` and that is then updated. -/
def Index.updated (i : Index) (events : Mask) : Index :=
  if i = .kAdd ∧ events = Channel.kNoneEvent then .kDelete else .kAdd

/-- The channel after an `update()` under the events `events`. -/
def Channel.watched (c : Channel) (events : Mask) : Channel :=
  { c with events_ := events, index_ := c.index_.updated events }

/-- Storing in the map what it already holds. -/
theorem update_channels_self {p : EpollPoller ι} {fd : ℕ} {m : Option ι} (h : p.channels_ fd = m) :
    Function.update p.channels_ fd m = p.channels_ := by
  rw [← h, Function.update_eq_self]

/-- **`update()`** of a channel that agrees: it agrees again, under its new events and index. -/
theorem watch_spec {p : EpollPoller ι} {self : ι} {c : Channel} (h : Agrees p self c)
    (events : Mask) :
    ∃ p', c.watch p self events = .ok (p', c.watched events) ∧
      Agrees p' self (c.watched events) ∧ Frame p p' c.fd_ := by
  unfold Channel.watched
  obtain ⟨hmap, hkernel⟩ := agrees_iff.1 h
  cases hi : c.index_ with
  | kNew =>
    simp only [Channel.entry, hi] at hmap hkernel
    refine ⟨{ p with
      channels_ := Function.update p.channels_ c.fd_ (some self)
      epoll := { p.epoll with
        interest := Function.update p.epoll.interest c.fd_ (some ⟨events, some self⟩) } }, ?_, ?_,
      frame_update ..⟩
    · simp [Channel.watch, EpollPoller.updateChannel, EpollPoller.update, Epoll.epoll_ctl, hi,
        hkernel, Channel.set_index, Index.updated, pure, Except.pure]
    · simp [agrees_iff, Channel.entry, Index.updated]
  | kDelete =>
    simp only [Channel.entry, hi] at hmap hkernel
    refine ⟨{ p with
      channels_ := Function.update p.channels_ c.fd_ (some self)
      epoll := { p.epoll with
        interest := Function.update p.epoll.interest c.fd_ (some ⟨events, some self⟩) } }, ?_, ?_,
      frame_update ..⟩
    · rw [update_channels_self hmap]
      simp [Channel.watch, EpollPoller.updateChannel, EpollPoller.update, Epoll.epoll_ctl, hi,
        hkernel, Channel.set_index, Index.updated, pure, Except.pure]
    · simp [agrees_iff, Channel.entry, Index.updated]
  | kAdd =>
    simp only [Channel.entry, hi] at hmap hkernel
    by_cases he : events = Channel.kNoneEvent
    · refine ⟨{ p with
        channels_ := Function.update p.channels_ c.fd_ (some self)
        epoll := { p.epoll with interest := Function.update p.epoll.interest c.fd_ none } }, ?_, ?_,
        frame_update ..⟩
      · rw [update_channels_self hmap]
        simp [Channel.watch, EpollPoller.updateChannel, EpollPoller.update, Epoll.epoll_ctl, hi,
          hkernel, Channel.set_index, Channel.isNoneEvent, Index.updated, he, pure, Except.pure]
      · simp [agrees_iff, Channel.entry, Index.updated, he]
    · refine ⟨{ p with
        channels_ := Function.update p.channels_ c.fd_ (some self)
        epoll := { p.epoll with
          interest := Function.update p.epoll.interest c.fd_ (some ⟨events, some self⟩) } }, ?_, ?_,
        frame_update ..⟩
      · rw [update_channels_self hmap]
        simp [Channel.watch, EpollPoller.updateChannel, EpollPoller.update, Epoll.epoll_ctl, hi,
          hkernel, Channel.isNoneEvent, Index.updated, he, pure, Except.pure]
      · simp [agrees_iff, Channel.entry, Index.updated, he]

/-- **`remove()`** of a channel that agrees: it agrees again, as new. -/
theorem remove_spec {p : EpollPoller ι} {self : ι} {c : Channel} (h : Agrees p self c) :
    ∃ p', c.remove p self = .ok (p', { c with index_ := .kNew }) ∧
      Agrees p' self { c with index_ := .kNew } ∧ Frame p p' c.fd_ := by
  obtain ⟨hmap, hkernel⟩ := agrees_iff.1 h
  refine ⟨{ p with
    channels_ := Function.update p.channels_ c.fd_ none
    epoll := { p.epoll with interest := Function.update p.epoll.interest c.fd_ none } }, ?_, ?_,
    frame_update ..⟩
  · cases hi : c.index_ with
    | kAdd =>
      simp only [Channel.entry, hi] at hkernel
      simp [Channel.remove, EpollPoller.removeChannel, EpollPoller.update, Epoll.epoll_ctl, hi,
        hkernel, Channel.set_index, pure, Except.pure]
    | kNew | kDelete =>
      -- the kernel does not hold the descriptor
      simp only [Channel.entry, hi] at hkernel
      rw [← hkernel, Function.update_eq_self]
      simp [Channel.remove, EpollPoller.removeChannel, hi, Channel.set_index, pure, Except.pure]
  · simp [agrees_iff, Channel.entry]

end Muduo
