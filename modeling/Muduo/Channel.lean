import Mathlib.Data.Int.Notation
import Mathlib.Data.Nat.Notation
import Mathlib.Tactic.Common

/-!
# The channel

A `Channel` is one descriptor with the events its loop watches it for (`events_`), the events that
happened (`revents_`), its standing with the poller (`index_`), and the callbacks to run. The
functions below are those of `Channel.h` and `Channel.cpp` that stay inside the channel; the ones
that also tell the poller are in `Muduo.EpollPoller`.
-/

namespace Muduo

/-! ## Event masks -/

/-- A set of epoll events. -/
abbrev Mask := BitVec 32

def EPOLLIN : Mask := 0x001

def EPOLLPRI : Mask := 0x002

def EPOLLOUT : Mask := 0x004

def EPOLLERR : Mask := 0x008

def EPOLLHUP : Mask := 0x010

/-- Some event of `e` is in `m`, the test `m & e` of the source. -/
def Mask.meets (m e : Mask) : Bool := m &&& e != 0

/-! ## Channels -/

/-- The values of `Channel::index_`, defined in `EpollPoller.cpp`. A channel starts as `kNew`. -/
inductive Index
  | kNew
  | kAdd
  | kDelete
  deriving DecidableEq

/-- A callback of a channel. -/
inductive EventCallback
  | close
  | error
  | read
  | write
  deriving DecidableEq

/-- `Channel`. Of a callback the channel only looks at whether it is set. -/
structure Channel where
  fd_ : ℕ
  events_ : Mask
  revents_ : Mask
  index_ : Index
  tied_ : Bool
  readCallBack_ : Bool
  writeCallBack_ : Bool
  closeCallBack_ : Bool
  errorCallBack_ : Bool
  deriving DecidableEq

namespace Channel

/-- No event, which is also what a channel watches for at first. -/
def kNoneEvent : Mask := 0x00

/-- The events of reading. `EPOLLPRI` is among them. -/
def kReadEvent : Mask := EPOLLIN ||| EPOLLPRI

/-- The events of writing. The source has `EPOLLPRI` among them too. -/
def kWriteEvent : Mask := EPOLLOUT ||| EPOLLPRI

/-- The constructor. -/
def construct (fd : ℕ) : Channel where
  fd_ := fd
  events_ := 0
  revents_ := 0
  index_ := .kNew
  tied_ := false
  readCallBack_ := false
  writeCallBack_ := false
  closeCallBack_ := false
  errorCallBack_ := false

/-- The poller reports what has happened. -/
def set_revents (c : Channel) (revt : Mask) : Channel := { c with revents_ := revt }

/-- The channel watches for nothing. -/
def isNoneEvent (c : Channel) : Bool := c.events_ == kNoneEvent

/-- Some event of `kWriteEvent` is watched for. -/
def isWriting (c : Channel) : Bool := Mask.meets c.events_ kWriteEvent

/-- Some event of `kReadEvent` is watched for. -/
def isReading (c : Channel) : Bool := Mask.meets c.events_ kReadEvent

/-- The poller notes the standing of the channel. -/
def set_index (c : Channel) (idx : Index) : Channel := { c with index_ := idx }

/-- `tie`; what it is tied to is the object that owns the channel. -/
def tie (c : Channel) : Channel := { c with tied_ := true }

/-- The callbacks `handleEventWithGuard` runs, in order. None of them changes `revents_`. -/
def handleEventWithGuard (c : Channel) : List EventCallback :=
  (if c.revents_.meets EPOLLHUP && !c.revents_.meets EPOLLIN && c.closeCallBack_ then [.close]
    else []) ++
  (if c.revents_.meets EPOLLERR && c.errorCallBack_ then [.error] else []) ++
  (if c.revents_.meets EPOLLIN && c.readCallBack_ then [.read] else []) ++
  (if c.revents_.meets EPOLLOUT && c.writeCallBack_ then [.write] else [])

/-- The callbacks `handleEvent` runs; `alive` is whether `tie_.lock()` finds the owner alive. -/
def handleEvent (c : Channel) (alive : Bool) : List EventCallback :=
  if c.tied_ then
    if alive then c.handleEventWithGuard else []
  else c.handleEventWithGuard

end Channel

end Muduo
