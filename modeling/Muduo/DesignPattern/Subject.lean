import Muduo.DesignPattern.Observer

/-!
# A subject and its threads

Any thread may create a message: under `msg_mutex_` it stores the message to `current_message_`, and
`notify` appends what it finds there to the queue. The thread `notification_thread_` takes the
messages from the queue and passes each to the observers of the list that are still alive, with a
`shared_ptr` to the subject that it gets from `shared_from_this`. When the last `shared_ptr` is
gone, `~Subject` has the worker return, and joins it.

`Subject` is a subject with these threads, and two histories: the messages in the order in which
`create_message` acquired `msg_mutex_`, and for every message that the worker is done with the
observers that it has been passed to. What a thread does under `notification_mutex_` is one step.
The threads that create messages hold a `shared_ptr`, so that the last one outside of the worker is
released when no message is being created.
-/

namespace Muduo.DesignPattern

open Run

variable {σ τ ο κ : Type}

/-- A message, by its characters. -/
abbrev Message := List Char

/-- Where a thread is in `create_message`. -/
inductive Pc
  | idle
  | locked (msg : Message)
  /-- `current_message_` is stored. -/
  | stored
  /-- `notify` has returned. -/
  | notified

/-- Where the worker is. `it` is its place in the list of observers, and `passed` are those to which
it has passed the message. -/
inductive WorkerPc (ο : Type)
  | waiting
  | popped (msg : Message)
  | visiting (msg : Message) (passed : List ο) (it : ℕ)
  /-- Inside `update`, with a `shared_ptr` to the subject. -/
  | updating (msg : Message) (passed : List ο) (it : ℕ)
  | returned

/-- Where `~Subject` is. -/
inductive DestructorPc
  | idle
  | entered
  | joining
  | returned
  deriving DecidableEq

/-- A subject with its observers and its threads. -/
structure Subject (τ ο κ : Type) where
  observers_ : List ο
  /-- The observers that are still alive. -/
  live : ο → Bool
  /-- The callback that `update` of an observer calls for this subject. -/
  callback : ο → Option κ
  current_message_ : Message
  msg_mutex_ : Option τ
  notification_queue_ : List Message
  shutdown_ : Bool
  /-- There is a `shared_ptr` to the subject outside of the worker. -/
  shared : Bool
  thread : τ → Pc
  worker : WorkerPc ο
  destructor : DestructorPc
  acquired : List Message
  completed : List (Message × List ο)

namespace Subject

/-- A subject of which these registrations have been made, before its first message. -/
def start [DecidableEq σ] (w : Registrations σ ο κ) (subject : σ) (live : ο → Bool) :
    Subject τ ο κ where
  observers_ := w.observers_ subject
  live := live
  callback o := w.update o subject
  current_message_ := []
  msg_mutex_ := none
  notification_queue_ := []
  shutdown_ := false
  shared := true
  thread _ := .idle
  worker := .waiting
  destructor := .idle
  acquired := []
  completed := []

/-! ## The worker -/

/-- The worker is done with a message. -/
def complete (s : Subject τ ο κ) (msg : Message) (passed : List ο) : Subject τ ο κ :=
  { s with worker := .waiting, completed := s.completed ++ [(msg, passed)] }

/-- The worker waits for a message or for the shutdown, and takes a message. -/
def wait (s : Subject τ ο κ) : Subject τ ο κ :=
  match s.notification_queue_ with
  | [] => if s.shutdown_ then { s with worker := .returned } else s
  | msg :: queue => { s with notification_queue_ := queue, worker := .popped msg }

/-- A turn of the loop over the observers, up to the call of `update`. `shared_from_this` throws
when there is no `shared_ptr` left, and the worker catches the exception. -/
def visit (s : Subject τ ο κ) (msg : Message) (passed : List ο) (it : ℕ) : Subject τ ο κ :=
  match s.observers_[it]? with
  | none => s.complete msg passed
  | some observer =>
    if s.live observer then
      if s.shared then { s with worker := .updating msg (passed ++ [observer]) it }
      else { s with worker := .visiting msg passed (it + 1) }
    else { s with observers_ := s.observers_.eraseIdx it }

/-- `update` returns, or throws an exception that the worker catches. When its `shared_ptr` was the
last one, the worker destroys the subject and joins itself, which throws. -/
def leave (s : Subject τ ο κ) (msg : Message) (passed : List ο) (it : ℕ) :
    Except Fault (Subject τ ο κ) :=
  if s.shared then .ok { s with worker := .visiting msg passed (it + 1) } else .error .terminate

/-! ## Steps -/

/-- A step. -/
inductive Action (τ : Type)
  /-- The thread `t` calls `create_message`, and acquires `msg_mutex_`. -/
  | lock (t : τ) (msg : Message)
  | store (t : τ)
  | notify (t : τ)
  | unlock (t : τ)
  | wait
  /-- The worker looks whether its message is empty. -/
  | test
  | visit
  | leave (thrown : Bool)
  /-- The last `shared_ptr` outside of the worker is released. -/
  | release
  /-- `~Subject` sets `shutdown_`. -/
  | shutdown
  | join

/-- The release of the last `shared_ptr` outside of the worker: `~Subject` runs on this thread,
unless the worker has one. -/
def release (s : Subject τ ο κ) : Subject τ ο κ :=
  match s.worker with
  | .updating _ _ _ => { s with shared := false }
  | _ => { s with shared := false, destructor := .entered }

theorem release_eq (s : Subject τ ο κ) :
    ∃ pc, s.release = { s with shared := false, destructor := pc } := by
  unfold release
  split <;> exact ⟨_, rfl⟩

variable [DecidableEq τ]

/-- The thread `t` goes to `pc`. -/
def enter (s : Subject τ ο κ) (t : τ) (pc : Pc) : Subject τ ο κ :=
  { s with thread := Function.update s.thread t pc }

/-- `t` locks `msg_mutex_`, to notify of `msg`. -/
def lock (s : Subject τ ο κ) (t : τ) (msg : Message) : Subject τ ο κ :=
  { s with msg_mutex_ := some t, acquired := s.acquired ++ [msg] }.enter t (.locked msg)

/-- `t` queues what is in `current_message_`. -/
def notify (s : Subject τ ο κ) (t : τ) : Subject τ ο κ :=
  { s with notification_queue_ := s.notification_queue_ ++ [s.current_message_] }.enter t .notified

/-- A step; one that cannot be taken changes nothing. -/
def step (s : Subject τ ο κ) : Action τ → Except Fault (Subject τ ο κ)
  | .lock t msg =>
    match s.shared, s.msg_mutex_ with
    | true, none => .ok (s.lock t msg)
    | _, _ => .ok s
  | .store t =>
    match s.thread t with
    | .locked msg => .ok ({ s with current_message_ := msg }.enter t .stored)
    | _ => .ok s
  | .notify t =>
    match s.thread t with
    | .stored => .ok (s.notify t)
    | _ => .ok s
  | .unlock t =>
    match s.thread t with
    | .notified => .ok ({ s with msg_mutex_ := none }.enter t .idle)
    | _ => .ok s
  | .wait =>
    match s.worker with
    | .waiting => .ok s.wait
    | _ => .ok s
  | .test =>
    match s.worker with
    | .popped [] => .ok (s.complete [] [])
    | .popped msg => .ok { s with worker := .visiting msg [] 0 }
    | _ => .ok s
  | .visit =>
    match s.worker with
    | .visiting msg passed it => .ok (s.visit msg passed it)
    | _ => .ok s
  | .leave _ =>
    match s.worker with
    | .updating msg passed it => s.leave msg passed it
    | _ => .ok s
  | .release =>
    match s.shared, s.msg_mutex_ with
    | true, none => .ok s.release
    | _, _ => .ok s
  | .shutdown =>
    match s.destructor with
    | .entered => .ok { s with shutdown_ := true, destructor := .joining }
    | _ => .ok s
  | .join =>
    match s.destructor, s.worker with
    | .joining, .returned => .ok { s with destructor := .returned }
    | _, _ => .ok s

/-! ## What a step does -/

/-- What a step does. -/
inductive Steps (s : Subject τ ο κ) : Subject τ ο κ → Prop
  | stay : Steps s s
  | lock (t : τ) (msg : Message) (hshared : s.shared = true) (hmutex : s.msg_mutex_ = none) :
      Steps s (s.lock t msg)
  | store (t : τ) (msg : Message) (ht : s.thread t = .locked msg) :
      Steps s ({ s with current_message_ := msg }.enter t .stored)
  | notify (t : τ) (ht : s.thread t = .stored) : Steps s (s.notify t)
  | unlock (t : τ) (ht : s.thread t = .notified) :
      Steps s ({ s with msg_mutex_ := none }.enter t .idle)
  | take (msg : Message) (queue : List Message) (hworker : s.worker = .waiting)
      (hqueue : s.notification_queue_ = msg :: queue) :
      Steps s { s with notification_queue_ := queue, worker := .popped msg }
  | finish (hworker : s.worker = .waiting) (hqueue : s.notification_queue_ = [])
      (hshutdown : s.shutdown_ = true) : Steps s { s with worker := .returned }
  | skip (hworker : s.worker = .popped []) : Steps s (s.complete [] [])
  | attend (msg : Message) (hmsg : msg ≠ []) (hworker : s.worker = .popped msg) :
      Steps s { s with worker := .visiting msg [] 0 }
  | finished (msg : Message) (passed : List ο) (it : ℕ) (hworker : s.worker = .visiting msg passed it)
      (hit : s.observers_.length ≤ it) : Steps s (s.complete msg passed)
  | pass (msg : Message) (passed : List ο) (it : ℕ) (observer : ο)
      (hworker : s.worker = .visiting msg passed it) (hit : s.observers_[it]? = some observer)
      (hlive : s.live observer = true) (hshared : s.shared = true) :
      Steps s { s with worker := .updating msg (passed ++ [observer]) it }
  | throws (msg : Message) (passed : List ο) (it : ℕ) (observer : ο)
      (hworker : s.worker = .visiting msg passed it) (hit : s.observers_[it]? = some observer)
      (hshared : s.shared = false) : Steps s { s with worker := .visiting msg passed (it + 1) }
  | erase (msg : Message) (passed : List ο) (it : ℕ) (observer : ο)
      (hworker : s.worker = .visiting msg passed it) (hit : s.observers_[it]? = some observer)
      (hlive : s.live observer = false) : Steps s { s with observers_ := s.observers_.eraseIdx it }
  | leave (msg : Message) (passed : List ο) (it : ℕ) (hworker : s.worker = .updating msg passed it)
      (hshared : s.shared = true) : Steps s { s with worker := .visiting msg passed (it + 1) }
  | release (hshared : s.shared = true) (hmutex : s.msg_mutex_ = none) : Steps s s.release
  | shutdown (hdestructor : s.destructor = .entered) :
      Steps s { s with shutdown_ := true, destructor := .joining }
  | join (hdestructor : s.destructor = .joining) (hworker : s.worker = .returned) :
      Steps s { s with destructor := .returned }

theorem step_ok {s t : Subject τ ο κ} {a : Action τ} (h : s.step a = .ok t) : s.Steps t := by
  have hsame : Except.ok s = (.ok t : Except Fault (Subject τ ο κ)) → s.Steps t :=
    fun h => Except.ok.inj h ▸ .stay
  cases a with
  | lock i msg =>
    simp only [step] at h
    split at h
    next hshared hmutex => exact Except.ok.inj h ▸ .lock i msg hshared hmutex
    next => exact hsame h
  | store i =>
    simp only [step] at h
    split at h
    next msg hi => exact Except.ok.inj h ▸ .store i msg hi
    next => exact hsame h
  | notify i =>
    simp only [step] at h
    split at h
    next hi => exact Except.ok.inj h ▸ .notify i hi
    next => exact hsame h
  | unlock i =>
    simp only [step] at h
    split at h
    next hi => exact Except.ok.inj h ▸ .unlock i hi
    next => exact hsame h
  | wait =>
    simp only [step] at h
    split at h
    next hworker =>
      obtain rfl := Except.ok.inj h
      unfold wait
      split
      next hqueue =>
        split
        next hshutdown => exact .finish hworker hqueue hshutdown
        next => exact .stay
      next msg queue hqueue => exact .take msg queue hworker hqueue
    next => exact hsame h
  | test =>
    simp only [step] at h
    split at h
    next hworker => exact Except.ok.inj h ▸ .skip hworker
    next msg hne hworker => exact Except.ok.inj h ▸ .attend msg hne hworker
    next => exact hsame h
  | visit =>
    simp only [step] at h
    split at h
    next msg passed it hworker =>
      obtain rfl := Except.ok.inj h
      unfold visit
      split
      next hit => exact .finished msg passed it hworker (List.getElem?_eq_none_iff.1 hit)
      next observer hit =>
        split
        next hlive =>
          split
          next hshared => exact .pass msg passed it observer hworker hit hlive hshared
          next hshared => exact .throws msg passed it observer hworker hit (by simpa using hshared)
        next hlive => exact .erase msg passed it observer hworker hit (by simpa using hlive)
    next => exact hsame h
  | leave thrown =>
    simp only [step] at h
    split at h
    next msg passed it hworker =>
      unfold leave at h
      split at h
      next hshared => exact Except.ok.inj h ▸ .leave msg passed it hworker hshared
      next => cases h
    next => exact hsame h
  | release =>
    simp only [step] at h
    split at h
    next hshared hmutex => exact Except.ok.inj h ▸ .release hshared hmutex
    next => exact hsame h
  | shutdown =>
    simp only [step] at h
    split at h
    next hdestructor => exact Except.ok.inj h ▸ .shutdown hdestructor
    next => exact hsame h
  | join =>
    simp only [step] at h
    split at h
    next hdestructor hworker => exact Except.ok.inj h ▸ .join hdestructor hworker
    next => exact hsame h

/-! ## The messages -/

/-- The message in delivery. -/
def inDelivery (s : Subject τ ο κ) : List Message :=
  match s.worker with
  | .popped msg | .visiting msg _ _ | .updating msg _ _ => [msg]
  | .waiting | .returned => []

/-- The message of the thread that holds `msg_mutex_`, until it is in the queue. -/
def unqueued (s : Subject τ ο κ) : List Message :=
  match s.msg_mutex_ with
  | none => []
  | some t =>
    match s.thread t with
    | .locked msg => [msg]
    | .stored => [s.current_message_]
    | .idle | .notified => []

/-- The callbacks of an observer that a message calls when it is passed to these. -/
def calls [DecidableEq ο] (s : Subject τ ο κ) (passed : List ο) (observer : ο) : List κ :=
  passed.filterMap fun o => if o = observer then s.callback o else none

end Subject

end Muduo.DesignPattern
