import Mathlib.Data.List.AList
import Mathlib.Logic.Function.Basic
import Muduo.Machine

/-!
# Subjects and observers

A registration of an observer with a subject is stored twice: the observer maps the subject to its
callback, and the subject lists the observer. `Registrations` is both sides, for subjects and
observers that are alive, so that every `weak_ptr` can be locked. The order in which a
`std::map` goes through subjects is that of their addresses; here it is the order of the entries,
and nothing depends on it.
-/

namespace Muduo.DesignPattern

open Run

variable {σ ο κ : Type}

/-- The two sides of all registrations. -/
structure Registrations (σ ο κ : Type) where
  observers_ : σ → List ο
  callback_map_ : ο → AList fun _ : σ => κ

namespace Registrations

/-- No observer is registered. -/
def empty : Registrations σ ο κ := ⟨fun _ => [], fun _ => ∅⟩

section

variable [DecidableEq σ] [DecidableEq ο]

/-- `attach` adds an entry, whether or not the observer has one. -/
def attach (w : Registrations σ ο κ) (subject : σ) (observer : ο) : Registrations σ ο κ :=
  { w with
    observers_ := Function.update w.observers_ subject (w.observers_ subject ++ [observer]) }

/-- `detach` erases the first entry of the observer. -/
def detach (w : Registrations σ ο κ) (subject : σ) (observer : ο) : Registrations σ ο κ :=
  { w with
    observers_ := Function.update w.observers_ subject ((w.observers_ subject).erase observer) }

/-- `callback_map_.erase`. -/
def eraseCallback (w : Registrations σ ο κ) (self : ο) (subject : σ) : Registrations σ ο κ :=
  { w with
    callback_map_ := Function.update w.callback_map_ self ((w.callback_map_ self).erase subject) }

/-- `set_callback`: the callback for the subject is replaced, and the observer is attached again. -/
def setCallback (w : Registrations σ ο κ) (self : ο) (subject : σ) (cb : κ) :
    Registrations σ ο κ :=
  { w with
    callback_map_ := Function.update w.callback_map_ self
      ((w.callback_map_ self).insert subject cb) }.attach subject self

/-- `remove_from_subject` dereferences what `find` returns, which is the end of the map when the
subject is not in it. -/
def removeFromSubject (w : Registrations σ ο κ) (self : ο) (subject : σ) :
    Except Fault (Registrations σ ο κ) :=
  if subject ∈ w.callback_map_ self then .ok ((w.detach subject self).eraseCallback self subject)
  else .error .outOfBounds

/-- `remove_self` detaches and erases one subject of the map after the other. -/
def removeSelf (w : Registrations σ ο κ) (self : ο) : Registrations σ ο κ :=
  (w.callback_map_ self).keys.foldl
    (fun w subject => (w.detach subject self).eraseCallback self subject) w

/-- The callback that `update` calls, if any. -/
def update (w : Registrations σ ο κ) (self : ο) (subject : σ) : Option κ :=
  (w.callback_map_ self).lookup subject

/-- The callbacks of an observer that a message of the subject calls: the subject goes through its
list, and calls `update` for every entry. -/
def invoked (w : Registrations σ ο κ) (subject : σ) (observer : ο) : List κ :=
  (w.observers_ subject).filterMap fun o => if o = observer then w.update o subject else none

/-! ## Runs -/

/-- A call of an observer. -/
inductive Action (σ ο κ : Type)
  | setCallback (self : ο) (subject : σ) (cb : κ)
  | removeFromSubject (self : ο) (subject : σ)
  | removeSelf (self : ο)

/-- A call on an observer. -/
def step (w : Registrations σ ο κ) : Action σ ο κ → Except Fault (Registrations σ ο κ)
  | .setCallback self subject cb => .ok (w.setCallback self subject cb)
  | .removeFromSubject self subject => w.removeFromSubject self subject
  | .removeSelf self => .ok (w.removeSelf self)

/-! ## Both sides of a registration -/

/-- The observer has a callback for the subject. -/
def Registered (w : Registrations σ ο κ) (subject : σ) (observer : ο) : Prop :=
  subject ∈ w.callback_map_ observer

instance (w : Registrations σ ο κ) (subject : σ) (observer : ο) :
    Decidable (w.Registered subject observer) :=
  inferInstanceAs (Decidable (subject ∈ (w.callback_map_ observer).keys))

/-- The entries of the observer in the list of the subject. -/
def entries (w : Registrations σ ο κ) (subject : σ) (observer : ο) : ℕ :=
  (w.observers_ subject).count observer

end

end Registrations

end Muduo.DesignPattern
