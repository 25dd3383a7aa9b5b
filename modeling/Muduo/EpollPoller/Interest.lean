import Muduo.EpollPoller.Unwatched
import Muduo.Foundations.Since

/-!
# The two interests of a channel

`kReadEvent` and `kWriteEvent` are masks of two events each and share `EPOLLPRI`; `isReading` and
`isWriting` ask for any event of a mask. Three flags say it all: `EPOLLIN` is set while an
`enableReading` is in effect, `EPOLLOUT` while an `enableWriting` is, and `EPOLLPRI` while the last
call on the channel was an enabling one.

`independent_iff`: at the end of a run of calls the two interests answer independently if and only
if, on every channel whose last call was an enabling one, both interests are in effect.
-/

namespace Muduo

open Run

/-! ## Masks -/

namespace Mask

theorem meets_or (m n e : Mask) : (m ||| n).meets e = (m.meets e || n.meets e) := by
  rw [Bool.eq_iff_iff]
  simp only [meets, bne_iff_ne, ne_eq, Bool.or_eq_true, BitVec.and_or_distrib_right,
    BitVec.ofNat_eq_ofNat, BitVec.or_eq_zero_iff]
  exact not_and_or

theorem meets_union (m e e' : Mask) : m.meets (e ||| e') = (m.meets e || m.meets e') := by
  rw [Bool.eq_iff_iff]
  simp only [meets, bne_iff_ne, ne_eq, Bool.or_eq_true, BitVec.and_or_distrib_left,
    BitVec.ofNat_eq_ofNat, BitVec.or_eq_zero_iff]
  exact not_and_or

/-- Taking `n` away keeps the events outside `n`. -/
theorem meets_and_not (m : Mask) {n e : Mask} (h : ~~~n &&& e = e) :
    (m &&& ~~~n).meets e = m.meets e := by
  rw [meets, BitVec.and_assoc, h, meets]

/-- Taking `n` away takes the events of `n`. -/
theorem not_meets_and_not (m : Mask) {n e : Mask} (h : ~~~n &&& e = 0) :
    (m &&& ~~~n).meets e = false := by
  simp [meets, BitVec.and_assoc, h]

end Mask

/-! ## Calls that set the interests -/

namespace Channel

/-- A kind of interest. -/
inductive Interest
  | reading
  | writing
  deriving DecidableEq

/-- The event the kind is named after. -/
def Interest.event : Interest → Mask
  | .reading => EPOLLIN
  | .writing => EPOLLOUT

/-- The events of the source that stand for the interest. -/
def Interest.mask : Interest → Mask
  | .reading => kReadEvent
  | .writing => kWriteEvent

/-- `isReading` or `isWriting`. -/
def Interest.answer (c : Channel) : Interest → Bool
  | .reading => c.isReading
  | .writing => c.isWriting

/-- A call that sets the interests of a channel: any but `remove`. -/
inductive Setting
  | enable (e : Interest)
  | disable (e : Interest)
  | disableAll
  deriving DecidableEq

/-- The call of the source that makes the setting. -/
def Setting.call : Setting → Channel.Call
  | .enable .reading => .enableReading
  | .enable .writing => .enableWriting
  | .disable .reading => .disableReading
  | .disable .writing => .disableWriting
  | .disableAll => .disableAll

/-- The events after the call. -/
def Setting.events (m : Mask) : Setting → Mask
  | .enable e => m ||| e.mask
  | .disable e => m &&& ~~~e.mask
  | .disableAll => kNoneEvent

theorem Setting.after_call (c : Channel) (x : Setting) :
    x.call.after c = c.watched (x.events c.events_) := by
  cases x with
  | enable e | disable e => cases e <;> rfl
  | disableAll => rfl

/-- The event of a kind is set by its `enable`, and cleared by its `disable` and `disableAll`. -/
theorem Setting.meets_event (m : Mask) (x : Setting) (e : Interest) :
    (x.events m).meets e.event = true ↔
      x = .enable e ∨ m.meets e.event = true ∧ ¬(x = .disable e ∨ x = .disableAll) := by
  cases x with
  | enable e' =>
    have hmask : e'.mask.meets e.event = true ↔ e' = e := by
      cases e' <;> cases e <;> decide
    simp [events, Mask.meets_or, hmask, or_comm]
  | disable e' =>
    by_cases he : e' = e
    · subst he
      have hclear : ~~~e'.mask &&& e'.event = 0 := by cases e' <;> decide
      simp [events, Mask.not_meets_and_not m hclear]
    · have hkeep : ~~~e'.mask &&& e.event = e.event := by
        cases e' <;> cases e <;> first | exact absurd rfl he | decide
      simp [events, Mask.meets_and_not m hkeep, he]
  | disableAll =>
    have hnone : Mask.meets kNoneEvent e.event = false := by cases e <;> decide
    simp [events, hnone]

/-- `EPOLLPRI` is set by every enabling call and cleared by every other one. -/
theorem Setting.meets_pri (m : Mask) (x : Setting) :
    (x.events m).meets EPOLLPRI = true ↔ ∃ e, x = .enable e := by
  cases x with
  | enable e =>
    have hmask : e.mask.meets EPOLLPRI = true := by cases e <;> decide
    simp [events, Mask.meets_or, hmask]
  | disable e =>
    have hclear : ~~~e.mask &&& EPOLLPRI = 0 := by cases e <;> decide
    simp [events, Mask.not_meets_and_not m hclear]
  | disableAll =>
    have hnone : Mask.meets kNoneEvent EPOLLPRI = false := by decide
    simp [events, hnone]

theorem Interest.answer_eq (c : Channel) (e : Interest) :
    e.answer c = (c.events_.meets e.event || c.events_.meets EPOLLPRI) := by
  cases e <;> exact Mask.meets_union _ _ _

end Channel

/-! ## Runs of such calls -/

namespace Polled

open Channel

variable {ι : Type} [DecidableEq ι]

/-- A call on the channel `a.1`. -/
def set (s : Polled ι) (a : ι × Setting) : Except Fault (Polled ι) := s.call (a.1, a.2.call)

/-- An `enable` of the kind on the channel has not been followed by a `disable` of the kind or a
`disableAll` on it. -/
def InEffect (calls : List (ι × Setting)) (i : ι) (e : Interest) : Prop :=
  Since (· = (i, .enable e)) (fun b => b = (i, .disable e) ∨ b = (i, .disableAll)) calls

/-- The last call on the channel was an enabling one. -/
def LastEnables (calls : List (ι × Setting)) (i : ι) : Prop :=
  Since (fun a => a.1 = i ∧ ∃ e, a.2 = .enable e) (fun b => b.1 = i) calls

theorem set_ok {s t : Polled ι} {i : ι} {x : Setting} (h : s.set (i, x) = .ok t) :
    t.channel = Function.update s.channel i
      ((s.channel i).watched (x.events (s.channel i).events_)) := by
  rw [(call_ok h).1, Setting.after_call]

/-- The channel after a call, on it or on another one. -/
theorem channel_set {s t : Polled ι} {a : ι × Setting} (h : s.set a = .ok t) (i : ι) :
    t.channel i = if a.1 = i then (s.channel i).watched (a.2.events (s.channel i).events_)
      else s.channel i := by
  obtain ⟨j, x⟩ := a
  rw [set_ok h]
  by_cases hj : j = i
  · subst hj
    rw [Function.update_self, if_pos rfl]
  · rw [Function.update_of_ne (Ne.symm hj), if_neg hj]

omit [DecidableEq ι] in
theorem events_construct (fd : ι → ℕ) (i : ι) :
    ((construct fd).channel i).events_ = kNoneEvent := rfl

variable {fd : ι → ℕ} {calls : List (ι × Setting)} {s : Polled ι}

theorem meets_event_iff (h : run set (construct fd) calls = .ok s) (i : ι) (e : Interest) :
    (s.channel i).events_.meets e.event = true ↔ InEffect calls i e := by
  refine run_since (P := fun s : Polled ι => (s.channel i).events_.meets e.event = true) ?_ ?_ h
  · rw [events_construct]
    cases e <;> decide
  · rintro s ⟨j, x⟩ t ht
    rw [channel_set ht i]
    by_cases hj : j = i
    · subst hj
      rw [if_pos rfl]
      simpa [watched] using Setting.meets_event (s.channel j).events_ x e
    · simp [hj]

theorem meets_pri_iff (h : run set (construct fd) calls = .ok s) (i : ι) :
    (s.channel i).events_.meets EPOLLPRI = true ↔ LastEnables calls i := by
  refine run_since (P := fun s : Polled ι => (s.channel i).events_.meets EPOLLPRI = true) ?_ ?_ h
  · rw [events_construct]
    decide
  · rintro s ⟨j, x⟩ t ht
    rw [channel_set ht i]
    by_cases hj : j = i
    · subst hj
      rw [if_pos rfl]
      simpa [watched] using Setting.meets_pri (s.channel j).events_ x
    · simp [hj]

/-- **What `isReading` and `isWriting` answer**: the interest is in effect, or the last call on the
channel enabled one of the two. -/
theorem answer_iff (h : run set (construct fd) calls = .ok s) (i : ι) (e : Interest) :
    e.answer (s.channel i) = true ↔ InEffect calls i e ∨ LastEnables calls i := by
  rw [Interest.answer_eq, Bool.or_eq_true, meets_event_iff h, meets_pri_iff h]

/-! ## What the kernel was asked for -/

/-- A channel with interest is registered. -/
def Watched (s : Polled ι) : Prop :=
  ∀ i, (s.channel i).isNoneEvent = false → (s.channel i).index_ = .kAdd

theorem set_watched {t : Polled ι} (hs : s.Watched) {a : ι × Setting} (h : s.set a = .ok t) :
    t.Watched := by
  intro i hi
  rw [channel_set h i] at hi ⊢
  by_cases hj : a.1 = i
  · rw [if_pos hj] at hi ⊢
    refine if_neg fun hnone => ?_
    simp [isNoneEvent, watched, hnone.2] at hi
  · rw [if_neg hj] at hi ⊢
    exact hs i hi

/-- After any calls, what the kernel holds for a channel with interest is its mask. -/
theorem interest_eq (h : run set (construct fd) calls = .ok s) {i : ι}
    (hi : (s.channel i).isNoneEvent = false) :
    s.poller.epoll.interest (s.channel i).fd_ = some ⟨(s.channel i).events_, some i⟩ := by
  obtain ⟨henrolled, hwatched⟩ : s.Enrolled ∧ s.Watched :=
    invariant (I := fun s => Enrolled s ∧ Watched s)
      (fun _ _ _ hs h => ⟨call_enrolled hs.1 h, set_watched hs.2 h⟩)
      ⟨construct_enrolled fd, fun i hi => absurd hi (by simp [isNoneEvent, events_construct])⟩ h
  exact henrolled i (hwatched i hi)

/-! ## Independence -/

/-- The call is not an `enable` or `disable` of another kind than `e`. -/
def Spares (e : Interest) (a : ι × Setting) : Bool :=
  match a.2 with
  | .enable e' | .disable e' => e' = e
  | .disableAll => true

/-- The two interests are independent at the end of the run of `calls`. -/
structure Independent (fd : ι → ℕ) (calls : List (ι × Setting)) (s : Polled ι) : Prop where
  /-- `isReading` and `isWriting` answer whether their interest is in effect. -/
  answers : ∀ i e, e.answer (s.channel i) = true ↔ InEffect calls i e
  /-- Leaving out the calls of the other kind changes no answer. -/
  spared : ∀ e s', run set (construct fd) (calls.filter (Spares e)) = .ok s' →
    ∀ i, e.answer (s'.channel i) = e.answer (s.channel i)
  /-- The kernel was last asked for `EPOLLIN` and `EPOLLOUT` as the answers say. -/
  requested : ∀ i, (s.channel i).isNoneEvent = false →
    ∃ mask, s.poller.epoll.interest (s.channel i).fd_ = some ⟨mask, some i⟩ ∧
      ∀ e : Interest, mask.meets e.event = e.answer (s.channel i)

omit [DecidableEq ι] in
/-- Where every `enable` is of the kind `e`, an enabling last call is one of that kind. -/
theorem LastEnables.inEffect {i : ι} {e : Interest} (h : LastEnables (calls.filter (Spares e)) i) :
    InEffect (calls.filter (Spares e)) i e := by
  obtain ⟨before, ⟨j, x⟩, after, heq, ⟨rfl, e', rfl⟩, hafter⟩ := h
  have hmem : (j, Setting.enable e') ∈ calls.filter (Spares e) := by
    rw [heq]
    exact List.mem_append_right _ (List.mem_cons_self ..)
  obtain rfl : e' = e := by simpa [Spares] using (List.mem_filter.1 hmem).2
  refine ⟨before, (j, .enable e'), after, heq, rfl, ?_⟩
  rintro ⟨k, y⟩ hk (hb | hb)
  · exact hafter _ hk (Prod.mk.inj hb).1
  · exact hafter _ hk (Prod.mk.inj hb).1

omit [DecidableEq ι] in
theorem inEffect_spared (i : ι) (e : Interest) :
    InEffect (calls.filter (Spares e)) i e ↔ InEffect calls i e := by
  refine since_filter ?_ ?_ calls
  · rintro _ rfl
    simp [Spares]
  · rintro _ (rfl | rfl) <;> simp [Spares]

/-- Without the calls of the other kind, an interest always answers whether it is in effect. -/
theorem answer_spared {s' : Polled ι} {e : Interest}
    (h : run set (construct fd) (calls.filter (Spares e)) = .ok s') (i : ι) :
    e.answer (s'.channel i) = true ↔ InEffect calls i e := by
  rw [answer_iff h, inEffect_spared]
  exact or_iff_left_of_imp fun hlast => (inEffect_spared i e).1 hlast.inEffect

/-- Every channel whose last call was an enabling one has both interests in effect. -/
def BothInEffect (calls : List (ι × Setting)) : Prop :=
  ∀ i, LastEnables calls i → ∀ e, InEffect calls i e

theorem independent_of_bothInEffect (h : run set (construct fd) calls = .ok s)
    (hboth : BothInEffect calls) : Independent fd calls s where
  answers i e := by
    rw [answer_iff h]
    exact or_iff_left_of_imp fun hlast => hboth i hlast e
  spared e s' h' i := by
    rw [Bool.eq_iff_iff, answer_spared h', answer_iff h]
    exact (or_iff_left_of_imp fun hlast => hboth i hlast e).symm
  requested i hi := by
    refine ⟨_, interest_eq h hi, fun e => ?_⟩
    rw [Bool.eq_iff_iff, meets_event_iff h, answer_iff h]
    exact (or_iff_left_of_imp fun hlast => hboth i hlast e).symm

/-- **Independence, exactly**: after any run of calls that set interests, on any channels of one
poller, the two interests are independent if and only if every channel whose last call enabled one
has both in effect. On channels with distinct descriptors every such run returns. -/
theorem independent_iff (fd : ι → ℕ) (calls : List (ι × Setting)) :
    (∀ s, run set (construct fd) calls = .ok s →
      (Independent fd calls s ↔ BothInEffect calls)) ∧
      (fd.Injective → ∃ s, run set (construct fd) calls = .ok s) := by
  constructor
  · refine fun s h => ⟨fun hind i hlast e => ?_, independent_of_bothInEffect h⟩
    rw [← hind.answers, answer_iff h]
    exact .inr hlast
  · intro hfd
    have hset (s : Polled ι) (a : ι × Setting) (hs : s.Agreeing fd) :
        ∃ t, s.set a = .ok t ∧ t.Agreeing fd := call_agreeing hfd hs (a.1, a.2.call)
    obtain ⟨s, hrun, -⟩ := progress hset (construct_agreeing fd) calls
    exact ⟨s, hrun⟩

/-- A connection that only reads: `isWriting` answers yes. -/
theorem not_independent_reading :
    ¬∀ (fd : Unit → ℕ) (calls : List (Unit × Setting)) (s : Polled Unit),
      run set (construct fd) calls = .ok s → Independent fd calls s := by
  intro h
  have hwriting : (run set (construct fun _ : Unit => 5) [((), .enable .reading)]).map
      (fun s => (s.channel ()).isWriting) = .ok true := by decide
  obtain ⟨s, hrun, hanswer⟩ := exists_of_map hwriting
  obtain ⟨before, a, after, heq, rfl, -⟩ := ((h _ _ s hrun).answers () .writing).1 hanswer
  have hmem : ((), Setting.enable .writing) ∈ [((), Setting.enable .reading)] := by
    rw [heq]
    exact List.mem_append_right _ (List.mem_cons_self ..)
  exact absurd hmem (by decide)

end Polled

end Muduo
