import Muduo.TcpConnection.Threads

/-!
# A requested shutdown

After `shutdown`, the writing side is shut down by `shutdownInLoop` when `isWriting()` is false, and
otherwise by the write event that empties the output buffer. `Settled` says that one of the two has
happened once, or that bytes wait for the second. It is kept by every step but four kinds, which
`Orderly` names; `carriedOut` is the result for the runs without them.
-/

namespace Muduo

open Run

variable {ι τ : Type}

namespace Link

/-- A send leaves bytes in the output buffer. -/
def Saves (l : Link ι) (m : List UInt8) (write : Write) : Prop :=
  l.state_ ≠ .kDisconnected ∧ m ≠ [] ∧
    ¬(l.Direct ∧ ((write m.length).count = m.length ∨ Faults write m.length))

/-- Where a half-close stands; `ran` is whether a `shutdownInLoop` has run that was asked for. -/
structure Settled (ran : Prop) (l : Link ι) : Prop where
  quiet : l.state_ = .kDisconnected → l.channel_.isWriting = false
  undone : ran → l.halfCloses = 0 → l.pending ≠ []
  once : l.state_ ≠ .kDisconnected → l.halfCloses ≠ 0 →
    l.halfCloses = 1 ∧ l.channel_.isWriting = false

variable {ran : Prop} {l l' : Link ι}

theorem Settled.of_eq (hl : l.Settled ran) (hstate : l'.state_ = l.state_)
    (hwriting : l'.channel_.isWriting = l.channel_.isWriting)
    (hcount : l'.halfCloses = l.halfCloses) (hpending : l'.pending = l.pending) :
    l'.Settled ran := by
  constructor
  · rw [hstate, hwriting]
    exact hl.quiet
  · rw [hcount, hpending]
    exact hl.undone
  · rw [hstate, hwriting, hcount]
    exact hl.once

/-- A send that saves nothing changes neither the channel nor what waits. -/
theorem send_of_not_saves {m : List UInt8} {write : Write} (h : ¬l.Saves m write) :
    (l.send m write).channel_ = l.channel_ ∧ (l.send m write).pending = l.pending := by
  have hsends := l.send_sends m write
  generalize l.send m write = l' at hsends ⊢
  cases hsends with
  | disconnected | dropped | rejected | skipped => exact ⟨rfl, rfl⟩
  | finished => simp
  | saved hdirect hfaults hn hcount =>
    refine absurd ⟨hdirect.1, fun hm => ?_, fun hall => ?_⟩ h
    · simp [hm] at hn
    · rcases hall.2 with hall | hall
      · omega
      · exact hfaults hall
  | buffered hstate hdirect hm => exact absurd ⟨hstate, hm, fun hall => hdirect hall.1⟩ h

/-- A send only adds to what waits. -/
theorem send_pending_ne {m : List UInt8} {write : Write} (h : l.pending ≠ []) :
    (l.send m write).pending ≠ [] := by
  have hsends := l.send_sends m write
  generalize l.send m write = l' at hsends ⊢
  cases hsends <;> simp [h]

theorem Settled.send (hl : l.Settled ran) {m : List UInt8} {write : Write}
    (hsaves : l.halfCloses ≠ 0 → ¬l.Saves m write) : (l.send m write).Settled ran := by
  have hcalm := l.send_calm m write
  refine ⟨fun hstate => ?_, fun hran hcount => ?_, fun hstate hcount => ?_⟩
  · rw [hcalm.state_eq] at hstate
    have hnot : ¬l.Saves m write := fun h => h.1 hstate
    rw [(send_of_not_saves hnot).1]
    exact hl.quiet hstate
  · rw [hcalm.halfCloses_eq] at hcount
    exact send_pending_ne (hl.undone hran hcount)
  · rw [hcalm.state_eq] at hstate
    rw [hcalm.halfCloses_eq] at hcount ⊢
    rw [(send_of_not_saves (hsaves hcount)).1]
    exact hl.once hstate hcount

theorem Settled.disconnect (hl : l.Settled ran) (hstate : l'.state_ = .kDisconnected)
    (hwriting : l'.channel_.isWriting = false) (hcount : l'.halfCloses = l.halfCloses)
    (hpending : l'.pending = l.pending) : l'.Settled ran := by
  refine ⟨fun _ => hwriting, ?_, fun h => absurd hstate h⟩
  rw [hcount, hpending]
  exact hl.undone

/-- An event, on a connection that is not connected once a `shutdownInLoop` has run. -/
theorem Settled.handles (hl : l.Settled ran) (hne : l.state_ ≠ .kConnecting)
    (hran : ran → l.state_ ≠ .kConnected) (h : l.Handles l') : l'.Settled ran := by
  cases h with
  | calm hcalm hwriting hpending =>
    have hoff : l.channel_.isWriting = false → l'.channel_.isWriting = false := by
      intro hoff
      by_contra hon
      exact Bool.noConfusion (hoff.symm.trans (hwriting (Bool.not_eq_false _ ▸ hon)))
    refine ⟨fun hstate => ?_, fun hr hcount => ?_, fun hstate hcount => ?_⟩
    · exact hoff (hl.quiet (hcalm.state_eq.symm.trans hstate))
    · intro hnil
      rcases hpending hnil with hnil | ⟨hon, hstate⟩
      · exact hl.undone hr (hcalm.halfCloses_eq.symm.trans hcount) hnil
      · -- the buffer can be emptied in the state `kConnected` only
        cases hs : l.state_ with
        | kDisconnected => exact Bool.noConfusion ((hl.quiet hs).symm.trans hon)
        | kConnecting => exact hne hs
        | kConnected => exact hran hr hs
        | kDisconnecting => exact hstate hs
    · rw [hcalm.state_eq] at hstate
      rw [hcalm.halfCloses_eq] at hcount ⊢
      exact (hl.once hstate hcount).imp_right hoff
  | halfClose hstate hwriting hstate' hwriting' hcount =>
    -- a write event finds the connection half-closed already only with nothing to write
    have hzero : l.halfCloses = 0 := by
      by_contra hcount
      have hoff := (hl.once (by simp [hstate]) hcount).2
      exact Bool.noConfusion (hoff.symm.trans hwriting)
    refine ⟨fun _ => hwriting', fun _ hnone => ?_, fun _ _ => ⟨?_, hwriting'⟩⟩
    · omega
    · omega
  | close heq =>
    subst heq
    refine hl.disconnect rfl ?_ l.handleClose_halfCloses rfl
    simp [handleClose, Link.disconnect, Channel.Call.after, Channel.watched, Channel.isWriting,
      Channel.kNoneEvent, Mask.meets]

/-- A `shutdownInLoop` that was asked for. -/
theorem Settled.shutdownInLoop (hl : l.Settled ran)
    (hasked : l.channel_.isWriting = true → l.pending ≠ [])
    (honce : l.state_ ≠ .kDisconnected → l.halfCloses = 0) : l.shutdownInLoop.Settled True := by
  have hcount := l.shutdownInLoop_halfCloses
  obtain ⟨hstate, hchannel, hpending, -⟩ := l.shutdownInLoop_fields
  refine ⟨?_, fun _ hzero => ?_, fun hne _ => ?_⟩
  · rw [hstate, hchannel]
    exact hl.quiet
  · rw [hpending]
    refine hasked ?_
    by_contra hoff
    simp only [hoff, if_false] at hcount
    omega
  · rw [hstate] at hne
    have hnone := honce hne
    rw [hchannel]
    split at hcount
    next hon => omega
    next hoff => exact ⟨by omega, Bool.eq_false_iff.2 hoff⟩

end Link

namespace Threads

/-! ## The condition on the steps -/

/-- The step runs a `shutdownInLoop` that a `shutdown` has asked for. -/
def RunsShutdownInLoop (s : Threads ι τ) : Action τ → Prop
  | .shutdown => s.world.conn.state_ = .kConnected
  | .next _ => s.functors.head?.map Functor.task = some .shutdownInLoop
  | _ => False

/-- The bytes on which the step runs `sendInLoop`, and what the kernel will answer. -/
def sent (s : Threads ι τ) : Action τ → Option (List UInt8 × Write)
  | .send data write =>
    some ((s.memory data).1.take (castInt (s.memory data).1.length).toNat, write)
  | .next write =>
    match s.functors with
    | ⟨_, .sendInLoop data len⟩ :: _ => some ((s.memory data).1.take len.toNat, write)
    | _ => none
  | _ => none

/-- The step runs a `sendInLoop` that leaves bytes in the output buffer. -/
def SavesBytes (s : Threads ι τ) (a : Action τ) : Prop :=
  ∃ send ∈ s.sent a, s.world.link.Saves send.1 send.2

/-- The step is the store of a `shutdown`, over `kDisconnected`. -/
def StoresLate (s : Threads ι τ) : Action τ → Prop
  | .storeShutdown t => s.thread t = .tested ∧ s.world.conn.state_ = .kDisconnected
  | _ => False

/-- The step goes none of the four ways that keep a shutdown from being carried out, or carry it out
twice. -/
structure Orderly (s : Threads ι τ) (a : Action τ) : Prop where
  /-- A `shutdownInLoop` that finds the channel writing finds bytes that wait. -/
  asked : s.RunsShutdownInLoop a → s.world.conn.channel_.isWriting = true →
    0 < s.world.conn.outputBuffer_.readableBytes
  /-- It does not run on a connection that is half-closed already. -/
  once : s.RunsShutdownInLoop a → s.world.conn.state_ ≠ .kDisconnected →
    .shutdownWrite ∉ s.world.trace
  /-- No `sendInLoop` that runs after the half-close leaves bytes in the output buffer. -/
  saves : .shutdownWrite ∈ s.world.trace → ¬s.SavesBytes a
  /-- No `shutdown` stores `kDisconnecting` over `kDisconnected` after the half-close. -/
  late : .shutdownWrite ∈ s.world.trace → ¬s.StoresLate a

instance (l : Link ι) (m : List UInt8) (write : Write) : Decidable (l.Saves m write) := by
  unfold Link.Saves
  infer_instance

instance (s : Threads ι τ) (a : Action τ) : Decidable (s.RunsShutdownInLoop a) :=
  match a with
  | .shutdown | .next _ => inferInstanceAs (Decidable (_ = _))
  | .event _ | .send _ _ | .swap | .conneectDestroyed | .finishDestroyed | .queueDestroyed |
    .callSend _ _ | .queueSend _ | .callShutdown _ | .storeShutdown _ | .queueShutdown _ |
    .overwrite _ _ => .isFalse id

instance (s : Threads ι τ) (a : Action τ) : Decidable (s.SavesBytes a) := by
  unfold SavesBytes
  infer_instance

instance (s : Threads ι τ) (a : Action τ) : Decidable (s.StoresLate a) :=
  match a with
  | .storeShutdown _ => inferInstanceAs (Decidable (_ = _ ∧ _ = _))
  | .event _ | .send _ _ | .shutdown | .swap | .next _ | .conneectDestroyed | .finishDestroyed |
    .queueDestroyed | .callSend _ _ | .queueSend _ | .callShutdown _ | .queueShutdown _ |
    .overwrite _ _ => .isFalse id

instance (s : Threads ι τ) (a : Action τ) : Decidable (s.Orderly a) :=
  decidable_of_iff (_ ∧ _ ∧ _ ∧ _) ⟨fun h => ⟨h.1, h.2.1, h.2.2.1, h.2.2.2⟩,
    fun h => ⟨h.asked, h.once, h.saves, h.late⟩⟩

/-- When a `shutdown` has found the connection connected, its `shutdownInLoop` has run and none is
queued, the state is `kDisconnecting` and nothing waits, the writing side has been shut down once. -/
def CarriedOut (s : Threads ι τ) : Prop :=
  .shutdownCalled true ∈ s.log → .shutdownRan ∈ s.log →
    (∀ f ∈ s.functors ++ s.world.loop.pendingFunctors_, f.task ≠ .shutdownInLoop) →
    s.world.conn.state_ = .kDisconnecting → s.world.conn.outputBuffer_.readableBytes = 0 →
      s.world.trace.count .shutdownWrite = 1

instance (s : Threads ι τ) : Decidable s.CarriedOut := by
  unfold CarriedOut
  infer_instance

/-! ## The invariant -/

variable {s t : Threads ι τ}

/-- Where the half-close stands, after the steps so far. -/
def Settled (s : Threads ι τ) : Prop := s.world.link.Settled (.shutdownRan ∈ s.log)

theorem halfCloses_ne_zero : s.world.link.halfCloses ≠ 0 ↔ .shutdownWrite ∈ s.world.trace := by
  rw [← Nat.pos_iff_ne_zero]
  exact List.count_pos_iff

/-- The connection has made a step to the link `l`. -/
theorem settled_moved {w : World ι} {l : Link ι} (hrefines : s.world.Refines w l)
    (hl : l.Settled (.shutdownRan ∈ s.log)) : (s.moved w).Settled := by
  obtain ⟨-, rfl, -, -⟩ := hrefines
  rw [Settled, mem_moved (by simp)]
  exact hl

theorem settled_note {m : Mark} (hs : s.Settled) (hm : m ≠ .shutdownRan) : (s.note m).Settled := by
  have hran : Mark.shutdownRan ∈ (s.note m).log ↔ .shutdownRan ∈ s.log := by
    simp [note, hm.symm]
  rw [Settled, hran]
  exact hs

theorem settled_queueInLoop (hbase : s.Base) (hs : s.Settled) {task : Task}
    (h : s.queueInLoop task = .ok t) : t.Settled := by
  obtain rfl := queueInLoop_ok h
  exact settled_moved (TcpConnection.queueInLoop_spec hbase.sound task)
    (hs.of_eq rfl rfl (s.world.link.emit_halfCloses (by simp)) rfl)

theorem settled_sendInLoop (hbase : s.Base) (hs : s.Settled) {data : Text} {len : ℤ}
    (hlen : -2 ^ 31 ≤ len ∧ len < 2 ^ 31) {write : Write} {w : World ι}
    (hsaves : .shutdownWrite ∈ s.world.trace →
      ¬s.world.link.Saves (data.1.take len.toNat) write)
    (h : TcpConnection.sendInLoop s.world data.1 len write = .ok w) : (s.moved w).Settled := by
  obtain ⟨l, hrefines, hl⟩ := TcpConnection.sendInLoop_cases hbase.sound hlen h
  refine settled_moved hrefines ?_
  rcases hl with rfl | ⟨n, errno, rfl⟩ | rfl
  · exact hs
  · exact hs.of_eq rfl rfl (s.world.link.emit_halfCloses (by simp)) rfl
  · exact hs.send fun hcount => hsaves (halfCloses_ne_zero.1 hcount)

/-- A `shutdownInLoop` runs, from a state in which the step is orderly. -/
theorem settled_shutdownInLoop (hbase : s.Base) (hs : s.Settled)
    (hasked : s.world.conn.channel_.isWriting = true →
      0 < s.world.conn.outputBuffer_.readableBytes)
    (honce : s.world.conn.state_ ≠ .kDisconnected → .shutdownWrite ∉ s.world.trace)
    (h : s.shutdownInLoop = .ok t) : t.Settled := by
  obtain rfl := shutdownInLoop_ok h
  obtain ⟨-, hlink, -, -⟩ := TcpConnection.shutdownInLoop_spec hbase.sound
  have hran : Mark.shutdownRan ∈ ((s.moved (TcpConnection.shutdownInLoop s.world)).note
      .shutdownRan).log := List.mem_append_right _ (List.mem_singleton_self _)
  rw [Settled, eq_true hran, show Threads.world _ = TcpConnection.shutdownInLoop s.world from rfl,
    hlink]
  refine Link.Settled.shutdownInLoop hs (fun hon => ?_) fun hne => ?_
  · have hwaits := hasked hon
    rw [TcpConnection.readableBytes_eq hbase.sound] at hwaits
    exact List.length_pos_iff.1 hwaits
  · by_contra hcount
    exact honce hne (halfCloses_ne_zero.1 hcount)

theorem settled_conneectDestroyed (hbase : s.Base) (hs : s.Settled)
    (h : s.conneectDestroyed = .ok t) : t.Settled := by
  rcases conneectDestroyed_ok h with ⟨-, rfl⟩ | ⟨w, hw, rfl⟩
  · exact hs
  · exact settled_moved (TcpConnection.callChannel_ok hbase.sound hw) (hs.of_eq rfl rfl rfl rfl)

/-- A functor runs. -/
theorem settled_call (hbase : s.Base) (hs : s.Settled) {write : Write} {task : Task}
    (htask : task.Queued)
    (hshutdown : task = .shutdownInLoop → (s.world.conn.channel_.isWriting = true →
      0 < s.world.conn.outputBuffer_.readableBytes) ∧
        (s.world.conn.state_ ≠ .kDisconnected → .shutdownWrite ∉ s.world.trace))
    (hsaves : ∀ data len, task = .sendInLoop data len → .shutdownWrite ∈ s.world.trace →
      ¬s.world.link.Saves ((s.memory data).1.take len.toNat) write)
    (h : s.call write task = .ok t) : t.Settled := by
  cases task with
  | sendInLoop data len =>
    have h : s.exec (fun w => TcpConnection.sendInLoop w (s.memory data).1 len write) = .ok t := h
    obtain ⟨w, hw, rfl⟩ := exec_ok h
    exact settled_sendInLoop hbase hs htask (hsaves data len rfl) hw
  | shutdownInLoop =>
    obtain ⟨hasked, honce⟩ := hshutdown rfl
    exact settled_shutdownInLoop hbase hs hasked honce h
  | writeCompleteCallback | highWaterMarkCallback => exact Except.ok.inj h ▸ hs
  | conneectEstableished => exact absurd htask id
  | conneectDestroyed => exact settled_conneectDestroyed hbase hs h
  | removeConnectionInLoop => exact settled_queueInLoop hbase hs h

/-- A `shutdown` on the loop thread. -/
theorem settled_shutdown (hbase : s.Base) (hs : s.Settled)
    (hasked : s.world.conn.state_ = .kConnected → s.world.conn.channel_.isWriting = true →
      0 < s.world.conn.outputBuffer_.readableBytes)
    (h : s.shutdown = .ok t) : t.Settled := by
  rcases shutdown_ok h with ⟨hconnected, rfl⟩ | ⟨-, rfl⟩
  · have hnone : s.world.link.halfCloses = 0 := by
      by_contra hcount
      exact hbase.asked (.inr (.inl hcount)) hconnected
    have hstate : (s.world.link.setState .kDisconnecting).Settled (.shutdownRan ∈ s.log) := by
      exact ⟨StateE.noConfusion, hs.undone, fun _ hcount => absurd hnone hcount⟩
    have hlink : s.world.link.shutdown true =
        (s.world.link.setState .kDisconnecting).shutdownInLoop := by
      simp [Link.shutdown, hconnected]
    obtain ⟨-, hshut, -, -⟩ := TcpConnection.shutdown_spec hbase.sound true
    have hran : Mark.shutdownRan ∈ (((s.note (.shutdownCalled true)).moved
        (TcpConnection.shutdown s.world true)).note .shutdownRan).log :=
      List.mem_append_right _ (List.mem_singleton_self _)
    rw [Settled, eq_true hran, show Threads.world _ = TcpConnection.shutdown s.world true from rfl,
      hshut, hlink]
    refine hstate.shutdownInLoop (fun hon => ?_) fun _ => hnone
    have hwaits := hasked hconnected hon
    rw [TcpConnection.readableBytes_eq hbase.sound] at hwaits
    exact List.length_pos_iff.1 hwaits
  · exact settled_note hs (by simp)

variable [DecidableEq τ]

/-- **An orderly step** keeps what is known of the half-close. -/
theorem settled_step (hbase : s.Base) (hs : s.Settled) {a : Action τ} (ha : s.Orderly a)
    (h : s.step a = .ok t) : t.Settled := by
  cases step_ok h with
  | stay => exact hs
  | event e w hw =>
    refine settled_moved (TcpConnection.Op.exec_ok hbase.sound hw) ?_
    exact Link.Settled.handles hs hbase.state_ne (fun hran => hbase.asked (.inl hran))
      (e.handles s.world)
  | send data write w _ hw =>
    exact settled_note (settled_sendInLoop hbase hs (castInt_range _)
      (fun hhalf hsaves => ha.saves hhalf ⟨_, rfl, hsaves⟩) hw) (by simp)
  | shutdown _ h => exact settled_shutdown hbase hs ha.asked h
  | swap => exact hs.of_eq rfl rfl rfl rfl
  | next f fs write _ _ hfunctors h =>
    obtain ⟨hpop, hqueued, -⟩ := hbase.pop hfunctors
    refine settled_call hpop hs hqueued (fun htask => ?_) (fun data len htask hhalf => ?_) h
    · have hruns : s.RunsShutdownInLoop (.next write) := by
        simp [RunsShutdownInLoop, hfunctors, htask]
      exact ⟨ha.asked hruns, ha.once hruns⟩
    · have hsaves := ha.saves hhalf
      obtain ⟨conn, task⟩ := f
      obtain rfl := htask
      simpa [SavesBytes, sent, hfunctors] using hsaves
  | conneectDestroyed _ h => exact settled_conneectDestroyed hbase hs h
  | finishDestroyed _ _ h =>
    obtain ⟨w, rfl, hrefines⟩ := finishDestroyed_ok hbase.sound h
    refine settled_moved hrefines (hs.disconnect rfl ?_ ?_ rfl)
    · simp [Link.disconnect, Channel.Call.after, Channel.watched, Channel.isWriting,
        Channel.kNoneEvent, Mask.meets]
    · exact Link.emit_halfCloses _ (by simp)
  | queueDestroyed _ h => exact settled_queueInLoop hbase hs h
  | callSend => exact hs
  | queueSend i data buf u _ hu =>
    have hqueued : u.Settled := settled_queueInLoop hbase hs hu
    have hentered : (u.enter i .idle).Settled := hqueued
    exact settled_note hentered (by simp)
  | callShutdown i =>
    have hnoted : (s.note (.shutdownCalled true)).Settled := settled_note hs (by simp)
    exact hnoted
  | callShutdownLate => exact settled_note hs (by simp)
  | storeShutdown i hi =>
    refine ⟨StateE.noConfusion, hs.undone, fun _ hcount => hs.once ?_ hcount⟩
    exact fun hstate => ha.late (halfCloses_ne_zero.1 hcount) ⟨hi, hstate⟩
  | queueShutdown i u _ hu =>
    have hqueued : u.Settled := settled_queueInLoop hbase hs hu
    exact hqueued
  | overwrite => exact hs

/-! ## Runs -/

theorem settled_run {w : World ι} {memory : Address → Text} {actions : List (Action τ)}
    (hw : w.Established) (hqueue : w.loop.pendingFunctors_ = [])
    (hP : Along step Orderly (start w memory) actions)
    (h : run step (start w memory) actions = .ok t) : t.Base ∧ t.Settled := by
  have hbase : (start w memory : Threads ι τ).Base := start_base hw hqueue memory
  refine Along.invariant (I := fun s => s.Base ∧ s.Settled) ?_ ⟨hbase, ?_⟩ hP h
  · rintro s a u ⟨hs, hsettled⟩ ha hu
    exact ⟨hs.step hu, settled_step hs hsettled ha hu⟩
  · have hstate : w.conn.state_ = .kConnected := hw.spec.2.state_eq
    refine ⟨fun h => ?_, fun hran => ?_, fun _ hcount => ?_⟩
    · exact StateE.noConfusion (hstate.symm.trans h)
    · simp [start] at hran
    · exact absurd hstate (hbase.asked (.inr (.inl hcount)))

/-- **A requested shutdown is carried out** in every run whose steps are orderly. -/
theorem carriedOut {w : World ι} {memory : Address → Text} {actions : List (Action τ)}
    (hw : w.Established) (hqueue : w.loop.pendingFunctors_ = [])
    (hP : Along step Orderly (start w memory) actions)
    (h : run step (start w memory) actions = .ok t) : t.CarriedOut := by
  obtain ⟨hbase, hsettled⟩ := settled_run hw hqueue hP h
  intro _ hran _ hstate hempty
  have hpending : t.world.link.pending = [] :=
    (TcpConnection.readableBytes_eq_zero hbase.sound).1 hempty
  have hcount : t.world.link.halfCloses ≠ 0 := fun hzero => hsettled.undone hran hzero hpending
  exact (hsettled.once (by simp [hstate]) hcount).1

/-- A byte is sent and written, and another thread shuts the connection down. -/
theorem carriedOut_written : ∃ (w : World Unit) (t : Threads Unit Unit), w.Established ∧
    run step (start w oneByte) [.send 65 TcpConnection.takesAll,
      .event (.write TcpConnection.takesAll), .callShutdown (), .storeShutdown (),
      .queueShutdown (), .swap, .next TcpConnection.takesAll] = .ok t ∧ t.CarriedOut := by
  have hrun : (TcpConnection.conneectEstableished (TcpConnection.newWorld false) >>= fun w =>
      (run step (start w oneByte : Threads Unit Unit) [.send 65 TcpConnection.takesAll,
        .event (.write TcpConnection.takesAll), .callShutdown (), .storeShutdown (),
        .queueShutdown (), .swap, .next TcpConnection.takesAll]).map fun _ =>
      (w.loop.pendingFunctors_, decide (Along step Orderly (start w oneByte : Threads Unit Unit)
        [.send 65 TcpConnection.takesAll, .event (.write TcpConnection.takesAll), .callShutdown (),
          .storeShutdown (), .queueShutdown (), .swap, .next TcpConnection.takesAll]))) =
      .ok ([], true) := by
    decide +kernel
  obtain ⟨w, hw, hmap⟩ := bind_eq_ok.1 hrun
  obtain ⟨t, ht, hview⟩ := exists_of_map hmap
  obtain ⟨hqueue, hP⟩ := Prod.mk.inj hview
  have hestablished : w.Established :=
    ⟨TcpConnection.newWorld false, TcpConnection.newWorld_fresh false, hw⟩
  exact ⟨w, t, hestablished, ht, carriedOut hestablished hqueue (of_decide_eq_true hP) ht⟩

/-- The first call of `shutdown` on an established connection shuts nothing down. -/
theorem not_carriedOut_first : ¬∀ (w : World Unit) (memory : Address → Text)
    (actions : List (Action Unit)) (t : Threads Unit Unit), w.Established →
    w.loop.pendingFunctors_ = [] → run step (start w memory) actions = .ok t → t.CarriedOut := by
  intro h
  have hrun : (TcpConnection.conneectEstableished (TcpConnection.newWorld false) >>= fun w =>
      (run step (start w oneByte : Threads Unit Unit) [.shutdown]).map fun t =>
        (w.loop.pendingFunctors_, decide t.CarriedOut)) = .ok ([], false) := by
    decide +kernel
  obtain ⟨w, hw, hmap⟩ := bind_eq_ok.1 hrun
  obtain ⟨t, ht, hview⟩ := exists_of_map hmap
  obtain ⟨hqueue, hnot⟩ := Prod.mk.inj hview
  exact of_decide_eq_false hnot (h w oneByte [.shutdown] t
    ⟨TcpConnection.newWorld false, TcpConnection.newWorld_fresh false, hw⟩ hqueue ht)

end Threads

end Muduo
