import Muduo.TcpConnection.Interest

/-!
# Conservation of the outbound stream

A connection has two ways out, the direct write of `sendInLoop` and the output buffer. What has been
handed to the kernel (`handedBytes`) followed by what waits in the buffer is what sends have put in
(`conservation`): each step takes bytes from the front of the one list and adds to the end of the
other (`Link.Flows`).
-/

namespace Muduo

open Run

variable {ι : Type}

/-- The bytes that an effect hands to the kernel. -/
def Effect.handed : Effect → List UInt8
  | .write _ wrote => wrote.bytes
  | _ => []

/-- The bytes handed to the kernel, in order. -/
def handedBytes (trace : List Effect) : List UInt8 := trace.flatMap Effect.handed

@[simp] theorem handedBytes_append (t u : List Effect) :
    handedBytes (t ++ u) = handedBytes t ++ handedBytes u := List.flatMap_append

@[simp] theorem handedBytes_nil : handedBytes [] = [] := rfl

@[simp] theorem handedBytes_cons (e : Effect) (t : List Effect) :
    handedBytes (e :: t) = e.handed ++ handedBytes t := rfl

theorem handedBytes_of_quiet {t : List Effect} (h : ∀ e ∈ t, e.handed = []) : handedBytes t = [] :=
  List.flatMap_eq_nil_iff.2 h

/-- The effects that promise that everything has been handed over: `writeCompleteCallback_` is
queued, or the writing side is shut down while the state is not `kDisconnected`. -/
def Effect.Promises (state : StateE) : Effect → Prop
  | .queued .writeCompleteCallback => True
  | .shutdownWrite => state ≠ .kDisconnected
  | _ => False

namespace Link

/-- What a step that adds the bytes `added` does to the stream. Its effects are writes, followed by
effects that hand nothing over. -/
structure Flows (l l' : Link ι) (added : List UInt8) (writes rest : List Effect) : Prop where
  trace_eq : l'.trace = l.trace ++ (writes ++ rest)
  conserves : handedBytes writes ++ l'.pending = l.pending ++ added
  writes_eq : ∀ e ∈ writes, ¬e.Promises l.state_
  rest_eq : ∀ e ∈ rest, e.handed = []
  promise : ∀ e ∈ rest, e.Promises l.state_ → l'.pending = []
  completes : l.writeCompleteCallback_ = true → l.pending ≠ [] → l'.pending = [] →
    rest.count (.queued .writeCompleteCallback) = 1

variable {l l' : Link ι} {added : List UInt8} {writes rest : List Effect}

/-- Where a promise is made, everything has been handed over. -/
theorem Flows.handed_of_promise (h : l.Flows l' added writes rest) {e : Effect}
    {pre post : List Effect} (hnews : writes ++ rest = pre ++ e :: post)
    (he : e.Promises l.state_) : handedBytes pre = l.pending ++ added := by
  have hrest : e ∈ rest := by
    have hmem : e ∈ writes ++ rest := by simp [hnews]
    exact (List.mem_append.1 hmem).resolve_left fun hw => h.writes_eq e hw he
  have hpending := h.promise e hrest he
  have hwrites : handedBytes pre = handedBytes writes := by
    rcases List.append_eq_append_iff.1 hnews with ⟨mid, rfl, hmid⟩ | ⟨mid, hmid, hpost⟩
    · -- the promise is made behind the writes
      have hquiet : handedBytes mid = [] := by
        refine handedBytes_of_quiet fun x hx => h.rest_eq x ?_
        rw [hmid]
        exact List.mem_append_left _ hx
      rw [handedBytes_append, hquiet, List.append_nil]
    · cases mid with
      | nil => rw [hmid, List.append_nil]
      | cons x mid =>
        obtain ⟨rfl, -⟩ := List.cons.inj hpost
        exact absurd he (h.writes_eq e (by simp [hmid]))
  rw [hwrites, ← h.conserves, hpending, List.append_nil]

/-- A step that changes neither what waits nor, with effects that promise nothing, the trace. -/
theorem Flows.quiet (htrace : l'.trace = l.trace ++ rest) (hpending : l'.pending = l.pending)
    (hrest : ∀ e ∈ rest, e.handed = []) (hpromise : ∀ e ∈ rest, e.Promises l.state_ → l.pending = []) :
    l.Flows l' [] [] rest := by
  refine ⟨by simpa using htrace, by simp [hpending], by simp, hrest, ?_, ?_⟩
  · intro e he hp
    rw [hpending, hpromise e he hp]
  · intro _ hne hnil
    exact absurd (hpending.symm.trans hnil) hne

theorem complete_trace (l : Link ι) : l.complete.trace =
    l.trace ++ if l.writeCompleteCallback_ then [.queued .writeCompleteCallback] else [] := by
  unfold complete
  split <;> simp

theorem checkHighWaterMark_trace (l : Link ι) (n : ℕ) :
    ∃ rest, (l.checkHighWaterMark n).trace = l.trace ++ rest ∧
      ∀ e ∈ rest, ∃ size, e = .queued (.highWaterMarkCallback size) := by
  unfold checkHighWaterMark
  split
  · exact ⟨[.queued (.highWaterMarkCallback _)], rfl, by simp⟩
  · exact ⟨[], by simp, by simp⟩

theorem shutdownInLoop_trace (l : Link ι) : l.shutdownInLoop.trace =
    l.trace ++ if l.channel_.isWriting then [] else [.shutdownWrite] := by
  unfold shutdownInLoop
  split <;> simp

theorem saveRemaining_trace (l : Link ι) (bytes : List UInt8) :
    ∃ rest, (l.saveRemaining bytes).trace = l.trace ++ rest ∧
      ∀ e ∈ rest, ∃ size, e = .queued (.highWaterMarkCallback size) := by
  obtain ⟨rest, htrace, hrest⟩ := l.checkHighWaterMark_trace bytes.length
  exact ⟨rest, by simp [saveRemaining, htrace], hrest⟩

theorem drained_trace (l : Link ι) : ∃ rest, (rest = [] ∨ rest = [.shutdownWrite]) ∧
    l.drained.trace = l.trace ++
      ((if l.writeCompleteCallback_ then [.queued .writeCompleteCallback] else []) ++ rest) := by
  have hcomplete := (l.call .disableWriting).complete_trace
  have hshutdown := (l.call .disableWriting).complete.shutdownInLoop_trace
  unfold drained
  simp only
  split
  · refine ⟨if (l.call .disableWriting).complete.channel_.isWriting then [] else [.shutdownWrite],
      ?_, ?_⟩
    · split <;> simp
    · rw [hshutdown, hcomplete, List.append_assoc]
      rfl
  · exact ⟨[], .inl rfl, by rw [hcomplete, List.append_nil]; rfl⟩

instance (write : Write) (n : ℕ) : Decidable (Faults write n) :=
  match h : write n with
  | .wrote count le => .isFalse fun ⟨errno, hfailed, _⟩ => by
      rw [h] at hfailed
      cases hfailed
  | .failed errno => decidable_of_iff (errno = EPIPE ∨ errno = ECONNRESET) (by simp [Faults, h])

instance (l : Link ι) : Decidable l.Direct := by
  unfold Direct
  infer_instance

/-- The bytes that a send accepts: all, unless the connection is disconnected or the direct write
fails with `EPIPE` or `ECONNRESET`. -/
def accepted (l : Link ι) (m : List UInt8) (write : Write) : List UInt8 :=
  if l.state_ = .kDisconnected ∨ (l.Direct ∧ Faults write m.length) then [] else m

theorem accepted_of_direct {m : List UInt8} {write : Write} (hdirect : l.Direct)
    (hfaults : ¬Faults write m.length) : l.accepted m write = m := by
  simp [accepted, hdirect.1, hfaults]

theorem accepted_of_not_direct {m : List UInt8} {write : Write} (hstate : l.state_ ≠ .kDisconnected)
    (hdirect : ¬l.Direct) : l.accepted m write = m := by
  simp [accepted, hstate, hdirect]

theorem send_flows (l : Link ι) (m : List UInt8) (write : Write) :
    ∃ writes rest, l.Flows (l.send m write) (l.accepted m write) writes rest := by
  have hsends := l.send_sends m write
  generalize l.send m write = l' at hsends ⊢
  -- what waits grows by what is saved
  have hsave : ∀ (l₁ : Link ι) (writes : List Effect) (bytes : List UInt8), bytes ≠ [] →
      l₁.trace = l.trace ++ writes → l₁.pending = l.pending →
      handedBytes writes ++ (l.pending ++ bytes) = l.pending ++ l.accepted m write →
      (∀ e ∈ writes, ¬e.Promises l.state_) →
      ∃ writes rest, l.Flows (l₁.saveRemaining bytes) (l.accepted m write) writes rest := by
    intro l₁ writes bytes hbytes htrace hpending hconserves hwrites
    obtain ⟨rest, hrest, hqueued⟩ := l₁.saveRemaining_trace bytes
    refine ⟨writes, rest, by rw [hrest, htrace, List.append_assoc], ?_, hwrites, ?_, ?_, ?_⟩
    · simpa [hpending] using hconserves
    · intro e he
      obtain ⟨size, rfl⟩ := hqueued e he
      rfl
    · intro e he hp
      obtain ⟨size, rfl⟩ := hqueued e he
      exact absurd hp id
    · intro _ _ hnil
      simp [hbytes] at hnil
  cases hsends with
  | disconnected hstate =>
    have haccepted : l.accepted m write = [] := by simp [accepted, hstate]
    rw [haccepted]
    exact ⟨[], [], .quiet (by simp) rfl (by simp) (by simp)⟩
  | dropped hdirect hfaults errno =>
    have haccepted : l.accepted m write = [] := by simp [accepted, hdirect, hfaults]
    rw [haccepted]
    exact ⟨[], [.write m.length (.failed errno)],
      .quiet rfl rfl (by simp [Effect.handed, Wrote.bytes]) (by simp [Effect.Promises])⟩
  | finished hdirect hfaults =>
    rw [accepted_of_direct hdirect hfaults]
    refine ⟨[.write m.length (.handed m)],
      if l.writeCompleteCallback_ then [.queued .writeCompleteCallback] else [], ?_, ?_, ?_, ?_, ?_,
      ?_⟩
    · simp [complete_trace]
    · simp [Effect.handed, Wrote.bytes, hdirect.2.2]
    · simp [Effect.Promises]
    · intro e he
      split at he <;> simp_all [Effect.handed]
    · simp [hdirect.2.2]
    · intro _ hne
      exact absurd hdirect.2.2 hne
  | rejected hdirect hfaults hm errno =>
    rw [accepted_of_direct hdirect hfaults, hm]
    exact ⟨[], [.write 0 (.failed errno)],
      .quiet rfl rfl (by simp [Effect.handed, Wrote.bytes]) (by simp [Effect.Promises])⟩
  | @saved hdirect hfaults n hn _ wrote hbytes =>
    have hrest : m.drop n ≠ [] := fun hnil => absurd (List.drop_eq_nil_iff.1 hnil) (by omega)
    refine hsave (l.emit (.write m.length wrote)) [.write m.length wrote] (m.drop n) hrest rfl rfl
      ?_ (by simp [Effect.Promises])
    rw [accepted_of_direct hdirect hfaults, hdirect.2.2]
    simp [Effect.handed, hbytes]
  | skipped hstate hdirect hm =>
    rw [accepted_of_not_direct hstate hdirect, hm]
    exact ⟨[], [], .quiet (by simp) rfl (by simp) (by simp)⟩
  | buffered hstate hdirect hm =>
    refine hsave l [] m hm (by simp) rfl ?_ (by simp)
    rw [accepted_of_not_direct hstate hdirect]
    simp

theorem handleWrite_flows (l : Link ι) (write : Write) :
    ∃ writes rest, l.Flows (l.handleWrite write) [] writes rest := by
  have hwrites := l.handleWrite_writes write
  generalize l.handleWrite write = l' at hwrites ⊢
  cases hwrites with
  | idle => exact ⟨[], [], .quiet (by simp) rfl (by simp) (by simp)⟩
  | @none _ _ wrote hbytes =>
    exact ⟨[], [.write l.pending.length wrote],
      .quiet rfl rfl (by simp [Effect.handed, hbytes]) (by simp [Effect.Promises])⟩
  | @some _ n hpos hlt hcount =>
    refine ⟨[.write l.pending.length (.handed (l.pending.take n))], [], by simp, ?_, ?_, by simp,
      by simp, ?_⟩
    · simp [Effect.handed, Wrote.bytes]
    · simp [Effect.Promises]
    · intro _ _ hnil
      simp only [setPending_pending, List.drop_eq_nil_iff] at hnil
      omega
  | all =>
    obtain ⟨rest, hrest, htrace⟩ :=
      ((l.emit (.write l.pending.length (.handed l.pending))).setPending []).drained_trace
    refine ⟨[.write l.pending.length (.handed l.pending)], _, by
      rw [htrace, setPending_trace, emit_trace, List.append_assoc], ?_, ?_, ?_, by simp, ?_⟩
    · simp [Effect.handed, Wrote.bytes]
    · simp [Effect.Promises]
    · intro e he
      rcases List.mem_append.1 he with he | he
      · split at he <;> simp_all [Effect.handed]
      · rcases hrest with rfl | rfl <;> simp_all [Effect.handed]
    · intro hset _ _
      rcases hrest with rfl | rfl <;> simp [hset]

/-- Half-closing hands nothing over; while the connection is not disconnected, nothing waits. -/
theorem shutdownInLoop_flows (hl : l.state_ ≠ .kDisconnected → l.Watching) :
    ∃ writes rest, l.Flows l.shutdownInLoop [] writes rest := by
  refine ⟨[], _, .quiet l.shutdownInLoop_trace (by simp) ?_ ?_⟩
  · intro e he
    split at he <;> simp_all [Effect.handed]
  · intro e he hp
    split at he
    next => cases he
    next hwriting =>
      obtain rfl := List.mem_singleton.1 he
      exact (hl hp).pending_eq (Bool.eq_false_iff.2 hwriting)

theorem handleClose_flows (l : Link ι) : ∃ writes rest, l.Flows l.handleClose [] writes rest := by
  refine ⟨[], [.connectionCallback .kDisconnected, .closeCallback], .quiet ?_ ?_ ?_ ?_⟩
  · simp [handleClose, disconnect]
  · simp [handleClose, disconnect]
  · simp [Effect.handed]
  · simp [Effect.Promises]

theorem handleRead_flows (l : Link ι) (n : ℤ) :
    ∃ writes rest, l.Flows (l.handleRead n) [] writes rest := by
  unfold handleRead
  split
  · exact ⟨[], [.messageCallback],
      .quiet rfl rfl (by simp [Effect.handed]) (by simp [Effect.Promises])⟩
  · split
    · exact l.handleClose_flows
    · exact ⟨[], [], .quiet (by simp) rfl (by simp) (by simp)⟩

theorem shutdown_flows (hl : l.state_ ≠ .kDisconnected → l.Watching) (inLoop : Bool) :
    ∃ writes rest, l.Flows (l.shutdown inLoop) [] writes rest := by
  unfold shutdown
  split
  next hstate =>
    cases inLoop with
    | true =>
      refine ⟨[], _, .quiet (l.setState .kDisconnecting).shutdownInLoop_trace (by simp) ?_ ?_⟩
      · intro e he
        split at he <;> simp_all [Effect.handed]
      · intro e he _
        split at he
        next => cases he
        next hwriting => exact (hl (by simp [hstate])).pending_eq (Bool.eq_false_iff.2 hwriting)
    | false =>
      exact ⟨[], [.queued .shutdownInLoop],
        .quiet rfl rfl (by simp [Effect.handed]) (by simp [Effect.Promises])⟩
  next => exact ⟨[], [], .quiet (by simp) rfl (by simp) (by simp)⟩

end Link

namespace TcpConnection

variable {w w' : World ι}

/-- The bytes that a step accepts for sending. -/
def Op.accepted (w : World ι) : Op → List UInt8
  | .sendInLoop m write => w.link.accepted m.bytes write
  | _ => []

theorem Op.flows {op : Op} (hw : w.conn.state_ ≠ .kDisconnected → w.link.Watching) :
    ∃ writes rest, w.link.Flows (op.link w) (op.accepted w) writes rest := by
  cases op with
  | sendInLoop m write => exact w.link.send_flows m.bytes write
  | handleRead recv extraBuffer onMessage =>
    simp only [Op.link]
    split
    · exact w.link.handleRead_flows _
    · exact ⟨[], [], .quiet (by simp) rfl (by simp) (by simp)⟩
  | handleWrite write => exact w.link.handleWrite_flows write
  | handleClose => exact w.link.handleClose_flows
  | handleError => exact ⟨[], [], .quiet (by simp [Op.link]) rfl (by simp) (by simp)⟩
  | shutdown inLoop => exact Link.shutdown_flows hw inLoop
  | shutdownInLoop => exact Link.shutdownInLoop_flows hw

/-- One step, from a state in which the stream is conserved. -/
theorem Op.step_flows {op : Op} (hw : w.Sound)
    (hwatching : w.conn.state_ ≠ .kDisconnected → w.link.Watching) (h : op.exec w = .ok w') :
    ∃ writes rest, w.link.Flows w'.link (op.accepted w) writes rest := by
  rw [(Op.exec_ok hw h).link_eq]
  exact Op.flows hwatching

/-- The stream over a run: what was handed over and what waits is what was accepted. -/
theorem handed_append_pending {ops : List Op} (hw : w.Established)
    (h : run Op.exec w ops = .ok w') :
    handedBytes w'.trace ++ w'.link.pending = collect Op.exec Op.accepted w ops := by
  obtain ⟨-, hinitial⟩ := hw.spec
  refine run_induction (motive := fun ops w' =>
    handedBytes w'.trace ++ w'.link.pending = collect Op.exec Op.accepted w ops) ?_ ?_ h
  · have htrace : w.trace = [.connectionCallback .kConnected] := hinitial.trace_eq
    rw [htrace, hinitial.pending_eq]
    rfl
  · intro ops op t u ht hu ih
    obtain ⟨hsound, hwatching⟩ := watching hw ht
    obtain ⟨writes, rest, hflows⟩ := Op.step_flows hsound (fun hs => (hwatching hs).2) hu
    have htrace : u.trace = t.trace ++ (writes ++ rest) := hflows.trace_eq
    have hrest : handedBytes rest = [] := handedBytes_of_quiet hflows.rest_eq
    rw [collect_concat ht, ← ih, htrace, handedBytes_append, handedBytes_append, hrest,
      List.append_nil, List.append_assoc, List.append_assoc, hflows.conserves]

/-- **Conservation of the outbound stream.** After every run of an established connection, the
bytes handed to the kernel followed by the readable bytes of the output buffer are the bytes of the
accepted sends. In every further step, when `writeCompleteCallback_` is queued, or the writing side
is shut down while the state is not `kDisconnected`, every accepted byte has been handed over by
then; and if the callback is set, emptying the output buffer queues it exactly once. -/
theorem conservation {ops : List Op} (hw : w.Established) (h : run Op.exec w ops = .ok w') :
    handedBytes w'.trace ++ w'.conn.outputBuffer_.readable = collect Op.exec Op.accepted w ops ∧
      ∀ op w'', op.exec w' = .ok w'' →
        (∀ pre e post, w''.trace = w'.trace ++ (pre ++ e :: post) → e.Promises w'.conn.state_ →
          handedBytes (w'.trace ++ pre) = collect Op.exec Op.accepted w (ops ++ [op])) ∧
        (w'.conn.writeCompleteCallback_ = true → w'.conn.outputBuffer_.readable ≠ [] →
          w''.conn.outputBuffer_.readable = [] →
            w''.trace.count (.queued .writeCompleteCallback) =
              w'.trace.count (.queued .writeCompleteCallback) + 1) := by
  have hstream := handed_append_pending hw h
  refine ⟨hstream, fun op w'' hop => ?_⟩
  obtain ⟨hsound, hwatching⟩ := watching hw h
  obtain ⟨writes, rest, hflows⟩ := Op.step_flows hsound (fun hs => (hwatching hs).2) hop
  have htrace : w''.trace = w'.trace ++ (writes ++ rest) := hflows.trace_eq
  constructor
  · intro pre e post hnews he
    have hsplit : writes ++ rest = pre ++ e :: post :=
      List.append_cancel_left (htrace.symm.trans hnews)
    rw [handedBytes_append, hflows.handed_of_promise hsplit he, ← List.append_assoc, hstream,
      collect_concat h]
  · intro hset hpending hempty
    have hwrites : writes.count (.queued .writeCompleteCallback) = 0 :=
      List.count_eq_zero.2 fun hmem => hflows.writes_eq _ hmem trivial
    rw [htrace, List.count_append, List.count_append, hwrites,
      hflows.completes hset hpending hempty, Nat.zero_add]

/-- A byte is sent on a new connection, whose channel counts as writing, so that it is buffered. -/
theorem conservation_letter : ∃ w w' : World Unit, w.Established ∧
    run Op.exec w [.sendInLoop letter takesAll] = .ok w' ∧
      handedBytes w'.trace ++ w'.conn.outputBuffer_.readable =
        collect Op.exec Op.accepted w [.sendInLoop letter takesAll] ∧
      ∀ op w'', op.exec w' = .ok w'' →
        (∀ pre e post, w''.trace = w'.trace ++ (pre ++ e :: post) → e.Promises w'.conn.state_ →
          handedBytes (w'.trace ++ pre) =
            collect Op.exec Op.accepted w ([.sendInLoop letter takesAll] ++ [op])) ∧
        (w'.conn.writeCompleteCallback_ = true → w'.conn.outputBuffer_.readable ≠ [] →
          w''.conn.outputBuffer_.readable = [] →
            w''.trace.count (.queued .writeCompleteCallback) =
              w'.trace.count (.queued .writeCompleteCallback) + 1) := by
  have hrun : (conneectEstableished (newWorld true) >>= fun w =>
      run Op.exec w [.sendInLoop letter takesAll]).isOk = true := by
    decide +kernel
  obtain ⟨w', hw'⟩ := exists_of_isOk hrun
  obtain ⟨w, hw, hw'⟩ := bind_eq_ok.1 hw'
  have hestablished : w.Established := ⟨newWorld true, newWorld_fresh true, hw⟩
  exact ⟨w, w', hestablished, hw', conservation hestablished hw'⟩

end TcpConnection

end Muduo
