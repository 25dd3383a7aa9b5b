import Muduo.TcpConnection.Stream

/-!
# The high-water mark

`highWaterMarkCallback_` is queued by `sendInLoop`, before it appends, from the old length of the
output buffer and the bytes that remain. `Link.Edges` says that a step queues it when, and only
when, what waits goes from below the mark to the mark or above, and with the length that waits
after the step. `edges` is the same over a run.
-/

namespace Muduo

open Run

variable {ι : Type}

/-- The size a queued `highWaterMarkCallback_` carries. -/
def Effect.highWater : Effect → Option ℕ
  | .queued (.highWaterMarkCallback size) => some size
  | _ => none

namespace Link

/-- The length that waits after a step, when the step has taken it over the mark. -/
def crossing (l l' : Link ι) : List ℕ :=
  if l.pending.length < l.highWaterMark_ ∧ l.highWaterMark_ ≤ l'.pending.length then
    [l'.pending.length]
  else []

/-- What decides about the callback, and no step changes. -/
def mark (l : Link ι) : ℕ × Bool := (l.highWaterMark_, l.highWaterMarkCallback_)

/-- The step queues `highWaterMarkCallback_` once for a crossing, with the length after it, and
leaves the mark and the callback as they are. -/
def Edges (l l' : Link ι) : Prop :=
  l'.mark = l.mark ∧ ∃ news, l'.trace = l.trace ++ news ∧
    (l.highWaterMarkCallback_ = true → news.filterMap Effect.highWater = l.crossing l')

variable {l l' : Link ι}

/-- A step that queues no such callback, and after which no more waits than before. -/
theorem Edges.quiet {news : List Effect} (hmark : l'.mark = l.mark)
    (htrace : l'.trace = l.trace ++ news) (hnews : news.filterMap Effect.highWater = [])
    (hpending : l'.pending.length ≤ l.pending.length) : l.Edges l' := by
  refine ⟨hmark, news, htrace, fun _ => ?_⟩
  rw [hnews, crossing, if_neg]
  omega

theorem complete_mark (l : Link ι) : l.complete.mark = l.mark := by
  unfold complete
  split <;> rfl

theorem shutdownInLoop_mark (l : Link ι) : l.shutdownInLoop.mark = l.mark := by
  unfold shutdownInLoop
  split <;> rfl

theorem drained_mark (l : Link ι) : l.drained.mark = l.mark := by
  simp only [drained]
  split
  · exact (shutdownInLoop_mark _).trans (complete_mark _)
  · exact complete_mark _

theorem checkHighWaterMark_mark (l : Link ι) (n : ℕ) : (l.checkHighWaterMark n).mark = l.mark := by
  unfold checkHighWaterMark
  split <;> rfl

theorem ensureWriting_mark (l : Link ι) : l.ensureWriting.mark = l.mark := by
  unfold ensureWriting
  split <;> rfl

/-- What `checkHighWaterMark` queues. -/
def alarm (l : Link ι) (n : ℕ) : List Effect :=
  if l.highWaterMark_ ≤ l.pending.length + n ∧ l.pending.length < l.highWaterMark_ ∧
      l.highWaterMarkCallback_ then
    [.queued (.highWaterMarkCallback (l.pending.length + n))]
  else []

theorem checkHighWaterMark_trace_eq (l : Link ι) (n : ℕ) :
    (l.checkHighWaterMark n).trace = l.trace ++ l.alarm n := by
  unfold checkHighWaterMark alarm
  split <;> simp

/-- Saving `rest` behind what waits, after effects that queue no such callback. -/
theorem saveRemaining_edges (l₁ : Link ι) (news : List Effect) (hmark : l₁.mark = l.mark)
    (hpending : l₁.pending = l.pending) (htrace : l₁.trace = l.trace ++ news)
    (hnews : news.filterMap Effect.highWater = []) (rest : List UInt8) :
    l.Edges (l₁.saveRemaining rest) := by
  have hmark' : (l₁.saveRemaining rest).mark = l₁.mark := by
    rw [saveRemaining, ensureWriting_mark]
    exact checkHighWaterMark_mark _ _
  obtain ⟨hhigh, hcb⟩ := Prod.mk.inj hmark
  refine ⟨hmark'.trans hmark, news ++ l₁.alarm rest.length, ?_, fun hset => ?_⟩
  · rw [saveRemaining, (ensureWriting_fields _).2.2.2.1, setPending_trace,
      checkHighWaterMark_trace_eq, htrace, List.append_assoc]
  · rw [List.filterMap_append, hnews, List.nil_append, crossing, (saveRemaining_fields _ _).2.1,
      List.length_append, alarm, hhigh, hcb, hset, hpending]
    by_cases hcross : l.pending.length < l.highWaterMark_ ∧
        l.highWaterMark_ ≤ l.pending.length + rest.length
    · rw [if_pos ⟨hcross.2, hcross.1, rfl⟩, if_pos hcross]
      rfl
    · rw [if_neg (fun h => hcross ⟨h.2.1, h.1⟩), if_neg hcross]
      rfl

theorem send_edges (l : Link ι) (m : List UInt8) (write : Write) : l.Edges (l.send m write) := by
  have hsends := l.send_sends m write
  generalize l.send m write = l' at hsends ⊢
  cases hsends with
  | disconnected | skipped => exact .quiet rfl (List.append_nil _).symm rfl (Nat.le_refl _)
  | dropped | rejected => exact .quiet rfl rfl rfl (Nat.le_refl _)
  | finished =>
    refine .quiet (complete_mark _) (by rw [complete_trace, emit_trace, List.append_assoc]) ?_ ?_
    · split <;> rfl
    · simp
  | @saved _ _ n _ _ wrote _ =>
    exact saveRemaining_edges (l := l) (l.emit (.write m.length wrote)) [.write m.length wrote] rfl
      rfl rfl rfl (m.drop n)
  | buffered =>
    exact saveRemaining_edges l [] rfl rfl (List.append_nil _).symm rfl m

theorem handleWrite_edges (l : Link ι) (write : Write) : l.Edges (l.handleWrite write) := by
  have hwrites := l.handleWrite_writes write
  generalize l.handleWrite write = l' at hwrites ⊢
  cases hwrites with
  | idle => exact .quiet rfl (List.append_nil _).symm rfl (Nat.le_refl _)
  | none => exact .quiet rfl rfl rfl (Nat.le_refl _)
  | some => exact .quiet rfl rfl rfl (by simp)
  | all =>
    obtain ⟨rest, hrest, htrace⟩ :=
      ((l.emit (.write l.pending.length (.handed l.pending))).setPending []).drained_trace
    refine .quiet (drained_mark _)
      (by rw [htrace, setPending_trace, emit_trace, List.append_assoc]) ?_ (by simp)
    rcases hrest with rfl | rfl <;> split <;> rfl

theorem shutdownInLoop_edges (l : Link ι) : l.Edges l.shutdownInLoop := by
  refine .quiet l.shutdownInLoop_mark l.shutdownInLoop_trace ?_ (by simp)
  split <;> rfl

theorem shutdown_edges (l : Link ι) (inLoop : Bool) : l.Edges (l.shutdown inLoop) := by
  unfold shutdown
  split
  · cases inLoop with
    | true => exact (l.setState .kDisconnecting).shutdownInLoop_edges
    | false => exact .quiet rfl rfl rfl (Nat.le_refl _)
  · exact .quiet rfl (List.append_nil _).symm rfl (Nat.le_refl _)

theorem handleClose_edges (l : Link ι) : l.Edges l.handleClose :=
  .quiet rfl (List.append_assoc _ _ _) rfl (Nat.le_refl _)

theorem handleRead_edges (l : Link ι) (n : ℤ) : l.Edges (l.handleRead n) := by
  unfold handleRead
  split
  · exact .quiet rfl rfl rfl (Nat.le_refl _)
  · split
    · exact l.handleClose_edges
    · exact .quiet rfl (List.append_nil _).symm rfl (Nat.le_refl _)

end Link

namespace TcpConnection

variable {w w' : World ι}

theorem Op.link_edges (w : World ι) (op : Op) : w.link.Edges (op.link w) := by
  cases op with
  | sendInLoop m write => exact w.link.send_edges m.bytes write
  | handleRead recv extraBuffer onMessage =>
    simp only [Op.link]
    split
    · exact w.link.handleRead_edges _
    · exact .quiet rfl (List.append_nil _).symm rfl (Nat.le_refl _)
  | handleWrite write => exact w.link.handleWrite_edges write
  | handleClose => exact w.link.handleClose_edges
  | handleError => exact .quiet rfl (List.append_nil _).symm rfl (Nat.le_refl _)
  | shutdown inLoop => exact w.link.shutdown_edges inLoop
  | shutdownInLoop => exact w.link.shutdownInLoop_edges

/-- The number of readable bytes after a step that takes it from below `highWaterMark_` to the mark
or above. -/
def Op.crossing (w : World ι) (op : Op) : List ℕ :=
  match op.exec w with
  | .ok w' =>
    if w.conn.outputBuffer_.readableBytes < w.conn.highWaterMark_ ∧
        w.conn.highWaterMark_ ≤ w'.conn.outputBuffer_.readableBytes then
      [w'.conn.outputBuffer_.readableBytes]
    else []
  | .error _ => []

theorem Op.crossing_ok (hw : w.Sound) {op : Op} (h : op.exec w = .ok w') :
    op.crossing w = w.link.crossing w'.link := by
  have hw' := (Op.exec_ok hw h).sound
  simp only [crossing, h, readableBytes_eq hw, readableBytes_eq hw']
  rfl

/-- **The high-water mark is edge-triggered.** Over every run from any state of a connection whose
`highWaterMarkCallback_` is set, the callbacks queued are, in order, one for each step that takes
the number of readable bytes from below the mark to the mark or above, and each carries that number
as it is right after the step. -/
theorem highWater (hw : w.Sound) (hset : w.conn.highWaterMarkCallback_ = true) {ops : List Op}
    (h : run Op.exec w ops = .ok w') :
    ∃ effects, w'.trace = w.trace ++ effects ∧
      effects.filterMap Effect.highWater = collect Op.exec Op.crossing w ops := by
  obtain ⟨-, -, hedges⟩ : w'.Sound ∧ w'.link.mark = w.link.mark ∧
      ∃ effects, w'.trace = w.trace ++ effects ∧
        effects.filterMap Effect.highWater = collect Op.exec Op.crossing w ops := by
    refine run_induction (motive := fun ops w' => w'.Sound ∧ w'.link.mark = w.link.mark ∧
      ∃ effects, w'.trace = w.trace ++ effects ∧
        effects.filterMap Effect.highWater = collect Op.exec Op.crossing w ops) ?_ ?_ h
    · exact ⟨hw, rfl, [], (List.append_nil _).symm, rfl⟩
    · rintro ops op t u ht hu ⟨hsound, hmark, effects, htrace, hcollect⟩
      have hrefines := Op.exec_ok hsound hu
      obtain ⟨hmark', news, htrace', hnews⟩ := op.link_edges t
      rw [← hrefines.link_eq] at hmark' htrace' hnews
      have hset' : t.link.highWaterMarkCallback_ = true := (Prod.mk.inj hmark).2.trans hset
      refine ⟨hrefines.sound, hmark'.trans hmark, effects ++ news, ?_, ?_⟩
      · have htrace' : u.trace = t.trace ++ news := htrace'
        rw [htrace', htrace, List.append_assoc]
      · rw [List.filterMap_append, hcollect, hnews hset', collect_concat ht,
          Op.crossing_ok hsound hu]
  exact hedges

/-- Two bytes reach a mark of two; one of them is written, and one more byte reaches it again. -/
def twice : List Op :=
  [.sendInLoop ⟨[65, 66], by decide⟩ takesAll,
    .handleWrite fun n => .wrote (min 1 n) (Nat.min_le_right 1 n), .sendInLoop letter takesAll]

/-- A new connection with a mark of two. -/
def markedWorld : World Unit :=
  ⟨(), (construct 5).setHighWaterMarkCallback true 2, ⟨.construct, []⟩, []⟩

theorem markedWorld_fresh : markedWorld.Fresh := ⟨⟨5, false, true, 2, rfl⟩, rfl, rfl⟩

theorem highWater_twice : ∃ w w' : World Unit, w.Sound ∧ w.conn.highWaterMarkCallback_ = true ∧
    run Op.exec w twice = .ok w' ∧ ∃ effects, w'.trace = w.trace ++ effects ∧
      effects.filterMap Effect.highWater = collect Op.exec Op.crossing w twice := by
  have hrun : (conneectEstableished markedWorld >>= fun w => run Op.exec w twice).isOk = true := by
    decide +kernel
  obtain ⟨w', hw'⟩ := exists_of_isOk hrun
  obtain ⟨w, hw, hw'⟩ := bind_eq_ok.1 hw'
  have hestablished : w.Established := ⟨markedWorld, markedWorld_fresh, hw⟩
  have hset : w.conn.highWaterMarkCallback_ = true := by
    obtain ⟨v, hv, hrefines⟩ := conneectEstableished_spec markedWorld_fresh.sound
    obtain rfl := Except.ok.inj (hv.symm.trans hw)
    exact congrArg Link.highWaterMarkCallback_ hrefines.link_eq
  exact ⟨w, w', hestablished.spec.1, hset, hw', highWater hestablished.spec.1 hset hw'⟩

end TcpConnection

end Muduo
