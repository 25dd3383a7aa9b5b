import Mathlib.Data.Fintype.Basic
import Mathlib.Data.List.Perm.Subperm
import Muduo.TcpConnection.Shutdown

/-!
# Half-closing behind accepted sends

What a connection without a close and without a write error has been given is a list of messages,
in the order in which `sendInLoop` has run on them (`Streams`); the sends that have returned are
among these messages and the ones that wait in the queue. The writing side is shut down with nothing
in the output buffer, so all messages have been handed over by then, and what can still be missing
waits in the queue. `notCut` is the result for the runs in which nothing waits there, no string is
longer than an `int` can count, and no string changes while it waits.
-/

namespace Muduo

open Run

variable {ι τ : Type}

/-- Where the first of two lists ends, when an element of both together is picked out. -/
theorem append_eq_append_cons {α : Type} {xs ys pre post : List α} {a : α}
    (h : xs ++ ys = pre ++ a :: post) :
    (∃ mid, xs = pre ++ a :: mid ∧ post = mid ++ ys) ∨
      ∃ mid, pre = xs ++ mid ∧ ys = mid ++ a :: post := by
  rcases List.append_eq_append_iff.1 h with ⟨mid, hpre, hys⟩ | ⟨mid, hxs, hpost⟩
  · exact .inr ⟨mid, hpre, hys⟩
  · cases mid with
    | nil => exact .inr ⟨[], by simpa using hxs.symm, by simpa using hpost.symm⟩
    | cons b mid =>
      obtain ⟨rfl, rfl⟩ := List.cons.inj hpost
      exact .inl ⟨mid, hxs, rfl⟩

namespace Link

/-- The new effects from `l` to `l'`: no `::write` of more than `k` bytes, and nothing after the
writing side has been shut down. -/
structure Orders (l l' : Link ι) (k : ℕ) : Prop where
  bound : ∀ news, l'.trace = l.trace ++ news → ∀ n wrote, .write n wrote ∈ news → n ≤ k
  last : ∀ pre post, l'.trace = l.trace ++ (pre ++ .shutdownWrite :: post) → post = []

variable {l l' : Link ι} {k : ℕ}

/-- Effects that end with the half-close, if there is one. -/
theorem Orders.of_append {news rest : List Effect} (htrace : l'.trace = l.trace ++ (news ++ rest))
    (hbound : ∀ n wrote, .write n wrote ∈ news → n ≤ k) (hnot : .shutdownWrite ∉ news)
    (hrest : rest = [] ∨ rest = [.shutdownWrite]) : l.Orders l' k := by
  refine ⟨fun news' h n wrote hmem => ?_, fun pre post h => ?_⟩
  · rw [← List.append_cancel_left (htrace.symm.trans h)] at hmem
    rcases List.mem_append.1 hmem with hmem | hmem
    · exact hbound n wrote hmem
    · rcases hrest with rfl | rfl <;> simp at hmem
  · rcases append_eq_append_cons (List.append_cancel_left (htrace.symm.trans h)) with
      ⟨mid, hmid, -⟩ | ⟨mid, -, hmid⟩
    · exact absurd (by simp [hmid]) hnot
    · rcases hrest with rfl | rfl
      · simp at hmid
      · cases mid with
        | nil => exact (List.cons.inj hmid).2.symm
        | cons x mid => simp at hmid

/-- Effects without a half-close. -/
theorem Orders.of_not_mem {news : List Effect} (htrace : l'.trace = l.trace ++ news)
    (hbound : ∀ n wrote, .write n wrote ∈ news → n ≤ k) (hnot : .shutdownWrite ∉ news) :
    l.Orders l' k :=
  .of_append (htrace.trans (by rw [List.append_nil])) hbound hnot (.inl rfl)

theorem Orders.mono {k' : ℕ} (h : l.Orders l' k) (hle : k ≤ k') : l.Orders l' k' :=
  ⟨fun news hnews n wrote hmem => Nat.le_trans (h.bound news hnews n wrote hmem) hle, h.last⟩

theorem Orders.of_eq (htrace : l'.trace = l.trace) : l.Orders l' k :=
  .of_not_mem (htrace.trans (List.append_nil _).symm) (by simp) (by simp)

theorem emit_orders (l : Link ι) {e : Effect} (he : e ≠ .shutdownWrite)
    (hbound : ∀ n wrote, e = .write n wrote → n ≤ k) : l.Orders (l.emit e) k :=
  .of_not_mem rfl (fun n wrote hmem => hbound n wrote (List.mem_singleton.1 hmem).symm)
    (by simpa using he.symm)

theorem emit_write_orders (l : Link ι) (n : ℕ) (wrote : Wrote) :
    l.Orders (l.emit (.write n wrote)) n := by
  refine l.emit_orders (by simp) fun n' wrote' he => ?_
  cases he
  exact Nat.le_refl _

theorem send_orders (l : Link ι) (m : List UInt8) (write : Write) :
    l.Orders (l.send m write) m.length := by
  have hsends := l.send_sends m write
  generalize l.send m write = l' at hsends ⊢
  -- what is queued after a write
  have hsave : ∀ (l₁ : Link ι) (writes : List Effect) (rest : List UInt8),
      l₁.trace = l.trace ++ writes → (∀ e ∈ writes, ∃ wrote, e = .write m.length wrote) →
      l.Orders (l₁.saveRemaining rest) m.length := by
    intro l₁ writes rest htrace hwrites
    obtain ⟨news, hnews, hqueued⟩ := l₁.saveRemaining_trace rest
    refine .of_not_mem (hnews.trans (by rw [htrace, List.append_assoc])) ?_ ?_
    · intro n wrote hmem
      rcases List.mem_append.1 hmem with hmem | hmem
      · obtain ⟨wrote', he⟩ := hwrites _ hmem
        cases he
        exact Nat.le_refl _
      · obtain ⟨size, he⟩ := hqueued _ hmem
        cases he
    · intro hmem
      rcases List.mem_append.1 hmem with hmem | hmem
      · obtain ⟨wrote, he⟩ := hwrites _ hmem
        cases he
      · obtain ⟨size, he⟩ := hqueued _ hmem
        cases he
  cases hsends with
  | disconnected | skipped => exact .of_eq rfl
  | dropped | rejected => exact l.emit_write_orders _ _
  | finished =>
    refine .of_not_mem ((complete_trace _).trans (by rw [emit_trace, List.append_assoc])) ?_ ?_
    · intro n wrote hmem
      rw [List.singleton_append, List.mem_cons] at hmem
      rcases hmem with he | hmem
      · cases he
        exact Nat.le_refl _
      · split at hmem <;> simp at hmem
    · split <;> simp
  | @saved _ _ n _ _ wrote _ =>
    exact hsave _ [.write m.length wrote] _ rfl (by simp)
  | buffered => exact hsave l [] m (by simp) (by simp)

theorem handleWrite_orders (l : Link ι) (write : Write) :
    l.Orders (l.handleWrite write) l.pending.length := by
  have hwrites := l.handleWrite_writes write
  generalize l.handleWrite write = l' at hwrites ⊢
  cases hwrites with
  | idle => exact .of_eq rfl
  | none => exact l.emit_write_orders _ _
  | @some _ n _ _ _ =>
    have horders := l.emit_write_orders l.pending.length (.handed (l.pending.take n))
    exact ⟨horders.bound, horders.last⟩
  | all =>
    obtain ⟨rest, hrest, htrace⟩ :=
      ((l.emit (.write l.pending.length (.handed l.pending))).setPending []).drained_trace
    rw [setPending_trace, emit_trace, List.append_assoc, ← List.append_assoc [_]] at htrace
    refine .of_append htrace ?_ ?_ hrest
    · intro n wrote hmem
      rcases List.mem_cons.1 hmem with he | hmem
      · cases he
        exact Nat.le_refl _
      · split at hmem <;> simp at hmem
    · split <;> simp

theorem shutdownInLoop_orders (l : Link ι) : l.Orders l.shutdownInLoop k := by
  have htrace := l.shutdownInLoop_trace
  rw [← List.nil_append (ite _ _ _)] at htrace
  refine .of_append htrace (by simp) (by simp) ?_
  split
  · exact .inl rfl
  · exact .inr rfl

theorem shutdown_orders (l : Link ι) (inLoop : Bool) : l.Orders (l.shutdown inLoop) k := by
  unfold shutdown
  split
  · cases inLoop with
    | true =>
      have horders := (l.setState .kDisconnecting).shutdownInLoop_orders (k := k)
      exact ⟨horders.bound, horders.last⟩
    | false => exact .of_not_mem rfl (by simp) (by simp)
  · exact .of_eq rfl

theorem handleRead_orders (l : Link ι) (n : ℤ) : l.Orders (l.handleRead n) k := by
  unfold handleRead
  split
  · exact l.emit_orders (by simp) (by simp)
  · split
    · exact .of_not_mem l.handleClose_trace (by simp) (by simp)
    · exact .of_eq rfl

end Link

/-! ## The messages of a connection -/

/-- The strings of the sends in a log that have returned. -/
def returned (log : List Mark) : List (List UInt8) :=
  log.filterMap fun
    | .returned buf => some buf
    | _ => none

@[simp] theorem returned_append (log news : List Mark) :
    returned (log ++ news) = returned log ++ returned news := List.filterMap_append

@[simp] theorem returned_map (es : List Effect) : returned (es.map .effect) = [] := by
  simp [returned, List.filterMap_map]

/-- `sendInLoop` has run on `messages` on a live connection. Whenever the writing side has been shut
down, what had been handed over were whole messages, among them all that had been sent by then, and
nothing has been written since. -/
structure Streams (w : World ι) (log : List Mark) (messages : List (List UInt8)) : Prop where
  live : w.link.Live
  watching : w.link.Watching
  effects_eq : effects log = w.trace
  empty : .shutdownWrite ∈ w.trace → w.link.pending = []
  flat : handedBytes w.trace ++ w.link.pending = messages.flatten
  handed : ∀ pre post, log = pre ++ .effect .shutdownWrite :: post →
    ∃ messages, handedBytes (effects pre) = messages.flatten ∧ (returned pre).Subperm messages
  quiet : ∀ pre post, log = pre ++ .effect .shutdownWrite :: post →
    ∀ n wrote, .effect (.write n wrote) ∈ post → n = 0

variable {w w' : World ι} {log : List Mark} {messages : List (List UInt8)}

/-- The connection makes a step that adds the bytes `added`. -/
theorem Streams.step (hs : Streams w log messages) {l' : Link ι} {added : List UInt8}
    {writes rest : List Effect} (hrefines : w.Refines w' l')
    (hflows : w.link.Flows l' added writes rest)
    (horders : w.link.Orders l' (w.link.pending ++ added).length) (hlive : l'.Live)
    (hwatching : l'.Watching) (hadded : .shutdownWrite ∈ w.trace → added = [])
    (hcut : l'.halfCloses ≠ w.link.halfCloses →
      ∃ chunks, chunks.flatten = messages.flatten ∧ (returned log).Subperm chunks) :
    Streams w' (log ++ (w'.trace.drop w.trace.length).map .effect) (messages ++ [added]) := by
  obtain ⟨-, rfl, -, -⟩ := hrefines
  have htrace : w'.trace = w.trace ++ (writes ++ rest) := hflows.trace_eq
  have hnews : w'.trace.drop w.trace.length = writes ++ rest := by rw [htrace, List.drop_left]
  rw [hnews]
  -- a half-close is an old one, or one of this step
  have hsplit : ∀ {pre post : List Mark},
      log ++ (writes ++ rest).map .effect = pre ++ .effect .shutdownWrite :: post →
      (∃ mid, log = pre ++ .effect .shutdownWrite :: mid ∧
        post = mid ++ (writes ++ rest).map .effect) ∨
      ∃ news later, pre = log ++ news.map .effect ∧ post = later.map .effect ∧
        writes ++ rest = news ++ .shutdownWrite :: later := by
    intro pre post h
    refine (append_eq_append_cons h).imp_right ?_
    rintro ⟨mid, rfl, hmid⟩
    obtain ⟨news, tail, heq, rfl, htail⟩ := List.map_eq_append_iff.1 hmid
    obtain ⟨e, later, rfl, he, rfl⟩ := List.map_eq_cons_iff.1 htail
    cases he
    exact ⟨news, later, rfl, rfl, heq⟩
  have hclosed : .shutdownWrite ∈ w.trace → w.link.pending ++ added = [] := fun h => by
    rw [hs.empty h, hadded h, List.append_nil]
  have hpromise : Effect.shutdownWrite.Promises w.link.state_ := hs.live.ne
  refine ⟨hlive, hwatching, ?_, fun hdone => ?_, ?_, ?_, ?_⟩
  · rw [effects_append, effects_map, hs.effects_eq, htrace]
  · rw [htrace, List.mem_append, List.mem_append] at hdone
    rcases hdone with hdone | hdone | hdone
    · have hconserves := hflows.conserves
      rw [hclosed hdone] at hconserves
      exact (List.append_eq_nil_iff.1 hconserves).2
    · exact absurd hpromise (hflows.writes_eq _ hdone)
    · exact hflows.promise _ hdone hpromise
  · have hrest : handedBytes rest = [] := handedBytes_of_quiet hflows.rest_eq
    rw [List.flatten_append, ← hs.flat, htrace, handedBytes_append, handedBytes_append, hrest,
      List.append_nil, List.append_assoc, hflows.conserves]
    simp
  · intro pre post h
    rcases hsplit h with ⟨mid, hlog, -⟩ | ⟨news, later, rfl, -, heq⟩
    · exact hs.handed pre mid hlog
    · have hcount : w'.link.halfCloses ≠ w.link.halfCloses := by
        rw [Link.halfCloses, show w'.link.trace = _ from htrace, heq]
        simp only [List.count_append, List.count_cons_self, Link.halfCloses, World.link]
        omega
      obtain ⟨chunks, hflat, hsub⟩ := hcut hcount
      refine ⟨chunks ++ [added], ?_, ?_⟩
      · rw [effects_append, effects_map, handedBytes_append, hs.effects_eq,
          hflows.handed_of_promise heq hpromise, ← List.append_assoc, hs.flat,
          List.flatten_append, hflat]
        simp
      · rw [returned_append, returned_map, List.append_nil]
        exact hsub.trans (List.sublist_append_left _ _).subperm
  · intro pre post h n wrote hmem
    rcases hsplit h with ⟨mid, hlog, rfl⟩ | ⟨news, later, -, rfl, heq⟩
    · rcases List.mem_append.1 hmem with hmem | hmem
      · exact hs.quiet pre mid hlog n wrote hmem
      · have hdone : .shutdownWrite ∈ w.trace := by
          rw [← hs.effects_eq, hlog]
          simp [effects]
        obtain ⟨e, he, hwrite⟩ := List.mem_map.1 hmem
        cases hwrite
        have hle := horders.bound _ hflows.trace_eq n wrote he
        rw [hclosed hdone] at hle
        exact Nat.le_zero.1 hle
    · have hnone := horders.last news later (htrace.trans (by rw [heq]; rfl))
      simp [hnone] at hmem

/-- Another mark in the log. -/
theorem Streams.note (hs : Streams w log messages) {m : Mark} (hm : ∀ e, m ≠ .effect e) :
    Streams w (log ++ [m]) messages := by
  have hsplit : ∀ {pre post : List Mark}, log ++ [m] = pre ++ .effect .shutdownWrite :: post →
      ∃ mid, log = pre ++ .effect .shutdownWrite :: mid ∧ post = mid ++ [m] := by
    intro pre post h
    refine (append_eq_append_cons h).resolve_right ?_
    rintro ⟨mid, -, hmid⟩
    cases mid with
    | nil => exact hm _ (List.cons.inj hmid).1
    | cons x mid => simp at hmid
  refine ⟨hs.live, hs.watching, ?_, hs.empty, hs.flat, ?_, ?_⟩
  · have hnone : effects [m] = [] := by
      cases m with
      | effect e => exact absurd rfl (hm e)
      | _ => rfl
    rw [effects_append, hnone, List.append_nil, hs.effects_eq]
  · intro pre post h
    obtain ⟨mid, hlog, -⟩ := hsplit h
    exact hs.handed pre mid hlog
  · intro pre post h n wrote hmem
    obtain ⟨mid, hlog, rfl⟩ := hsplit h
    rcases List.mem_append.1 hmem with hmem | hmem
    · exact hs.quiet pre mid hlog n wrote hmem
    · exact absurd (List.mem_singleton.1 hmem).symm (hm _)

namespace TcpConnection

/-- The bytes of a send. -/
def Op.bytes : Op → List UInt8
  | .sendInLoop m _ => m.bytes
  | _ => []

theorem Op.orders (op : Op) (w : World ι) :
    w.link.Orders (op.link w) (w.link.pending ++ op.bytes).length := by
  cases op with
  | sendInLoop m write => exact (w.link.send_orders m.bytes write).mono (by simp [Op.bytes])
  | handleRead recv extraBuffer onMessage =>
    simp only [Op.link]
    split
    · exact w.link.handleRead_orders _
    · exact .of_eq rfl
  | handleWrite write => exact (w.link.handleWrite_orders write).mono (by simp)
  | handleClose => exact .of_not_mem w.link.handleClose_trace (by simp) (by simp)
  | handleError => exact .of_eq rfl
  | shutdown inLoop => exact w.link.shutdown_orders inLoop
  | shutdownInLoop => exact w.link.shutdownInLoop_orders

/-- A live connection that watches for one of the three sets of events keeps doing so. -/
theorem Op.watching {op : Op} {w : World ι} (hw : w.link.Watching) (hlive : (op.link w).Live) :
    (op.link w).Watching := by
  rcases hw.events with hstarting | hsettled
  · by_cases hempties : op.Empties w
    · cases op with
      | handleWrite write =>
        obtain ⟨hindex, hidle⟩ := Link.handleWrite_of_empties hw hempties
        exact ⟨hindex, .inr (.inl hidle)⟩
      | _ => exact absurd hempties id
    · obtain ⟨hchannel, -⟩ := Op.starting_step hstarting hempties hlive
      exact ⟨by rw [hchannel, hw.index_eq], .inl ((congrArg Channel.events_ hchannel).trans
        hstarting)⟩
  · obtain ⟨hindex, hsettled⟩ := Op.settled_step hw.index_eq hsettled hlive
    exact ⟨hindex, .inr hsettled⟩

end TcpConnection

/-- The connection makes the step `op`, which accepts all its bytes. -/
theorem Streams.op (hs : Streams w log messages) {op : TcpConnection.Op}
    (hrefines : w.Refines w' (op.link w)) (hlive : (op.link w).Live)
    (haccepted : op.accepted w = op.bytes) (hadded : .shutdownWrite ∈ w.trace → op.bytes = [])
    (hcut : (op.link w).halfCloses ≠ w.link.halfCloses →
      ∃ chunks, chunks.flatten = messages.flatten ∧ (returned log).Subperm chunks) :
    Streams w' (log ++ (w'.trace.drop w.trace.length).map .effect) (messages ++ [op.bytes]) := by
  obtain ⟨writes, rest, hflows⟩ :
      ∃ writes rest, w.link.Flows (op.link w) (op.accepted w) writes rest :=
    TcpConnection.Op.flows fun _ => hs.watching
  rw [haccepted] at hflows
  exact hs.step hrefines hflows (op.orders w) hlive (TcpConnection.Op.watching hs.watching hlive)
    hadded hcut

/-- A functor is queued that is not bound to `writeCompleteCallback_`. -/
theorem Streams.queue (hs : Streams w log messages) (hsound : w.Sound) {task : Task}
    (htask : task ≠ .writeCompleteCallback) :
    Streams (TcpConnection.queueInLoop w task) (log ++ [.effect (.queued task)])
      (messages ++ [[]]) := by
  have hflows : w.link.Flows (w.link.queueInLoop task) [] [] [.queued task] := by
    refine .quiet rfl rfl (by simp [Effect.handed]) fun e he hpromise => ?_
    obtain rfl := List.mem_singleton.1 he
    cases task with
    | writeCompleteCallback => exact absurd rfl htask
    | _ => exact absurd hpromise id
  have horders : w.link.Orders (w.link.queueInLoop task) (w.link.pending ++ []).length :=
    .of_not_mem rfl (by simp) (by simp)
  have hstep := hs.step (TcpConnection.queueInLoop_spec hsound task) hflows horders hs.live
    (hs.watching.of_eq rfl rfl) (fun _ => rfl)
    (fun hcount => absurd (w.link.emit_halfCloses (by simp)) hcount)
  have htrace : (TcpConnection.queueInLoop w task).trace.drop w.trace.length = [.queued task] :=
    List.drop_left
  rwa [htrace] at hstep

/-- A step that changes neither the channel nor the output buffer nor the trace. -/
theorem Streams.congr (hs : Streams w log messages) (hlive : w'.link.Live)
    (hchannel : w'.conn.channel_ = w.conn.channel_)
    (hout : w'.conn.outputBuffer_ = w.conn.outputBuffer_) (htrace : w'.trace = w.trace) :
    Streams w' log messages := by
  have hpending : w'.link.pending = w.link.pending := congrArg Buffer.readable hout
  refine ⟨hlive, hs.watching.of_eq hchannel hpending, ?_, ?_, ?_, hs.handed, hs.quiet⟩
  · rw [htrace]
    exact hs.effects_eq
  · rw [htrace, hpending]
    exact hs.empty
  · rw [htrace, hpending]
    exact hs.flat

/-- A message of no bytes. -/
theorem Streams.append_nil (hs : Streams w log messages) : Streams w log (messages ++ [[]]) :=
  { hs with flat := by simpa using hs.flat }

/-! ## What waits -/

/-- The bytes that a queued task will send. -/
def Task.reads (memory : Address → Text) : Task → List UInt8
  | .sendInLoop data len => (memory data).1.take len.toNat
  | _ => []

/-- The bytes that the functor of a `send` will send, if it is queued now. -/
def Pc.reads (memory : Address → Text) : Pc → List UInt8
  | .sending data buf => (memory data).1.take buf.1.length
  | _ => []

/-- A task of a connection without a close, whose string is long enough. -/
def Task.Fits (memory : Address → Text) : Task → Prop
  | .sendInLoop data len => 0 ≤ len ∧ len.toNat ≤ (memory data).1.length
  | .conneectEstableished | .conneectDestroyed | .removeConnectionInLoop => False
  | _ => True

theorem Task.IsCallback.reads {task : Task} (h : task.IsCallback) (memory : Address → Text) :
    task.reads memory = [] := by
  cases task <;> first | rfl | exact absurd h id

theorem Task.IsCallback.fits {task : Task} (h : task.IsCallback) (memory : Address → Text) :
    task.Fits memory := by
  cases task <;> first | exact trivial | exact absurd h id

/-- A change of the memory that a task does not see leaves its string long enough. -/
theorem Task.Fits.of_reads {memory memory' : Address → Text} {task : Task}
    (h : task.Fits memory) (hreads : task.reads memory' = task.reads memory) :
    task.Fits memory' := by
  cases task with
  | sendInLoop data len =>
    refine ⟨h.1, ?_⟩
    have hlen := congrArg List.length hreads
    simp only [reads, List.length_take] at hlen
    have hle := h.2
    omega
  | _ => exact h

namespace Threads

/-! ## The conditions on the steps -/

/-- The event is a close of the connection. -/
def closes (w : World ι) : Event → Prop
  | .close => True
  | .read recv extraBuffer _ =>
    match w.conn.inputBuffer_.readFd recv extraBuffer with
    | .ok (n, _) => n = 0
    | .error _ => False
  | _ => False

/-- The step is a close event, or the server ends the connection. -/
def Closes (s : Threads ι τ) : Action τ → Prop
  | .event e => closes s.world e
  | .conneectDestroyed | .queueDestroyed => True
  | _ => False

/-- The step does not close the connection, and no write of it fails with `EPIPE` or
`ECONNRESET`. -/
structure Peaceful (s : Threads ι τ) (a : Action τ) : Prop where
  close : ¬s.Closes a
  write : ∀ send ∈ s.sent a, ¬Link.Faults send.2 send.1.length

/-- The step shuts the writing side down. -/
def HalfCloses (s : Threads ι τ) : Action τ → Prop
  | .event (.write answer) => s.world.conn.state_ = .kDisconnecting ∧ s.world.link.Empties answer
  | a => s.RunsShutdownInLoop a ∧ s.world.conn.channel_.isWriting = false

/-- No `send` that is queued, or about to be, has bytes to send. -/
def NoneWaits (s : Threads ι τ) : Prop :=
  (∀ f ∈ s.queue, f.task.reads s.memory = []) ∧ ∀ t, (s.thread t).reads s.memory = []

/-- The string with which the step calls `send`. -/
def argument (s : Threads ι τ) : Action τ → Option Text
  | .send data _ => some (s.memory data)
  | .callSend _ data => some (s.memory data)
  | _ => none

/-- The memory after the step. -/
def memoryAfter (s : Threads ι τ) : Action τ → Address → Text
  | .overwrite data text => Function.update s.memory data text
  | _ => s.memory

/-- The step does none of the three things by which sent bytes are cut off or changed. -/
structure Spares (s : Threads ι τ) (a : Action τ) : Prop where
  /-- No `send` of more bytes than an `int` can count. -/
  small : ∀ buf ∈ s.argument a, buf.1.length ≤ INT_MAX
  /-- No change of a string that a queued `send` will read, or one about to be queued. -/
  kept : (∀ f ∈ s.queue, f.task.reads (s.memoryAfter a) = f.task.reads s.memory) ∧
    ∀ t, (s.thread t).reads (s.memoryAfter a) = (s.thread t).reads s.memory
  /-- No half-close while bytes to send are queued, or about to be. -/
  last : s.HalfCloses a → s.NoneWaits

/-- Every `send` that has returned before a call of `shutdown` has been handed over when the writing
side is shut down, and nothing is written after that. -/
structure NotCut (s : Threads ι τ) : Prop where
  handed : ∀ pre connected mid post,
    s.log = pre ++ .shutdownCalled connected :: (mid ++ .effect .shutdownWrite :: post) →
      ∃ messages, handedBytes (effects (pre ++ mid)) = messages.flatten ∧
        (returned pre).Subperm messages
  quiet : ∀ pre post, s.log = pre ++ .effect .shutdownWrite :: post →
    ∀ n wrote, .effect (.write n wrote) ∈ post → n = 0

instance (l : Link ι) (write : Write) : Decidable (l.Empties write) := by
  unfold Link.Empties
  infer_instance

instance (w : World ι) (e : Event) : Decidable (closes w e) :=
  match e with
  | .close => .isTrue trivial
  | .read recv extraBuffer _ =>
    match h : w.conn.inputBuffer_.readFd recv extraBuffer with
    | .ok (n, _) => decidable_of_iff (n = 0) (by simp only [closes, h])
    | .error _ => .isFalse (by simp only [closes, h, not_false_eq_true])
  | .error | .write _ => .isFalse id

instance (s : Threads ι τ) (a : Action τ) : Decidable (s.Closes a) :=
  match a with
  | .event e => inferInstanceAs (Decidable (closes s.world e))
  | .conneectDestroyed | .queueDestroyed => .isTrue trivial
  | .send _ _ | .shutdown | .swap | .next _ | .finishDestroyed | .callSend _ _ | .queueSend _ |
    .callShutdown _ | .storeShutdown _ | .queueShutdown _ | .overwrite _ _ => .isFalse id

instance (s : Threads ι τ) (a : Action τ) : Decidable (s.Peaceful a) :=
  decidable_of_iff (_ ∧ _) ⟨fun h => ⟨h.1, h.2⟩, fun h => ⟨h.close, h.write⟩⟩

instance (s : Threads ι τ) (a : Action τ) : Decidable (s.HalfCloses a) :=
  match a with
  | .event (.write answer) =>
    inferInstanceAs (Decidable (_ = StateE.kDisconnecting ∧ Link.Empties _ answer))
  | .event .close | .event .error | .event (.read _ _ _) | .send _ _ | .shutdown | .swap | .next _ |
    .conneectDestroyed | .finishDestroyed | .queueDestroyed | .callSend _ _ | .queueSend _ |
    .callShutdown _ | .storeShutdown _ | .queueShutdown _ | .overwrite _ _ =>
    inferInstanceAs (Decidable (RunsShutdownInLoop _ _ ∧ _ = _))

instance [Fintype τ] (s : Threads ι τ) : Decidable s.NoneWaits := by
  unfold NoneWaits
  infer_instance

instance [Fintype τ] (s : Threads ι τ) (a : Action τ) : Decidable (s.Spares a) :=
  decidable_of_iff (_ ∧ _ ∧ _) ⟨fun h => ⟨h.1, h.2.1, h.2.2⟩, fun h => ⟨h.small, h.kept, h.last⟩⟩

/-! ## The invariant -/

/-- The bytes that the queue will send. -/
def waiting (s : Threads ι τ) : List (List UInt8) := s.queue.map fun f => f.task.reads s.memory

/-- The queued functors, and the threads that are about to queue one. -/
structure Tidy (s : Threads ι τ) : Prop where
  destroying : s.destroying = false
  tasks : ∀ f ∈ s.queue, f.task.Fits s.memory
  pcs : ∀ t data buf, s.thread t = .sending data buf →
    buf.1.length ≤ INT_MAX ∧ (s.memory data).1.take buf.1.length = buf.1

/-- The invariant of a run that is peaceful and spares what waits. -/
structure Flowing (s : Threads ι τ) : Prop where
  tidy : s.Tidy
  done : .shutdownWrite ∈ s.world.trace → s.NoneWaits
  streams : ∃ messages, Streams s.world s.log messages ∧
    (returned s.log).Subperm (messages ++ s.waiting)

variable {s t : Threads ι τ}

/-- An event that is not a close keeps the connection live. -/
theorem live_of_not_closes {w : World ι} {e : Event} (hlive : w.link.Live) (h : ¬closes w e) :
    (e.op.link w).Live := by
  cases e with
  | close => exact absurd trivial h
  | error => exact hlive
  | read recv extraBuffer onMessage =>
    simp only [closes] at h
    simp only [Event.op, TcpConnection.Op.link]
    split
    next n input hread =>
      simp only [hread] at h
      unfold Link.handleRead
      split
      · exact hlive
      · exact hlive
    next => exact hlive
  | write answer => simpa [Event.op, TcpConnection.Op.link, Link.Live] using hlive

/-- An event that half-closes is a write event that empties the output buffer. -/
theorem halfCloses_of_event {e : Event}
    (h : (e.op.link s.world).halfCloses ≠ s.world.link.halfCloses) : s.HalfCloses (.event e) := by
  cases e with
  | close => exact absurd s.world.link.handleClose_halfCloses h
  | error => exact absurd rfl h
  | read recv extraBuffer onMessage =>
    refine absurd ?_ h
    simp only [Event.op, TcpConnection.Op.link]
    split
    · exact s.world.link.handleRead_halfCloses _
    · rfl
  | write answer =>
    cases s.world.link.handleWrite_handles answer with
    | calm hcalm => exact absurd hcalm.halfCloses_eq h
    | halfClose hstate hwriting _ hwriting' =>
      refine ⟨hstate, ?_⟩
      by_contra hempties
      rw [(Link.handleWrite_of_not_empties hempties).1, hwriting] at hwriting'
      cases hwriting'
    | close heq =>
      refine absurd ?_ h
      rw [show (Event.write answer).op.link s.world = _ from heq, Link.handleClose_halfCloses]

theorem flatten_waiting (h : s.NoneWaits) : s.waiting.flatten = [] := by
  refine List.flatten_eq_nil_iff.2 fun bytes hbytes => ?_
  obtain ⟨f, hf, rfl⟩ := List.mem_map.1 hbytes
  exact h.1 f hf

@[simp] theorem returned_moved (s : Threads ι τ) (w : World ι) :
    returned (s.moved w).log = returned s.log := by
  rw [moved, returned_append, returned_map, List.append_nil]

theorem Tidy.moved (hs : s.Tidy) {w : World ι} (h : s.world.link.Grows w.link) :
    (s.moved w).Tidy := by
  obtain ⟨news, hqueue, hnews⟩ := queue_moved h
  refine ⟨hs.destroying, fun f hf => ?_, hs.pcs⟩
  rw [hqueue] at hf
  rcases List.mem_append.1 hf with hf | hf
  · exact hs.tasks f hf
  · exact (hnews f hf).fits _

theorem NoneWaits.moved (hs : s.NoneWaits) {w : World ι} (h : s.world.link.Grows w.link) :
    (s.moved w).NoneWaits := by
  obtain ⟨news, hqueue, hnews⟩ := queue_moved h
  refine ⟨fun f hf => ?_, hs.2⟩
  rw [hqueue] at hf
  rcases List.mem_append.1 hf with hf | hf
  · exact hs.1 f hf
  · exact (hnews f hf).reads _

theorem waiting_moved {w : World ι} (h : s.world.link.Grows w.link) :
    s.waiting.Sublist (s.moved w).waiting := by
  obtain ⟨news, hqueue, -⟩ := queue_moved h
  rw [waiting, waiting, hqueue, List.map_append]
  exact List.sublist_append_left _ _

theorem Flowing.note (hs : s.Flowing) {m : Mark} (hm : ∀ e, m ≠ .effect e)
    (hreturned : ∀ buf, m ≠ .returned buf) : (s.note m).Flowing := by
  obtain ⟨messages, hstreams, hsub⟩ := hs.streams
  refine ⟨⟨hs.tidy.destroying, hs.tidy.tasks, hs.tidy.pcs⟩, hs.done, messages, hstreams.note hm, ?_⟩
  have hnone : returned [m] = [] := by
    cases m with
    | returned buf => exact absurd rfl (hreturned buf)
    | _ => rfl
  rw [Threads.note, returned_append, hnone, List.append_nil]
  exact hsub

/-- The connection has become `w`, and been given the message `bytes`. -/
structure Advanced (s : Threads ι τ) (w : World ι) (messages : List (List UInt8))
    (bytes : List UInt8) : Prop where
  tidy : (s.moved w).Tidy
  done : .shutdownWrite ∈ w.trace → (s.moved w).NoneWaits
  streams : Streams w (s.moved w).log (messages ++ [bytes])
  waiting : s.waiting.Sublist (s.moved w).waiting

/-- The connection makes the step `op`, which accepts all its bytes; `s` may have lost the functor
that runs, whose bytes they are. -/
theorem advanced_op (op : TcpConnection.Op) (htidy : s.Tidy) {w : World ι}
    {messages : List (List UInt8)} (hs : Streams s.world s.log messages)
    (hsub : (returned s.log).Subperm (messages ++ op.bytes :: s.waiting))
    (hrefines : s.world.Refines w (op.link s.world)) (hgrows : s.world.link.Grows (op.link s.world))
    (hlive : (op.link s.world).Live) (haccepted : op.accepted s.world = op.bytes)
    (hdone : .shutdownWrite ∈ s.world.trace → op.bytes = [] ∧ s.NoneWaits)
    (hcut : (op.link s.world).halfCloses ≠ s.world.link.halfCloses → op.bytes = [] ∧ s.NoneWaits) :
    s.Advanced w messages op.bytes := by
  obtain ⟨-, hlink, -, -⟩ := id hrefines
  have hgrows' : s.world.link.Grows w.link := hlink ▸ hgrows
  have hchunks : ∀ h : op.bytes = [] ∧ s.NoneWaits,
      ∃ chunks, chunks.flatten = messages.flatten ∧ (returned s.log).Subperm chunks := by
    rintro ⟨hbytes, hnone⟩
    refine ⟨messages ++ op.bytes :: s.waiting, ?_, hsub⟩
    simp [hbytes, flatten_waiting hnone]
  refine ⟨htidy.moved hgrows', fun hhalf => ?_,
    hs.op hrefines hlive haccepted (fun h => (hdone h).1) (fun h => hchunks (hcut h)),
    waiting_moved hgrows'⟩
  refine NoneWaits.moved ?_ hgrows'
  by_cases hold : .shutdownWrite ∈ s.world.trace
  · exact (hdone hold).2
  · refine (hcut ?_).2
    rw [← hlink, Ne, show s.world.link.halfCloses = 0 from List.count_eq_zero.2 hold]
    exact Nat.ne_of_gt (List.count_pos_iff.2 hhalf)

theorem Advanced.flowing {w : World ι} {messages : List (List UInt8)} {bytes : List UInt8}
    (h : s.Advanced w messages bytes)
    (hsub : (returned s.log).Subperm (messages ++ bytes :: s.waiting)) : (s.moved w).Flowing := by
  refine ⟨h.tidy, h.done, messages ++ [bytes], h.streams, ?_⟩
  rw [returned_moved, List.append_assoc]
  exact hsub.trans ((h.waiting.cons_cons _).append_left _).subperm

/-- A `send` of the message returns. -/
theorem Advanced.returned {w : World ι} {messages : List (List UInt8)} {bytes : List UInt8}
    (h : s.Advanced w messages bytes)
    (hsub : (returned s.log).Subperm (messages ++ s.waiting)) :
    ((s.moved w).note (.returned bytes)).Flowing := by
  refine ⟨⟨h.tidy.destroying, h.tidy.tasks, h.tidy.pcs⟩, h.done, messages ++ [bytes],
    h.streams.note (by simp), ?_⟩
  have hone : Muduo.returned [.returned bytes] = [bytes] := rfl
  rw [note, returned_append, returned_moved, hone]
  refine ((List.subperm_append_right [bytes]).2 hsub).trans ?_
  rw [List.append_assoc, List.append_assoc]
  refine (List.subperm_append_left messages).2 (List.perm_append_comm.subperm.trans ?_)
  exact (h.waiting.cons_cons _).subperm

/-- `sendInLoop` runs on the first `n` bytes of a string, without a write error. -/
theorem advanced_sendInLoop (hbase : s.Base) (htidy : s.Tidy) {messages : List (List UInt8)}
    (hs : Streams s.world s.log messages) {data : Text} {n : ℕ} (hn : n ≤ data.1.length)
    (hint : n ≤ INT_MAX) {write : Write} {w : World ι}
    (hsub : (returned s.log).Subperm (messages ++ data.1.take n :: s.waiting))
    (hfaults : ¬Link.Faults write (data.1.take n).length)
    (hdone : .shutdownWrite ∈ s.world.trace → data.1.take n = [] ∧ s.NoneWaits)
    (h : TcpConnection.sendInLoop s.world data.1 n write = .ok w) :
    s.Advanced w messages (data.1.take n) := by
  have hlen : (data.1.take n).length ≤ INT_MAX := by
    rw [List.length_take]
    omega
  have hrefines := TcpConnection.sendInLoop_take hbase.sound data.2 hn h
  have hcalm := s.world.link.send_calm (data.1.take n) write
  refine advanced_op (.sendInLoop ⟨data.1.take n, hlen⟩ write) htidy hs hsub hrefines
    hcalm.grows ?_ ?_ hdone fun hcount => absurd hcalm.halfCloses_eq hcount
  · have hlive := hs.live
    rwa [Link.Live, ← hcalm.state_eq] at hlive
  · refine if_neg ?_
    rintro (hstate | ⟨-, hfaults'⟩)
    · exact hs.live.ne hstate
    · exact hfaults hfaults'

/-- A `shutdownInLoop` runs that was asked for. -/
theorem Flowing.shutdownInLoop (hbase : s.Base) (hs : s.Flowing)
    (hcut : s.world.conn.channel_.isWriting = false → s.NoneWaits)
    (h : s.shutdownInLoop = .ok t) : t.Flowing := by
  obtain rfl := shutdownInLoop_ok h
  obtain ⟨messages, hstreams, hsub⟩ := hs.streams
  have hcount := s.world.link.shutdownInLoop_halfCloses
  refine Flowing.note ?_ (by simp) (by simp)
  have hsub' := hsub.trans ((List.sublist_cons_self [] s.waiting).append_left messages).subperm
  refine Advanced.flowing (advanced_op .shutdownInLoop hs.tidy hstreams hsub'
    (TcpConnection.shutdownInLoop_spec hbase.sound) s.world.link.grows_shutdownInLoop ?_ rfl
    (fun hhalf => ⟨rfl, hs.done hhalf⟩) fun hne => ⟨rfl, hcut ?_⟩) hsub'
  · simpa [TcpConnection.Op.link, Link.Live] using hstreams.live
  · by_contra hoff
    have hon : s.world.link.channel_.isWriting = true := by simpa using hoff
    rw [if_pos hon] at hcount
    exact hne hcount

/-- The loop thread calls `shutdown`. -/
theorem Flowing.shutdown (hbase : s.Base) (hs : s.Flowing)
    (hcut : s.world.conn.state_ = .kConnected → s.world.conn.channel_.isWriting = false →
      s.NoneWaits) (h : s.shutdown = .ok t) : t.Flowing := by
  rcases shutdown_ok h with ⟨hconnected, rfl⟩ | ⟨-, rfl⟩
  · have hnoted : (s.note (.shutdownCalled true)).Flowing := hs.note (by simp) (by simp)
    obtain ⟨messages, hstreams, hsub⟩ := hnoted.streams
    have hlink : s.world.link.shutdown true =
        (s.world.link.setState .kDisconnecting).shutdownInLoop := by
      simp [Link.shutdown, hconnected]
    have hcount := (s.world.link.setState .kDisconnecting).shutdownInLoop_halfCloses
    refine Flowing.note ?_ (by simp) (by simp)
    have hsub' := hsub.trans ((List.sublist_cons_self [] s.waiting).append_left messages).subperm
    refine Advanced.flowing (advanced_op (.shutdown true) hnoted.tidy hstreams hsub'
      (TcpConnection.shutdown_spec hbase.sound true) s.world.link.grows_shutdown ?_ rfl
      (fun hhalf => ⟨rfl, hnoted.done hhalf⟩) fun hne => ⟨rfl, hcut hconnected ?_⟩) hsub'
    · refine .inr ?_
      rw [show TcpConnection.Op.link _ _ = s.world.link.shutdown true from rfl, hlink]
      simp
    · by_contra hoff
      have hon : (s.world.link.setState .kDisconnecting).channel_.isWriting = true := by
        simpa using hoff
      rw [if_pos hon, ← hlink] at hcount
      exact hne hcount
  · exact hs.note (by simp) (by simp)

/-- The next functor is taken from the round. -/
theorem Flowing.pop (hs : s.Flowing) {f : Functor ι} {fs : List (Functor ι)}
    (hfunctors : s.functors = f :: fs) :
    Tidy { s with functors := fs } ∧ f.task.Fits s.memory ∧
      (s.NoneWaits → f.task.reads s.memory = [] ∧ NoneWaits { s with functors := fs }) ∧
      s.waiting = f.task.reads s.memory :: waiting { s with functors := fs } := by
  have hqueue : s.queue = f :: queue { s with functors := fs } := by rw [queue, hfunctors]; rfl
  refine ⟨⟨hs.tidy.destroying, fun g hg => ?_, hs.tidy.pcs⟩, ?_, fun hnone => ⟨?_, ?_, hnone.2⟩, ?_⟩
  · exact hs.tidy.tasks g (hqueue ▸ List.mem_cons_of_mem f hg)
  · exact hs.tidy.tasks f (hqueue ▸ List.mem_cons_self)
  · exact hnone.1 f (hqueue ▸ List.mem_cons_self)
  · exact fun g hg => hnone.1 g (hqueue ▸ List.mem_cons_of_mem f hg)
  · rw [waiting, hqueue]
    rfl

/-- A functor runs that sends nothing. -/
theorem Flowing.pop_flowing (hs : s.Flowing) {f : Functor ι} {fs : List (Functor ι)}
    (hfunctors : s.functors = f :: fs) (hreads : f.task.reads s.memory = []) :
    Flowing { s with functors := fs } := by
  obtain ⟨htidy, -, hnone, hwaiting⟩ := hs.pop hfunctors
  obtain ⟨messages, hstreams, hsub⟩ := hs.streams
  refine ⟨htidy, fun hhalf => (hnone (hs.done hhalf)).2, messages ++ [[]], hstreams.append_nil, ?_⟩
  rw [hwaiting, hreads] at hsub
  rw [List.append_assoc]
  exact hsub

/-- The next functor runs. -/
theorem Flowing.next (hbase : s.Base) (hs : s.Flowing) {f : Functor ι} {fs : List (Functor ι)}
    (hfunctors : s.functors = f :: fs) {write : Write}
    (hfaults : ∀ data len, f.task = .sendInLoop data len →
      ¬Link.Faults write ((s.memory data).1.take len.toNat).length)
    (hcut : f.task = .shutdownInLoop → s.world.conn.channel_.isWriting = false → s.NoneWaits)
    (h : call { s with functors := fs } write f.task = .ok t) : t.Flowing := by
  obtain ⟨hpop, hqueued, -⟩ := hbase.pop hfunctors
  obtain ⟨htidy, hfits, hnone, hwaiting⟩ := hs.pop hfunctors
  have hflowing := hs.pop_flowing hfunctors
  obtain ⟨conn, task⟩ := f
  cases task with
  | sendInLoop data len =>
    obtain ⟨hpos, hle⟩ := hfits
    obtain ⟨n, rfl⟩ := Int.eq_ofNat_of_zero_le hpos
    have h : exec { s with functors := fs }
        (fun w => TcpConnection.sendInLoop w (s.memory data).1 n write) = .ok t := h
    obtain ⟨w, hw, rfl⟩ := exec_ok h
    obtain ⟨messages, hstreams, hsub⟩ := hs.streams
    rw [hwaiting] at hsub
    have hint : n ≤ INT_MAX := by
      have hlt : (n : ℤ) < 2 ^ 31 := hqueued.2
      unfold INT_MAX
      omega
    exact (advanced_sendInLoop hpop htidy hstreams hle hint hsub (hfaults data n rfl)
      (fun hhalf => hnone (hs.done hhalf)) hw).flowing hsub
  | shutdownInLoop =>
    exact (hflowing rfl).shutdownInLoop hpop (fun hoff => (hnone (hcut rfl hoff)).2) h
  | writeCompleteCallback | highWaterMarkCallback => exact Except.ok.inj h ▸ hflowing rfl
  | conneectEstableished | conneectDestroyed | removeConnectionInLoop => exact absurd hfits id

variable [DecidableEq τ]

/-- The thread `t` has nothing more to send than `pc` has. -/
theorem noneWaits_enter (hs : s.NoneWaits) (t : τ) {pc : Pc} (hpc : pc.reads s.memory = []) :
    (s.enter t pc).NoneWaits := by
  refine ⟨hs.1, fun t' => ?_⟩
  by_cases ht : t' = t
  · subst ht
    simpa [enter] using hpc
  · simpa [enter, ht] using hs.2 t'

theorem tidy_enter (hs : s.Tidy) (t : τ) {pc : Pc} (hpc : ∀ data buf, pc = .sending data buf →
    buf.1.length ≤ INT_MAX ∧ (s.memory data).1.take buf.1.length = buf.1) :
    (s.enter t pc).Tidy := by
  refine ⟨hs.destroying, hs.tasks, fun t' data buf h => ?_⟩
  by_cases ht : t' = t
  · subst ht
    exact hpc data buf (by simpa [enter] using h)
  · exact hs.pcs t' data buf (by simpa [enter, ht] using h)

theorem Flowing.enter (hs : s.Flowing) (t : τ) {pc : Pc} (hreads : pc.reads s.memory = [])
    (hpc : ∀ data buf, pc = .sending data buf →
      buf.1.length ≤ INT_MAX ∧ (s.memory data).1.take buf.1.length = buf.1) :
    (s.enter t pc).Flowing :=
  ⟨tidy_enter hs.tidy t hpc, fun hhalf => noneWaits_enter (hs.done hhalf) t hreads, hs.streams⟩

/-- The thread `t` queues a task, whose string is long enough, and is idle again. -/
theorem Flowing.queued (hbase : s.Base) (hs : s.Flowing) (t : τ) {task : Task}
    (htask : task.Fits s.memory) (hdone : .shutdownWrite ∈ s.world.trace →
      task.reads s.memory = []) (hcallback : task ≠ .writeCompleteCallback) {u : Threads ι τ}
    (h : s.queueInLoop task = .ok u) : (u.enter t .idle).Tidy ∧
      (.shutdownWrite ∈ u.world.trace → (u.enter t .idle).NoneWaits) ∧
      (u.enter t .idle).waiting = s.waiting ++ [task.reads s.memory] ∧
      returned u.log = returned s.log ∧ ∀ messages, Streams s.world s.log messages →
        Streams u.world u.log (messages ++ [[]]) := by
  obtain rfl := queueInLoop_ok h
  have hqueue : (s.moved (TcpConnection.queueInLoop s.world task)).queue =
      s.queue ++ [⟨s.world.self, task⟩] := (List.append_assoc _ _ _).symm
  have htidy : (s.moved (TcpConnection.queueInLoop s.world task)).Tidy := by
    refine ⟨hs.tidy.destroying, fun f hf => ?_, hs.tidy.pcs⟩
    rw [hqueue] at hf
    rcases List.mem_append.1 hf with hf | hf
    · exact hs.tidy.tasks f hf
    · obtain rfl := List.mem_singleton.1 hf
      exact htask
  have hnone : .shutdownWrite ∈ s.world.trace →
      (s.moved (TcpConnection.queueInLoop s.world task)).NoneWaits := by
    refine fun hhalf => ⟨fun f hf => ?_, (hs.done hhalf).2⟩
    rw [hqueue] at hf
    rcases List.mem_append.1 hf with hf | hf
    · exact (hs.done hhalf).1 f hf
    · obtain rfl := List.mem_singleton.1 hf
      exact hdone hhalf
  refine ⟨tidy_enter htidy t fun data buf h => Pc.noConfusion h, fun hhalf => ?_, ?_,
    returned_moved _ _, fun messages hstreams => ?_⟩
  · refine noneWaits_enter (hnone ((List.mem_append.1 hhalf).resolve_right ?_)) t rfl
    simp
  · have hqueue' : ((s.moved (TcpConnection.queueInLoop s.world task)).enter t .idle).queue =
        s.queue ++ [⟨s.world.self, task⟩] := hqueue
    rw [waiting, hqueue', List.map_append]
    rfl
  · have hstep := hstreams.queue hbase.sound hcallback
    have htrace : (TcpConnection.queueInLoop s.world task).trace.drop s.world.trace.length =
        [.queued task] := List.drop_left
    rwa [Threads.moved, htrace]

omit [DecidableEq τ] in
/-- Nothing has shut the writing side of a connected connection down. -/
theorem Base.not_mem_shutdownWrite (hbase : s.Base) (hconnected : s.world.conn.state_ = .kConnected) :
    .shutdownWrite ∉ s.world.trace :=
  fun hhalf => hbase.asked (.inr (.inl (halfCloses_ne_zero.2 hhalf))) hconnected

omit [DecidableEq τ] in
/-- The connection handles an event. -/
theorem Flowing.event (hbase : s.Base) (hs : s.Flowing) {e : Event} (hclose : ¬closes s.world e)
    (hcut : s.HalfCloses (.event e) → s.NoneWaits) {w : World ι} (hw : e.op.exec s.world = .ok w) :
    (s.moved w).Flowing := by
  obtain ⟨messages, hstreams, hsub⟩ := hs.streams
  have hbytes : e.op.bytes = [] := by cases e <;> rfl
  have hsub' := hsub.trans
    ((List.sublist_cons_self e.op.bytes s.waiting).append_left messages).subperm
  refine Advanced.flowing (advanced_op e.op hs.tidy hstreams hsub'
    (TcpConnection.Op.exec_ok hbase.sound hw) ?_
    (live_of_not_closes hstreams.live hclose) (by cases e <;> rfl)
    (fun hhalf => ⟨hbytes, hs.done hhalf⟩)
    fun hcount => ⟨hbytes, hcut (halfCloses_of_event hcount)⟩) hsub'
  cases e.handles s.world with
  | calm hcalm => exact hcalm.grows
  | halfClose _ _ _ _ _ hgrows => exact hgrows
  | close heq => exact heq ▸ s.world.link.grows_handleClose

omit [DecidableEq τ] in
/-- The loop thread calls `send` with a string that an `int` can count. -/
theorem Flowing.sends (hbase : s.Base) (hs : s.Flowing) {data : Address} {write : Write} {w : World ι}
    (hsmall : (s.memory data).1.length ≤ INT_MAX)
    (hfaults : ∀ send ∈ s.sent (.send data write), ¬Link.Faults send.2 send.1.length)
    (hconnected : s.world.conn.state_ = .kConnected)
    (h : TcpConnection.sendInLoop s.world (s.memory data).1 (castInt (s.memory data).1.length)
      write = .ok w) : ((s.moved w).note (.returned (s.memory data).1)).Flowing := by
  obtain ⟨messages, hstreams, hsub⟩ := hs.streams
  have hfaults := hfaults _ rfl
  rw [castInt_of_le hsmall] at h hfaults
  have hsub' := hsub.trans
    ((List.sublist_cons_self (s.memory data).1 s.waiting).append_left messages).subperm
  rw [← List.take_length (l := (s.memory data).1)] at hsub'
  have hadvanced := advanced_sendInLoop hbase hs.tidy hstreams (Nat.le_refl _) hsmall hsub'
    hfaults (fun hhalf => absurd hhalf (hbase.not_mem_shutdownWrite hconnected)) h
  rw [List.take_length] at hadvanced
  exact hadvanced.returned hsub

omit [DecidableEq τ] in
/-- A new round takes the functors that are pending. -/
theorem Flowing.swap (hs : s.Flowing) (hfunctors : s.functors = []) :
    Flowing { s with
      functors := s.world.loop.pendingFunctors_
      world.loop.pendingFunctors_ := [] } := by
  obtain ⟨messages, hstreams, hsub⟩ := hs.streams
  have hqueue : s.queue = s.world.loop.pendingFunctors_ ++ [] := by
    simp [queue, hfunctors]
  refine ⟨⟨hs.tidy.destroying, fun f hf => ?_, hs.tidy.pcs⟩, fun hhalf => ⟨fun f hf => ?_, ?_⟩,
    messages, ?_, ?_⟩
  · exact hs.tidy.tasks f (hqueue ▸ hf)
  · exact (hs.done hhalf).1 f (hqueue ▸ hf)
  · exact (hs.done hhalf).2
  · exact hstreams.congr hstreams.live rfl rfl rfl
  · rw [waiting, hqueue] at hsub
    exact hsub

/-- Another thread, whose string is unchanged, queues its `send`, which returns. -/
theorem Flowing.queueSend (hbase : s.Base) (hs : s.Flowing) {t : τ} {data : Address} {buf : Text}
    (hthread : s.thread t = .sending data buf) {u : Threads ι τ}
    (h : s.queueInLoop (.sendInLoop data (castInt buf.1.length)) = .ok u) :
    ((u.enter t .idle).note (.returned buf.1)).Flowing := by
  obtain ⟨messages, hstreams, hsub⟩ := hs.streams
  obtain ⟨hsmall, htake⟩ := hs.tidy.pcs t data buf hthread
  have hreads : Task.reads s.memory (.sendInLoop data (castInt buf.1.length)) = buf.1 := by
    rw [castInt_of_le hsmall]
    exact htake
  have hfits : Task.Fits s.memory (.sendInLoop data (castInt buf.1.length)) := by
    rw [castInt_of_le hsmall]
    refine ⟨by omega, ?_⟩
    have hlen := congrArg List.length htake
    rw [List.length_take] at hlen
    simp only [Int.toNat_natCast]
    omega
  have hempty : .shutdownWrite ∈ s.world.trace → buf.1 = [] := fun hhalf => by
    have hnone := (hs.done hhalf).2 t
    rw [hthread] at hnone
    exact htake.symm.trans hnone
  obtain ⟨htidy, hdone, hwaiting, hreturned, hqueued⟩ := hs.queued hbase t hfits
    (fun hhalf => hreads.trans (hempty hhalf)) (by simp) h
  refine ⟨⟨htidy.destroying, htidy.tasks, htidy.pcs⟩, hdone, messages ++ [[]],
    (hqueued messages hstreams).note (by simp), ?_⟩
  have hone : returned [.returned buf.1] = [buf.1] := rfl
  have hwaiting' : ((u.enter t .idle).note (.returned buf.1)).waiting = s.waiting ++ [buf.1] :=
    hwaiting.trans (by rw [hreads])
  rw [hwaiting', Threads.note, returned_append, hone, show returned (u.enter t .idle).log = _ from
    hreturned, ← List.append_assoc, List.append_assoc messages]
  refine (List.subperm_append_right _).2 (hsub.trans ?_)
  exact ((List.sublist_cons_self [] s.waiting).append_left messages).subperm

/-- Another thread queues its `shutdownInLoop`. -/
theorem Flowing.queueShutdown (hbase : s.Base) (hs : s.Flowing) (t : τ) {u : Threads ι τ}
    (h : s.queueInLoop .shutdownInLoop = .ok u) : (u.enter t .idle).Flowing := by
  obtain ⟨messages, hstreams, hsub⟩ := hs.streams
  have hfits : Task.Fits s.memory .shutdownInLoop := trivial
  obtain ⟨htidy, hdone, hwaiting, hreturned, hqueued⟩ :=
    hs.queued hbase t hfits (fun _ => rfl) (by simp) h
  refine ⟨htidy, hdone, messages ++ [[]], hqueued messages hstreams, ?_⟩
  rw [hwaiting, show returned (u.enter t .idle).log = _ from hreturned, List.append_assoc]
  refine hsub.trans ((List.Sublist.append_left ?_ messages).subperm)
  exact ((List.sublist_append_left s.waiting _).trans (List.sublist_cons_self [] _))

omit [DecidableEq τ] in
/-- A string is overwritten that nothing queued, or about to be, reads otherwise than before. -/
theorem Flowing.overwrite (hs : s.Flowing) {memory : Address → Text}
    (hqueue : ∀ f ∈ s.queue, f.task.reads memory = f.task.reads s.memory)
    (hthreads : ∀ t, (s.thread t).reads memory = (s.thread t).reads s.memory) :
    Flowing { s with memory := memory } := by
  obtain ⟨messages, hstreams, hsub⟩ := hs.streams
  refine ⟨⟨hs.tidy.destroying, fun f hf => ?_, fun t data buf heq => ?_⟩,
    fun hhalf => ⟨fun f hf => ?_, fun t => ?_⟩, messages, hstreams.congr hstreams.live rfl rfl rfl, ?_⟩
  · exact (hs.tidy.tasks f hf).of_reads (hqueue f hf)
  · obtain ⟨hsmall, htake⟩ := hs.tidy.pcs t data buf heq
    have hkept := hthreads t
    rw [show s.thread t = _ from heq] at hkept
    exact ⟨hsmall, hkept.trans htake⟩
  · exact (hqueue f hf).trans ((hs.done hhalf).1 f hf)
  · exact (hthreads t).trans ((hs.done hhalf).2 t)
  · have hwaiting : waiting { s with memory := memory } = s.waiting := List.map_congr_left hqueue
    rw [hwaiting]
    exact hsub

/-- **Every step** that is peaceful and spares what waits keeps the invariant. -/
theorem Flowing.step (hbase : s.Base) (hs : s.Flowing) {a : Action τ} (hpeaceful : s.Peaceful a)
    (hspares : s.Spares a) (h : s.step a = .ok t) : t.Flowing := by
  cases step_ok h with
  | stay => exact hs
  | event e w hw => exact hs.event hbase hpeaceful.close hspares.last hw
  | send data write w hconnected hw =>
    exact hs.sends hbase (hspares.small _ rfl) hpeaceful.write hconnected hw
  | shutdown _ h =>
    exact hs.shutdown hbase (fun hconnected hoff => hspares.last ⟨hconnected, hoff⟩) h
  | swap hfunctors => exact hs.swap hfunctors
  | next f fs write _ _ hfunctors h =>
    refine hs.next hbase hfunctors (fun data len htask => hpeaceful.write (_, _) ?_)
      (fun htask hoff => hspares.last ⟨?_, hoff⟩) h
    · obtain ⟨conn, task⟩ := f
      obtain rfl := htask
      simp [sent, hfunctors]
    · simp [RunsShutdownInLoop, hfunctors, htask]
  | conneectDestroyed => exact absurd trivial hpeaceful.close
  | finishDestroyed _ hdestroying =>
    exact absurd (hs.tidy.destroying.symm.trans hdestroying) Bool.noConfusion
  | queueDestroyed => exact absurd trivial hpeaceful.close
  | callSend i data _ hconnected =>
    refine ⟨tidy_enter hs.tidy i fun data' buf heq => ?_,
      fun hhalf => absurd hhalf (hbase.not_mem_shutdownWrite hconnected), hs.streams⟩
    cases heq
    exact ⟨hspares.small _ rfl, List.take_length⟩
  | queueSend i data buf u hi hu => exact hs.queueSend hbase hi hu
  | callShutdown i =>
    have hnoted : (s.note (.shutdownCalled true)).Flowing := hs.note (by simp) (by simp)
    exact hnoted.enter i rfl fun data buf h => Pc.noConfusion h
  | callShutdownLate => exact hs.note (by simp) (by simp)
  | storeShutdown i =>
    obtain ⟨messages, hstreams, hsub⟩ := hs.streams
    refine Flowing.enter ?_ i rfl fun data buf h => Pc.noConfusion h
    exact ⟨⟨hs.tidy.destroying, hs.tidy.tasks, hs.tidy.pcs⟩, hs.done, messages,
      hstreams.congr (.inr rfl) rfl rfl rfl, hsub⟩
  | queueShutdown i u _ hu => exact hs.queueShutdown hbase i hu
  | overwrite => exact hs.overwrite hspares.kept.1 hspares.kept.2

/-! ## Runs -/

omit [DecidableEq τ] in
theorem start_flowing {w : World ι} (hw : w.Established) (hqueue : w.loop.pendingFunctors_ = [])
    (memory : Address → Text) : (start w memory : Threads ι τ).Flowing := by
  obtain ⟨hsound, hinitial⟩ := hw.spec
  have htrace : w.trace = [.connectionCallback .kConnected] := hinitial.trace_eq
  have hempty : (start w memory : Threads ι τ).queue = [] := by simp [queue, start, hqueue]
  have hnone : ∀ pre post, (start w memory : Threads ι τ).log ≠
      pre ++ .effect .shutdownWrite :: post := by
    intro pre post h
    have hmem : Mark.effect .shutdownWrite ∈ (start w memory : Threads ι τ).log := by simp [h]
    simp [start, htrace] at hmem
  refine ⟨⟨rfl, by simp [hempty], fun t data buf h => Pc.noConfusion h⟩, fun hhalf => ?_, [], ?_, ?_⟩
  · simp [start, htrace] at hhalf
  · refine ⟨.inl hinitial.state_eq, ⟨hinitial.index_eq, .inl hinitial.events_eq⟩, effects_map _,
      fun _ => hinitial.pending_eq, ?_, fun pre post h => absurd h (hnone pre post),
      fun pre post h => absurd h (hnone pre post)⟩
    rw [show (start w memory : Threads ι τ).world = w from rfl, hinitial.pending_eq, htrace]
    rfl
  · simp [start, waiting]

theorem flowing_run {w : World ι} {memory : Address → Text} {actions : List (Action τ)}
    (hw : w.Established) (hqueue : w.loop.pendingFunctors_ = [])
    (hP : Along step (fun s a => s.Peaceful a ∧ s.Spares a) (start w memory) actions)
    (h : run step (start w memory) actions = .ok t) : t.Base ∧ t.Flowing := by
  refine Along.invariant (I := fun s => s.Base ∧ s.Flowing) ?_
    ⟨start_base hw hqueue memory, start_flowing hw hqueue memory⟩ hP h
  rintro s a u ⟨hbase, hs⟩ ⟨hpeaceful, hspares⟩ hu
  exact ⟨hbase.step hu, hs.step hbase hpeaceful hspares hu⟩

/-- **Half-closing does not cut accepted sends**, in every run without a close and without a write
error that spares what waits. -/
theorem notCut {w : World ι} {memory : Address → Text} {actions : List (Action τ)}
    (hw : w.Established) (hqueue : w.loop.pendingFunctors_ = [])
    (hP : Along step (fun s a => s.Peaceful a ∧ s.Spares a) (start w memory) actions)
    (h : run step (start w memory) actions = .ok t) : t.NotCut := by
  obtain ⟨messages, hstreams, -⟩ := (flowing_run hw hqueue hP h).2.streams
  refine ⟨fun pre connected mid post hlog => ?_, hstreams.quiet⟩
  rw [← List.cons_append, ← List.append_assoc] at hlog
  obtain ⟨messages, hflat, hsub⟩ := hstreams.handed _ post hlog
  refine ⟨messages, ?_, ?_⟩
  · rw [← hflat, effects_append, effects_append]
    rfl
  · refine List.Subperm.trans ?_ hsub
    rw [returned_append]
    exact (List.sublist_append_left _ _).subperm

/-- A byte is sent and written, and another thread shuts the connection down. -/
theorem notCut_written : ∃ (w : World Unit) (t : Threads Unit Unit), w.Established ∧
    run step (start w oneByte) [.send 65 TcpConnection.takesAll,
      .event (.write TcpConnection.takesAll), .callShutdown (), .storeShutdown (),
      .queueShutdown (), .swap, .next TcpConnection.takesAll] = .ok t ∧
    .shutdownWrite ∈ t.world.trace ∧ t.NotCut := by
  have hrun : (TcpConnection.conneectEstableished (TcpConnection.newWorld false) >>= fun w =>
      (run step (start w oneByte : Threads Unit Unit) [.send 65 TcpConnection.takesAll,
        .event (.write TcpConnection.takesAll), .callShutdown (), .storeShutdown (),
        .queueShutdown (), .swap, .next TcpConnection.takesAll]).map fun t =>
      (w.loop.pendingFunctors_, decide (Along step (fun s a => s.Peaceful a ∧ s.Spares a)
        (start w oneByte : Threads Unit Unit) [.send 65 TcpConnection.takesAll,
          .event (.write TcpConnection.takesAll), .callShutdown (), .storeShutdown (),
          .queueShutdown (), .swap, .next TcpConnection.takesAll]),
        decide (.shutdownWrite ∈ t.world.trace))) = .ok ([], true, true) := by
    decide +kernel
  obtain ⟨w, hw, hmap⟩ := bind_eq_ok.1 hrun
  obtain ⟨t, ht, hview⟩ := exists_of_map hmap
  simp only [Prod.mk.injEq, decide_eq_true_eq] at hview
  obtain ⟨hqueue, hP, hhalf⟩ := hview
  have hestablished : w.Established :=
    ⟨TcpConnection.newWorld false, TcpConnection.newWorld_fresh false, hw⟩
  exact ⟨w, t, hestablished, ht, hhalf, notCut hestablished hqueue hP ht⟩

/-- A byte is sent from another thread, and has not left the queue when the loop thread shuts the
connection down. -/
theorem not_notCut_queued : ¬∀ (w : World Unit) (memory : Address → Text)
    (actions : List (Action Unit)) (t : Threads Unit Unit), w.Established →
    w.loop.pendingFunctors_ = [] → Along step Peaceful (start w memory) actions →
    run step (start w memory) actions = .ok t → t.NotCut := by
  intro h
  have hrun : (TcpConnection.conneectEstableished (TcpConnection.newWorld false) >>= fun w =>
      (run step (start w oneByte : Threads Unit Unit) [.send 65 TcpConnection.takesAll,
        .event (.write TcpConnection.takesAll), .callSend () 66, .queueSend (), .shutdown]).map
      fun t => (w.loop.pendingFunctors_, decide (Along step Peaceful
        (start w oneByte : Threads Unit Unit) [.send 65 TcpConnection.takesAll,
          .event (.write TcpConnection.takesAll), .callSend () 66, .queueSend (), .shutdown]),
        decide (t.log = [.effect (.connectionCallback .kConnected), .returned [65],
          .effect (.write 1 (.handed [65])), .effect (.queued (.sendInLoop 66 1)),
          .returned [66]] ++ .shutdownCalled true :: ([] ++ .effect .shutdownWrite ::
            [.shutdownRan])))) = .ok ([], true, true) := by
    decide +kernel
  obtain ⟨w, hw, hmap⟩ := bind_eq_ok.1 hrun
  obtain ⟨t, ht, hview⟩ := exists_of_map hmap
  simp only [Prod.mk.injEq, decide_eq_true_eq] at hview
  obtain ⟨hqueue, hP, hlog⟩ := hview
  have hnotCut := h w oneByte _ t
    ⟨TcpConnection.newWorld false, TcpConnection.newWorld_fresh false, hw⟩ hqueue hP ht
  obtain ⟨messages, hflat, hsub⟩ := hnotCut.handed _ _ _ _ hlog
  have hmem : [66] ∈ messages := hsub.subset (by simp [returned])
  have hbyte : (66 : UInt8) ∈ messages.flatten := List.mem_flatten.2 ⟨[66], hmem, by simp⟩
  rw [← hflat] at hbyte
  exact absurd hbyte (by decide)

end Threads

end Muduo
