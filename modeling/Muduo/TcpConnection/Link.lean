import Muduo.TcpConnection

/-!
# The link

A `Link` is a connection without its machinery: the bytes that wait are a list, the counts are
natural numbers, and the poller is left out, since it agrees with the channel. Its steps are total
functions, under the names of the functions they abstract.

`Sends` and `Writes` list what `send` and `handleWrite` can do, one constructor for each outcome.
What is proved about the output of a connection is proved by cases on them.
-/

namespace Muduo

open Memory Run

variable {ι : Type}

/-- A connection with its output and its queue. -/
structure Link (ι : Type) where
  self : ι
  state_ : StateE
  channel_ : Channel
  pending : List UInt8
  highWaterMark_ : ℕ
  writeCompleteCallback_ : Bool
  highWaterMarkCallback_ : Bool
  queue : List (Functor ι)
  trace : List Effect

namespace Link

/-- Something is done that is seen outside. -/
@[simps]
def emit (l : Link ι) (e : Effect) : Link ι := { l with trace := l.trace ++ [e] }

/-- A functor of the connection is queued, which is seen outside. -/
@[simps]
def queueInLoop (l : Link ι) (task : Task) : Link ι :=
  { l with queue := l.queue ++ [⟨l.self, task⟩], trace := l.trace ++ [.queued task] }

/-- The state becomes `state`. -/
@[simps]
def setState (l : Link ι) (state : StateE) : Link ι := { l with state_ := state }

/-- What has been accepted and not written becomes `pending`. -/
@[simps]
def setPending (l : Link ι) (pending : List UInt8) : Link ι := { l with pending := pending }

/-- A call on the channel; what it does to the poller is left out. -/
@[simps]
def call (l : Link ι) (call : Channel.Call) : Link ι :=
  { l with channel_ := call.after l.channel_ }

/-- `shutdownInLoop`. -/
def shutdownInLoop (l : Link ι) : Link ι :=
  if l.channel_.isWriting then l else l.emit .shutdownWrite

/-- Queue `writeCompleteCallback_`, when it is set. -/
def complete (l : Link ι) : Link ι :=
  if l.writeCompleteCallback_ then l.queueInLoop .writeCompleteCallback else l

/-- The direct write of a send: the link, `nwrote` and `faultError` after it. -/
def writeDirectly (l : Link ι) (m : List UInt8) (write : Write) : Link ι × ℕ × Bool :=
  match write m.length with
  | .wrote n _ =>
    let l := l.emit (.write m.length (.handed (m.take n)))
    (if n = m.length then l.complete else l, n, false)
  | .failed errno =>
    (l.emit (.write m.length (.failed errno)), 0, errno = EPIPE ∨ errno = ECONNRESET)

/-- Queue `highWaterMarkCallback_` when `remaining` more bytes reach the mark. -/
def checkHighWaterMark (l : Link ι) (remaining : ℕ) : Link ι :=
  if l.highWaterMark_ ≤ l.pending.length + remaining ∧ l.pending.length < l.highWaterMark_ ∧
      l.highWaterMarkCallback_ then
    l.queueInLoop (.highWaterMarkCallback (l.pending.length + remaining))
  else l

/-- Watch for writing, unless the channel counts as writing. -/
def ensureWriting (l : Link ι) : Link ι :=
  if l.channel_.isWriting then l else l.call .enableWriting

/-- Save `rest` behind the pending bytes. -/
def saveRemaining (l : Link ι) (rest : List UInt8) : Link ι :=
  let l := l.checkHighWaterMark rest.length
  (l.setPending (l.pending ++ rest)).ensureWriting

/-- `sendInLoop` of the bytes `m`. -/
def send (l : Link ι) (m : List UInt8) (write : Write) : Link ι :=
  if l.state_ = .kDisconnected then l
  else
    let (l, nwrote, faultError) :=
      if l.channel_.isWriting = false ∧ l.pending = [] then l.writeDirectly m write
      else (l, 0, false)
    if faultError = false ∧ nwrote < m.length then l.saveRemaining (m.drop nwrote) else l

/-- `shutdown`, as one step. -/
def shutdown (l : Link ι) (inLoop : Bool) : Link ι :=
  if l.state_ = .kConnected then
    let l := l.setState .kDisconnecting
    if inLoop then l.shutdownInLoop else l.queueInLoop .shutdownInLoop
  else l

/-- The pending bytes have all been written. -/
def drained (l : Link ι) : Link ι :=
  let l := (l.call .disableWriting).complete
  if l.state_ = .kDisconnecting then l.shutdownInLoop else l

/-- The first `n` pending bytes have been written. -/
def advance (l : Link ι) (n : ℕ) : Link ι :=
  let l := l.setPending (l.pending.drop n)
  if l.pending = [] then l.drained else l

/-- `handleWrite`: one write of what is pending. -/
def handleWrite (l : Link ι) (write : Write) : Link ι :=
  if l.channel_.isWriting then
    match write l.pending.length with
    | .wrote n _ =>
      let l := l.emit (.write l.pending.length (.handed (l.pending.take n)))
      if 0 < n then l.advance n else l
    | .failed errno => l.emit (.write l.pending.length (.failed errno))
  else l

/-- What `conneectDestroyed` and `handleClose` both begin with. -/
def disconnect (l : Link ι) : Link ι :=
  ((l.setState .kDisconnected).call .disableAll).emit (.connectionCallback .kDisconnected)

/-- `handleClose`, of a connection that passes its assertion. -/
def handleClose (l : Link ι) : Link ι := l.disconnect.emit .closeCallback

/-- `handleRead`, after `readFd` has returned `n`. -/
def handleRead (l : Link ι) (n : ℤ) : Link ι :=
  if 0 < n then l.emit .messageCallback else if n = 0 then l.handleClose else l

/-- `conneectEstableished`. -/
def conneectEstableished (l : Link ι) : Link ι :=
  (({ l.setState .kConnected with channel_ := l.channel_.tie }).call .enableReading).emit
    (.connectionCallback .kConnected)

/-- `conneectDestroyed`. -/
def conneectDestroyed (l : Link ι) : Link ι :=
  (if l.state_ = .kConnected then l.disconnect else l).call .remove

theorem writeDirectly_wrote (l : Link ι) {m : List UInt8} {write : Write} {n k : ℕ}
    (hm : m.length = n) {hle : k ≤ n} (h : write n = .wrote k hle) :
    l.writeDirectly m write = (if k = n then (l.emit (.write n (.handed (m.take k)))).complete
      else l.emit (.write n (.handed (m.take k))), k, false) := by
  subst hm
  rw [writeDirectly, h]

theorem writeDirectly_failed (l : Link ι) {m : List UInt8} {write : Write} {n : ℕ} {errno : Errno}
    (hm : m.length = n) (h : write n = .failed errno) : l.writeDirectly m write =
      (l.emit (.write n (.failed errno)), 0, decide (errno = EPIPE ∨ errno = ECONNRESET)) := by
  subst hm
  rw [writeDirectly, h]

/-! ## What the steps change -/

section

variable (l : Link ι)

@[simp] theorem shutdownInLoop_fields :
    l.shutdownInLoop.state_ = l.state_ ∧ l.shutdownInLoop.channel_ = l.channel_ ∧
      l.shutdownInLoop.pending = l.pending ∧ l.shutdownInLoop.queue = l.queue ∧
      l.shutdownInLoop.writeCompleteCallback_ = l.writeCompleteCallback_ := by
  unfold shutdownInLoop
  split <;> simp

@[simp] theorem complete_fields :
    l.complete.state_ = l.state_ ∧ l.complete.channel_ = l.channel_ ∧
      l.complete.pending = l.pending ∧
      l.complete.writeCompleteCallback_ = l.writeCompleteCallback_ := by
  unfold complete
  split <;> simp

@[simp] theorem checkHighWaterMark_fields (n : ℕ) :
    (l.checkHighWaterMark n).state_ = l.state_ ∧ (l.checkHighWaterMark n).channel_ = l.channel_ ∧
      (l.checkHighWaterMark n).pending = l.pending ∧
      (l.checkHighWaterMark n).writeCompleteCallback_ = l.writeCompleteCallback_ := by
  unfold checkHighWaterMark
  split <;> simp

@[simp] theorem ensureWriting_fields :
    l.ensureWriting.state_ = l.state_ ∧ l.ensureWriting.pending = l.pending ∧
      l.ensureWriting.queue = l.queue ∧ l.ensureWriting.trace = l.trace ∧
      l.ensureWriting.writeCompleteCallback_ = l.writeCompleteCallback_ := by
  unfold ensureWriting
  split <;> simp

@[simp] theorem saveRemaining_fields (rest : List UInt8) :
    (l.saveRemaining rest).state_ = l.state_ ∧
      (l.saveRemaining rest).pending = l.pending ++ rest ∧
      (l.saveRemaining rest).channel_ = l.ensureWriting.channel_ ∧
      (l.saveRemaining rest).writeCompleteCallback_ = l.writeCompleteCallback_ := by
  refine ⟨by simp [saveRemaining], by simp [saveRemaining], ?_, by simp [saveRemaining]⟩
  simp [saveRemaining, ensureWriting, apply_ite Link.channel_]

@[simp] theorem drained_fields :
    l.drained.state_ = l.state_ ∧ l.drained.pending = l.pending ∧
      l.drained.channel_ = Channel.Call.disableWriting.after l.channel_ ∧
      l.drained.writeCompleteCallback_ = l.writeCompleteCallback_ := by
  unfold drained
  refine ⟨?_, ?_, ?_, ?_⟩ <;> simp only <;> split <;> simp

end

/-! ## The connection of a link -/

theorem shutdownInLoop_self (l : Link ι) : l.shutdownInLoop.self = l.self := by
  unfold shutdownInLoop
  split <;> rfl

theorem complete_self (l : Link ι) : l.complete.self = l.self := by
  unfold complete
  split <;> rfl

theorem saveRemaining_self (l : Link ι) (rest : List UInt8) :
    (l.saveRemaining rest).self = l.self := by
  have hcheck : (l.checkHighWaterMark rest.length).self = l.self := by
    unfold checkHighWaterMark
    split <;> rfl
  simp only [saveRemaining, ensureWriting]
  split <;> exact hcheck

theorem drained_self (l : Link ι) : l.drained.self = l.self := by
  simp only [drained]
  split
  · exact (shutdownInLoop_self _).trans (complete_self _)
  · exact complete_self _

/-! ## What a send can do -/

/-- A send writes directly. -/
def Direct (l : Link ι) : Prop :=
  l.state_ ≠ .kDisconnected ∧ l.channel_.isWriting = false ∧ l.pending = []

/-- The direct write of `n` bytes fails with `EPIPE` or `ECONNRESET`. -/
def Faults (write : Write) (n : ℕ) : Prop :=
  ∃ errno, write n = .failed errno ∧ (errno = EPIPE ∨ errno = ECONNRESET)

/-- The outcomes of `send`. -/
inductive Sends (l : Link ι) (m : List UInt8) (write : Write) : Link ι → Prop
  | disconnected (hstate : l.state_ = .kDisconnected) : Sends l m write l
  | dropped (hdirect : l.Direct) (hfaults : Faults write m.length) (errno : Errno) :
      Sends l m write (l.emit (.write m.length (.failed errno)))
  | finished (hdirect : l.Direct) (hfaults : ¬Faults write m.length) :
      Sends l m write (l.emit (.write m.length (.handed m))).complete
  | rejected (hdirect : l.Direct) (hfaults : ¬Faults write m.length) (hm : m = [])
      (errno : Errno) : Sends l m write (l.emit (.write m.length (.failed errno)))
  | saved (hdirect : l.Direct) (hfaults : ¬Faults write m.length) {n : ℕ} (hn : n < m.length)
      (hcount : (write m.length).count = n) {wrote : Wrote} (hbytes : wrote.bytes = m.take n) :
      Sends l m write ((l.emit (.write m.length wrote)).saveRemaining (m.drop n))
  | skipped (hstate : l.state_ ≠ .kDisconnected) (hdirect : ¬l.Direct) (hm : m = []) :
      Sends l m write l
  | buffered (hstate : l.state_ ≠ .kDisconnected) (hdirect : ¬l.Direct) (hm : m ≠ []) :
      Sends l m write (l.saveRemaining m)

theorem send_sends (l : Link ι) (m : List UInt8) (write : Write) : l.Sends m write (l.send m write) := by
  unfold send
  split
  next hstate => exact .disconnected hstate
  next hstate =>
    by_cases hidle : l.channel_.isWriting = false ∧ l.pending = []
    · have hdirect : l.Direct := ⟨hstate, hidle⟩
      rw [if_pos hidle]
      unfold writeDirectly
      cases hanswer : write m.length with
      | wrote n hle =>
        have hfaults : ¬Faults write m.length := by
          rintro ⟨errno, hfailed, -⟩
          rw [hanswer] at hfailed
          cases hfailed
        rcases Nat.lt_or_eq_of_le hle with hlt | rfl
        · simp only [if_neg (Nat.ne_of_lt hlt), hlt, and_self, if_true]
          exact .saved hdirect hfaults hlt (by rw [hanswer]; rfl) rfl
        · simp only [if_true, Nat.lt_irrefl, and_false, if_false, List.take_length]
          exact .finished hdirect hfaults
      | failed errno =>
        by_cases hfault : errno = EPIPE ∨ errno = ECONNRESET
        · simp only [hfault, decide_true, Bool.true_eq_false, false_and, if_false]
          exact .dropped hdirect ⟨errno, hanswer, hfault⟩ errno
        · have hfaults : ¬Faults write m.length := by
            rintro ⟨errno', hfailed, hfault'⟩
            obtain rfl := WriteResult.failed.inj (hanswer.symm.trans hfailed)
            exact hfault hfault'
          simp only [hfault, decide_false, true_and]
          split
          next hpos => exact .saved hdirect hfaults hpos (by rw [hanswer]; rfl) rfl
          next hzero =>
            have hm : m = [] := List.length_eq_zero_iff.1 (Nat.eq_zero_of_not_pos hzero)
            exact .rejected hdirect hfaults hm errno
    · have hdirect : ¬l.Direct := fun h => hidle h.2
      rw [if_neg hidle]
      simp only [true_and]
      split
      next hpos => exact .buffered hstate hdirect (List.length_pos_iff.1 hpos)
      next hzero =>
        have hm : m = [] := List.length_eq_zero_iff.1 (Nat.eq_zero_of_not_pos hzero)
        exact .skipped hstate hdirect hm

@[simp] theorem send_state (l : Link ι) (m : List UInt8) (write : Write) :
    (l.send m write).state_ = l.state_ := by
  have hsends := l.send_sends m write
  generalize l.send m write = l' at hsends ⊢
  cases hsends <;> simp

theorem send_self (l : Link ι) (m : List UInt8) (write : Write) :
    (l.send m write).self = l.self := by
  have hsends := l.send_sends m write
  generalize l.send m write = l' at hsends ⊢
  cases hsends with
  | disconnected | skipped | dropped | rejected => rfl
  | finished => exact complete_self _
  | saved => exact saveRemaining_self _ _
  | buffered => exact l.saveRemaining_self m

/-! ## What a write event can do -/

/-- The outcomes of `handleWrite`. -/
inductive Writes (l : Link ι) (write : Write) : Link ι → Prop
  | idle (hwriting : l.channel_.isWriting = false) : Writes l write l
  | none (hwriting : l.channel_.isWriting = true) (hcount : (write l.pending.length).count = 0)
      {wrote : Wrote} (hbytes : wrote.bytes = []) :
      Writes l write (l.emit (.write l.pending.length wrote))
  | some (hwriting : l.channel_.isWriting = true) {n : ℕ} (hpos : 0 < n)
      (hlt : n < l.pending.length) (hcount : (write l.pending.length).count = n) :
      Writes l write
        ((l.emit (.write l.pending.length (.handed (l.pending.take n)))).setPending
          (l.pending.drop n))
  | all (hwriting : l.channel_.isWriting = true) (hpending : l.pending ≠ [])
      (hcount : (write l.pending.length).count = l.pending.length) :
      Writes l write
        ((l.emit (.write l.pending.length (.handed l.pending))).setPending []).drained

theorem handleWrite_writes (l : Link ι) (write : Write) : l.Writes write (l.handleWrite write) := by
  unfold handleWrite
  split
  next hwriting =>
    cases hanswer : write l.pending.length with
    | failed errno => exact .none hwriting (by rw [hanswer]; rfl) rfl
    | wrote n hle =>
      have hcount : (write l.pending.length).count = n := by rw [hanswer]; rfl
      simp only
      split
      next hpos =>
        unfold advance
        rcases Nat.lt_or_eq_of_le hle with hlt | rfl
        · have hmore : l.pending.drop n ≠ [] := by
            rw [Ne, List.drop_eq_nil_iff]
            omega
          exact (if_neg hmore).symm ▸ .some hwriting hpos hlt hcount
        · have hdone : l.pending.drop l.pending.length = [] := List.drop_length
          have hpending : l.pending ≠ [] := List.length_pos_iff.1 hpos
          simp only [emit, setPending, hdone, List.take_length, if_true]
          exact .all hwriting hpending hcount
      next hzero =>
        obtain rfl := Nat.eq_zero_of_not_pos hzero
        exact .none hwriting hcount (by rw [List.take_zero]; rfl)
  next hidle => exact .idle (Bool.eq_false_iff.2 hidle)

@[simp] theorem handleWrite_state (l : Link ι) (write : Write) :
    (l.handleWrite write).state_ = l.state_ := by
  have hwrites := l.handleWrite_writes write
  generalize l.handleWrite write = l' at hwrites ⊢
  cases hwrites <;> simp

theorem handleWrite_self (l : Link ι) (write : Write) : (l.handleWrite write).self = l.self := by
  have hwrites := l.handleWrite_writes write
  generalize l.handleWrite write = l' at hwrites ⊢
  cases hwrites with
  | idle | none | some => rfl
  | all => exact drained_self _

theorem handleRead_self (l : Link ι) (n : ℤ) : (l.handleRead n).self = l.self := by
  unfold handleRead
  split
  · rfl
  · split <;> rfl

theorem shutdown_self (l : Link ι) (inLoop : Bool) : (l.shutdown inLoop).self = l.self := by
  unfold shutdown
  split
  · cases inLoop with
    | true => exact shutdownInLoop_self _
    | false => rfl
  · rfl

/-! ## Effects inside the connection -/

/-- From `l` to `l'` the trace grows by effects other than calls of `connectionCallback_` and
`closeCallback_`. -/
def Extends (l l' : Link ι) : Prop :=
  ∃ news, l'.trace = l.trace ++ news ∧ ∀ e ∈ news, e ≠ .closeCallback ∧
    ∀ state, e ≠ .connectionCallback state

variable {l l' l'' : Link ι}

theorem Extends.of_eq (h : l'.trace = l.trace) : l.Extends l' := ⟨[], by simp [h], by simp⟩

theorem Extends.trans (h : l.Extends l') (h' : l'.Extends l'') : l.Extends l'' := by
  obtain ⟨news, htrace, hnews⟩ := h
  obtain ⟨news', htrace', hnews'⟩ := h'
  refine ⟨news ++ news', by rw [htrace', htrace, List.append_assoc], fun e he => ?_⟩
  rcases List.mem_append.1 he with he | he
  · exact hnews e he
  · exact hnews' e he

theorem extends_emit (l : Link ι) {e : Effect} (hclose : e ≠ .closeCallback)
    (hconnection : ∀ state, e ≠ .connectionCallback state) : l.Extends (l.emit e) :=
  ⟨[e], rfl, by simpa using ⟨hclose, hconnection⟩⟩

theorem extends_queueInLoop (l : Link ι) (task : Task) : l.Extends (l.queueInLoop task) :=
  ⟨[.queued task], rfl, by simp⟩

theorem extends_complete (l : Link ι) : l.Extends l.complete := by
  unfold complete
  split
  · exact l.extends_queueInLoop _
  · exact .of_eq rfl

theorem extends_shutdownInLoop (l : Link ι) : l.Extends l.shutdownInLoop := by
  unfold shutdownInLoop
  split
  · exact .of_eq rfl
  · exact l.extends_emit (by simp) (by simp)

theorem extends_saveRemaining (l : Link ι) (rest : List UInt8) : l.Extends (l.saveRemaining rest) := by
  have hcheck : l.Extends (l.checkHighWaterMark rest.length) := by
    unfold checkHighWaterMark
    split
    · exact l.extends_queueInLoop _
    · exact .of_eq rfl
  exact hcheck.trans (.of_eq (by simp [saveRemaining]))

theorem extends_drained (l : Link ι) : l.Extends l.drained := by
  have hcomplete : l.Extends (l.call .disableWriting).complete :=
    .trans (.of_eq rfl) (extends_complete _)
  unfold drained
  simp only
  split
  · exact hcomplete.trans (extends_shutdownInLoop _)
  · exact hcomplete

theorem extends_send (l : Link ι) (m : List UInt8) (write : Write) : l.Extends (l.send m write) := by
  have hsends := l.send_sends m write
  generalize l.send m write = l' at hsends ⊢
  cases hsends with
  | disconnected | skipped => exact .of_eq rfl
  | dropped | rejected => exact l.extends_emit (by simp) (by simp)
  | finished => exact .trans (l.extends_emit (by simp) (by simp)) (extends_complete _)
  | saved => exact .trans (l.extends_emit (by simp) (by simp)) (extends_saveRemaining _ _)
  | buffered => exact l.extends_saveRemaining m

theorem extends_handleWrite (l : Link ι) (write : Write) : l.Extends (l.handleWrite write) := by
  have hwrites := l.handleWrite_writes write
  generalize l.handleWrite write = l' at hwrites ⊢
  cases hwrites with
  | idle => exact .of_eq rfl
  | none | some => exact l.extends_emit (by simp) (by simp)
  | @all _ _ _ =>
    have hemit : l.Extends ((l.emit (.write l.pending.length (.handed l.pending))).setPending []) :=
      l.extends_emit (by simp) (by simp)
    exact hemit.trans (extends_drained _)

theorem extends_shutdown (l : Link ι) (inLoop : Bool) : l.Extends (l.shutdown inLoop) := by
  unfold shutdown
  split
  · cases inLoop with
    | true => exact .trans (.of_eq rfl) (extends_shutdownInLoop _)
    | false => exact .trans (.of_eq rfl) (extends_queueInLoop _ _)
  · exact .of_eq rfl

/-! ## The queue -/

/-- From `l` to `l'` the trace grows, and the queue grows by calls back to the user. -/
structure Grows (l l' : Link ι) : Prop where
  trace : l.trace <+: l'.trace
  queue : ∃ news, l'.queue = l.queue ++ news ∧ ∀ f ∈ news, f.task.IsCallback

theorem Grows.of_eq (htrace : l.trace <+: l'.trace) (hqueue : l'.queue = l.queue) : l.Grows l' :=
  ⟨htrace, [], by simp [hqueue], by simp⟩

theorem Grows.trans (h : l.Grows l') (h' : l'.Grows l'') : l.Grows l'' := by
  obtain ⟨news, hqueue, hnews⟩ := h.queue
  obtain ⟨news', hqueue', hnews'⟩ := h'.queue
  refine ⟨h.trace.trans h'.trace, news ++ news', ?_, fun f hf => ?_⟩
  · rw [hqueue', hqueue, List.append_assoc]
  · rcases List.mem_append.1 hf with hf | hf
    · exact hnews f hf
    · exact hnews' f hf

/-- A functor of a queue that has grown was there before, or calls the user back. -/
theorem Grows.mem_queue (h : l.Grows l') {f : Functor ι} (hf : f ∈ l'.queue) :
    f ∈ l.queue ∨ f.task.IsCallback := by
  obtain ⟨news, hqueue, hnews⟩ := h.queue
  rw [hqueue] at hf
  exact (List.mem_append.1 hf).imp_right (hnews f)

theorem grows_emit (l : Link ι) (e : Effect) : l.Grows (l.emit e) :=
  .of_eq (List.prefix_append _ _) rfl

theorem grows_queueInLoop (l : Link ι) {task : Task} (htask : task.IsCallback) :
    l.Grows (l.queueInLoop task) :=
  ⟨List.prefix_append _ _, [⟨l.self, task⟩], rfl, by simpa using htask⟩

theorem grows_complete (l : Link ι) : l.Grows l.complete := by
  unfold complete
  split
  · exact l.grows_queueInLoop trivial
  · exact .of_eq List.prefix_rfl rfl

theorem grows_shutdownInLoop (l : Link ι) : l.Grows l.shutdownInLoop := by
  unfold shutdownInLoop
  split
  · exact .of_eq List.prefix_rfl rfl
  · exact l.grows_emit _

theorem grows_shutdown (l : Link ι) : l.Grows (l.shutdown true) := by
  unfold shutdown
  split
  · have hstate : l.Grows (l.setState .kDisconnecting) := .of_eq List.prefix_rfl rfl
    exact hstate.trans (grows_shutdownInLoop _)
  · exact .of_eq List.prefix_rfl rfl

theorem grows_saveRemaining (l : Link ι) (rest : List UInt8) : l.Grows (l.saveRemaining rest) := by
  have hcheck : l.Grows (l.checkHighWaterMark rest.length) := by
    unfold checkHighWaterMark
    split
    · exact l.grows_queueInLoop trivial
    · exact .of_eq List.prefix_rfl rfl
  exact hcheck.trans (.of_eq (by simp [saveRemaining]) (by simp [saveRemaining]))

theorem grows_drained (l : Link ι) : l.Grows l.drained := by
  have hcall : l.Grows (l.call .disableWriting) := .of_eq List.prefix_rfl rfl
  have hcomplete := hcall.trans (grows_complete _)
  unfold drained
  simp only
  split
  · exact hcomplete.trans (grows_shutdownInLoop _)
  · exact hcomplete

theorem grows_send (l : Link ι) (m : List UInt8) (write : Write) : l.Grows (l.send m write) := by
  have hsends := l.send_sends m write
  generalize l.send m write = l' at hsends ⊢
  cases hsends with
  | disconnected | skipped => exact .of_eq List.prefix_rfl rfl
  | dropped | rejected => exact l.grows_emit _
  | finished => exact (l.grows_emit _).trans (grows_complete _)
  | saved => exact (l.grows_emit _).trans (grows_saveRemaining _ _)
  | buffered => exact l.grows_saveRemaining m

theorem grows_handleWrite (l : Link ι) (write : Write) : l.Grows (l.handleWrite write) := by
  have hwrites := l.handleWrite_writes write
  generalize l.handleWrite write = l' at hwrites ⊢
  cases hwrites with
  | idle => exact .of_eq List.prefix_rfl rfl
  | none => exact l.grows_emit _
  | some => exact .of_eq (List.prefix_append _ _) rfl
  | all =>
    have hset : l.Grows ((l.emit (.write l.pending.length (.handed l.pending))).setPending []) :=
      .of_eq (List.prefix_append _ _) rfl
    exact hset.trans (grows_drained _)

theorem grows_handleClose (l : Link ι) : l.Grows l.handleClose :=
  .of_eq (by simp [handleClose, disconnect]) rfl

end Link

end Muduo
