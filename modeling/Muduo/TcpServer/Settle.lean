import Mathlib.Algebra.BigOperators.Group.Finset.Basic
import Mathlib.Algebra.GroupWithZero.Nat
import Muduo.Foundations.Measure
import Muduo.TcpServer.Turn

/-!
# The server comes to rest

When no connection comes, no event is dispatched and no one calls, the threads still have to go on
with what they are inside of, and with the functors of their queues. `Loops.work` bounds the steps
that this takes: each step uses up a part of it (`Ok.work_lt`), whatever the kernel and the user
answer, although a step hands new functors to other loops. And as long as something is left, some
thread can go on (`Ok.goes_on`). So the server comes to rest, and then every connection that has
closed is torn down (`settles`).
-/

namespace Muduo

open Run

variable {ι ℓ : Type}

/-! ## What a turn queues -/

namespace Link

/-- From `l` to `l'` at most one functor has been queued, which calls the user back. -/
def AddsOne (l l' : Link ι) : Prop :=
  ∃ news, l'.queue = l.queue ++ news ∧ news.length ≤ 1 ∧ ∀ f ∈ news, f.task.IsCallback

variable {l l' : Link ι}

theorem AddsOne.of_eq (h : l'.queue = l.queue) : l.AddsOne l' := ⟨[], by simp [h], by simp, by simp⟩

theorem drained_addsOne (l : Link ι) : l.AddsOne l.drained := by
  have hcomplete : l.AddsOne (l.call .disableWriting).complete := by
    unfold complete
    split
    · exact ⟨[⟨l.self, .writeCompleteCallback⟩], rfl, Nat.le_refl _, by simp [Task.IsCallback]⟩
    · exact .of_eq rfl
  obtain ⟨news, hqueue, hnews⟩ := hcomplete
  refine ⟨news, ?_, hnews⟩
  unfold drained
  simp only
  split <;> simp [hqueue]

theorem handleWrite_addsOne (l : Link ι) (write : Write) : l.AddsOne (l.handleWrite write) := by
  have hwrites := l.handleWrite_writes write
  generalize l.handleWrite write = l' at hwrites ⊢
  cases hwrites with
  | idle | none | some => exact .of_eq rfl
  | all => exact drained_addsOne ((l.emit (.write l.pending.length (.handed l.pending))).setPending [])

theorem handleRead_addsOne (l : Link ι) (n : ℤ) : l.AddsOne (l.handleRead n) := by
  unfold handleRead
  split
  · exact .of_eq rfl
  · split <;> exact .of_eq rfl

end Link

theorem Event.addsOne (e : Event) (w : World ι) : w.link.AddsOne (e.op.link w) := by
  cases e with
  | close | error => exact .of_eq rfl
  | read recv extraBuffer onMessage =>
    simp only [op, TcpConnection.Op.link]
    split
    · exact w.link.handleRead_addsOne _
    · exact .of_eq rfl
  | write answer => exact w.link.handleWrite_addsOne answer

/-! ## The work that is left -/

/-- The most steps of threads that calling the functor leads to. -/
def Functor.work (f : Functor ℕ) : ℕ :=
  match f.task with
  | .removeConnectionInLoop => 5
  | .conneectEstableished | .conneectDestroyed | .sendInLoop _ _ | .shutdownInLoop
  | .writeCompleteCallback | .highWaterMarkCallback _ => 1

/-- The most steps of threads that going on with the activation leads to. A callback can enter
`removeConnection`, and can queue a functor. -/
def Activation.work : Activation → ℕ
  | newConnection _ => 3
  | handleEvent _ _ callbacks => 1 + 10 * callbacks.length
  | removeConnection _ => 7
  | removeConnectionInLoop _ => 4
  | erased _ => 3

namespace Loops

/-- The work that lies at a loop. A functor that is pending is first taken for a round. -/
def load (s : Loops ℓ) (l : ℓ) : ℕ :=
  ((s.stack l).map Activation.work).sum + ((s.functors l).map Functor.work).sum +
    ((s.loop l).pendingFunctors_.map fun f => f.work + 1).sum

variable [DecidableEq ℓ]

/-- The work that is left, at all loops together. -/
def work (s : Loops ℓ) : ℕ := ∑ l ∈ s.all.toFinset, s.load l

variable {s t : Loops ℓ} {l : ℓ}

/-- The work at one loop has changed. -/
theorem work_of_load (hall : t.all = s.all) (hl : l ∈ s.all)
    (hother : ∀ l', l' ≠ l → t.load l' = s.load l') {j k : ℕ} (hload : t.load l + j = s.load l + k) :
    t.work + j = s.work + k := by
  have hmem : l ∈ s.all.toFinset := List.mem_toFinset.2 hl
  have hrest : ∑ l' ∈ s.all.toFinset.erase l, t.load l' = ∑ l' ∈ s.all.toFinset.erase l, s.load l' :=
    Finset.sum_congr rfl fun l' hl' => hother l' (Finset.ne_of_mem_erase hl')
  rw [work, work, hall, ← Finset.add_sum_erase _ _ hmem, ← Finset.add_sum_erase _ _ hmem, hrest]
  omega

theorem work_goto (hl : l ∈ s.all) {a : Activation} {rest : List Activation}
    (hstack : s.stack l = a :: rest) : (s.goto l rest).work + a.work = s.work := by
  refine work_of_load (t := s.goto l rest) (s := s) (k := 0) rfl hl (fun l' hl' => ?_) ?_
  · simp [load, goto, hl']
  · simp [load, goto, hstack]
    omega

/-- The activation on top has become another. -/
theorem work_replace (hall : t.all = s.all) (hl : l ∈ s.all) {a b : Activation}
    {rest : List Activation} (hstack : s.stack l = a :: rest)
    (hstack' : t.stack = Function.update s.stack l (b :: rest)) (hfunctors : t.functors = s.functors)
    (hloop : t.loop = s.loop) : t.work + a.work = s.work + b.work := by
  refine work_of_load hall hl (fun l' hl' => ?_) ?_
  · simp [load, hstack', hfunctors, hloop, hl']
  · simp [load, hstack', hfunctors, hloop, hstack]
    omega

theorem work_enter (hl : l ∈ s.all) (a : Activation) : (s.enter l a).work = s.work + a.work := by
  refine work_of_load (t := s.enter l a) (s := s) (j := 0) rfl hl (fun l' hl' => ?_) ?_
  · simp [load, enter, goto, hl']
  · simp [load, enter, goto]
    omega

theorem work_queueInLoop (hl : l ∈ s.all) (f : Functor ℕ) :
    (s.queueInLoop l f).work = s.work + (f.work + 1) := by
  refine work_of_load (t := s.queueInLoop l f) (s := s) (j := 0) rfl hl (fun l' hl' => ?_) ?_
  · simp [load, queueInLoop, setPending, hl']
  · simp [load, queueInLoop, setPending]
    omega

theorem work_round (hl : l ∈ s.all) {f : Functor ℕ} {fs : List (Functor ℕ)}
    (hfunctors : s.functors l = f :: fs) : (s.round l fs).work + f.work = s.work := by
  refine work_of_load (t := s.round l fs) (s := s) (k := 0) rfl hl (fun l' hl' => ?_) ?_
  · simp [load, round, hl']
  · simp [load, round, hfunctors]
    omega

theorem work_swap (hl : l ∈ s.all) (hfunctors : s.functors l = []) :
    (s.swap l).work + (s.loop l).pendingFunctors_.length = s.work := by
  have hsum : ((s.loop l).pendingFunctors_.map fun f => f.work + 1).sum =
      ((s.loop l).pendingFunctors_.map Functor.work).sum + (s.loop l).pendingFunctors_.length := by
    induction (s.loop l).pendingFunctors_ with
    | nil => rfl
    | cons f fs ih =>
      simp only [List.map_cons, List.sum_cons, ih, List.length_cons]
      omega
  refine work_of_load (t := s.swap l) (s := s) (k := 0) rfl hl (fun l' hl' => ?_) ?_
  · simp [load, swap, round, setPending, hl']
  · simp [load, swap, round, setPending, hfunctors, hsum]
    omega

/-- A turn of a connection that queues callbacks. -/
theorem Moved.work_eq {i : ℕ} {c : Created ℓ} {w : World ℕ} (ht : Moved s t i c w)
    (hl : c.loop_ ∈ s.all) {news : List (Functor ℕ)}
    (hqueue : w.loop.pendingFunctors_ = (s.loop c.loop_).pendingFunctors_ ++ news)
    (hnews : ∀ f ∈ news, f.task.IsCallback) : t.work = s.work + 2 * news.length := by
  have hsum : (news.map fun f => f.work + 1).sum = 2 * news.length := by
    have htwo : ∀ f ∈ news, f.work + 1 = 2 := fun f hf => by
      have hcallback := hnews f hf
      unfold Functor.work
      cases htask : f.task with
      | removeConnectionInLoop =>
        rw [htask] at hcallback
        exact absurd hcallback id
      | _ => rfl
    rw [List.map_congr_left htwo, List.map_const', List.sum_replicate_nat, Nat.mul_comm]
  refine work_of_load (t := t) (s := s) (j := 0) ht.all_eq hl (fun l' hl' => ?_) ?_
  · rw [load, load, ht.stack_eq, ht.functors_eq, ht.loop_of_ne hl']
  · rw [load, load, ht.stack_eq, ht.functors_eq, ht.loop_self, hqueue, List.map_append,
      List.sum_append, hsum]
    omega

/-! ## The steps of the threads -/

/-- The thread of a loop of the server has something to go on with, and does. -/
def Busy (s : Loops ℓ) : Action ℓ → Prop
  | .proceed l _ => l ∈ s.all ∧ s.stack l ≠ []
  | .swap l => l ∈ s.all ∧ s.Idle l ∧ (s.loop l).pendingFunctors_ ≠ []
  | .next l _ => l ∈ s.all ∧ s.stack l = [] ∧ s.functors l ≠ []
  | .accept _ _ _ _ | .dispatch _ _ _ | .user _ _ => False

/-- No thread of the server has anything to go on with. -/
def AtRest (s : Loops ℓ) : Prop := ∀ l ∈ s.all, s.stack l = [] ∧ s.queue l = []

variable {phase : ℕ → Phase} {gone : List ℕ} {i : ℕ} {answers : Answers}

theorem Ok.loop_mem (hs : s.Ok phase gone) {c : Created ℓ} (hc : s.server.created[i]? = some c) :
    c.loop_ ∈ s.all := hs.conns.mem_all i c hc

/-- The connection is on a loop of the server, and sound there. -/
def Ready (s : Loops ℓ) (i : ℕ) : Prop := ∀ c, s.server.created[i]? = some c →
  c.loop_ ∈ s.all ∧ (s.world c.loop_ i).Sound

/-- A connection that is not torn down is ready. -/
theorem Ok.ready (hs : s.Ok phase gone) (hne : phase i ≠ .torn) : s.Ready i := fun c hc =>
  ⟨hs.loop_mem hc, (hs.conns.part i c hc).sound (Phase.stage_ne_torn.2 hne)⟩

/-- So is that of a call that is still to be made. -/
theorem Ok.ready_of_token (hs : s.Ok phase gone) {f : Functor ℕ} (hf : f ∈ s.queue l)
    (htoken : f.token ≠ none) : s.Ready f.conn := by
  obtain ⟨⟨j, p⟩, hx⟩ := Option.ne_none_iff_exists'.1 htoken
  obtain rfl := Functor.conn_of_token hx
  have hmem : (f.conn, p) ∈ s.tokens l :=
    List.mem_append_right _ (List.mem_filterMap.2 ⟨f, hf, hx⟩)
  obtain ⟨rfl, hhome⟩ := hs.placed.of_mem hmem
  refine hs.ready fun htorn => ?_
  rw [htorn] at hx
  unfold Functor.token at hx
  cases htask : f.task <;> simp [htask] at hx

/-- `conneectEstableished` and `conneectDestroyed` queue nothing. -/
theorem execNoted_work (hready : s.Ready i) {ran : Ran} {f : World ℕ → Except Fault (World ℕ)}
    {g : Link ℕ → Link ℕ} (hqueue : ∀ x : Link ℕ, (g x).queue = x.queue)
    (hspec : ∀ w : World ℕ, w.Sound → ∃ w', f w = .ok w' ∧ w.Refines w' (g w.link))
    (h : s.execNoted l i ran f = .ok t) : t.work = s.work := by
  obtain ⟨c, w, hc, hw, hmoved, -⟩ := execNoted_ok h
  obtain ⟨hl, hsound⟩ := hready c hc
  obtain ⟨w', hw', hrefines⟩ := hspec _ hsound
  obtain rfl := Except.ok.inj (hw'.symm.trans hw)
  have hkeeps : w'.loop.pendingFunctors_ = (s.loop c.loop_).pendingFunctors_ ++ [] := by
    rw [List.append_nil]
    exact (congrArg Link.queue hrefines.link_eq).trans (hqueue _)
  exact hmoved.work_eq hl hkeeps (by simp)

theorem conneectDestroyed_queue (x : Link ι) : x.conneectDestroyed.queue = x.queue := by
  unfold Link.conneectDestroyed
  split <;> rfl

/-- Calling a functor leads to less work than the functor stands for. -/
theorem call_work (hl : l ∈ s.all) {f : Functor ℕ} (hstrong : f.task.Strong)
    (hready : f.token ≠ none → s.Ready f.conn) (h : s.call l answers f = .ok t) :
    t.work + 1 ≤ s.work + f.work := by
  obtain ⟨conn, task⟩ := f
  cases task with
  | conneectEstableished =>
    have hready := hready (by simp [Functor.token])
    have hwork := execNoted_work hready (g := Link.conneectEstableished) (fun _ => rfl)
      (fun _ => TcpConnection.conneectEstableished_spec) h
    rw [hwork]
    exact Nat.le_refl _
  | conneectDestroyed =>
    have hready := hready (by simp [Functor.token])
    have hwork := execNoted_work hready (g := Link.conneectDestroyed) conneectDestroyed_queue
      (fun _ => TcpConnection.conneectDestroyed_spec) h
    rw [hwork]
    exact Nat.le_refl _
  | removeConnectionInLoop =>
    obtain rfl := Except.ok.inj h
    rw [work_enter hl]
    exact Nat.le_refl _
  | sendInLoop | shutdownInLoop => exact absurd hstrong id
  | writeCompleteCallback | highWaterMarkCallback =>
    obtain rfl := Except.ok.inj h
    exact Nat.le_refl _

theorem runInLoop_work (hl : l ∈ s.all) {l' : ℓ} (hl' : l' ∈ s.all) {f : Functor ℕ}
    (hstrong : f.task.Strong) (hready : f.token ≠ none → s.Ready f.conn)
    (h : s.runInLoop l l' answers f = .ok t) : t.work ≤ s.work + f.work + 1 := by
  unfold runInLoop at h
  split at h
  next =>
    have hcall := call_work hl hstrong hready h
    omega
  next =>
    obtain rfl := Except.ok.inj h
    rw [work_queueInLoop hl', Nat.add_assoc]

/-- A callback of the channel queues at most one functor, and enters `removeConnection`. -/
theorem handle_work (hl : l ∈ s.all) (hready : s.Ready i) {e : Event} (h : s.handle l i e = .ok t) :
    t.work ≤ s.work + 9 := by
  obtain ⟨⟨u, effects⟩, hu, h⟩ := bind_eq_ok.1 h
  obtain rfl := Except.ok.inj h
  obtain ⟨c, w, hc, hw, -, hmoved, -⟩ := exec_ok hu
  obtain ⟨hcl, hsound⟩ := hready c hc
  obtain ⟨news, hqueue, hlength, hnews⟩ := e.addsOne (s.world c.loop_ i)
  have hlink := (TcpConnection.Op.exec_ok hsound hw).link_eq
  have hqueue' : w.loop.pendingFunctors_ = (s.loop c.loop_).pendingFunctors_ ++ news :=
    (congrArg Link.queue hlink).trans hqueue
  have hwork := hmoved.work_eq hcl hqueue' hnews
  split
  · have hall : (u.note l i .handleClose).all = s.all := hmoved.all_eq
    have hnote : (u.note l i .handleClose).work = u.work := rfl
    rw [work_enter (hall ▸ hl), hnote, hwork, Activation.work]
    omega
  · omega

/-- The functor that an activation stands for can be called, or queued. -/
theorem Ok.runInLoop_work (hs : s.Ok phase gone) (hl : l ∈ s.all) {a : Activation}
    {rest : List Activation} (hstack : s.stack l = a :: rest) {p : Phase}
    (htoken : a.token = some (i, p)) (hp : p ≠ .torn) {l' : ℓ} (hl' : l' ∈ s.all) {task : Task}
    (hstrong : task.Strong) (h : (s.goto l rest).runInLoop l l' answers ⟨i, task⟩ = .ok t) :
    t.work + a.work ≤ s.work + (Functor.mk i task).work + 1 := by
  obtain ⟨hphase, -⟩ := hs.take_stack hstack htoken
  have hready : (s.goto l rest).Ready i := hs.ready (hphase ▸ hp)
  have hgoto := work_goto hl hstack
  have hrun := Loops.runInLoop_work (s := s.goto l rest) hl hl' hstrong (fun _ => hready) h
  omega

/-- **Going on** uses up some of the work. -/
theorem Ok.proceed_work (hs : s.Ok phase gone) (hl : l ∈ s.all) (hbusy : s.stack l ≠ [])
    (h : s.proceed l answers = .ok t) : t.work < s.work := by
  have hmain : s.server.loop_ ∈ s.all := List.mem_cons_self
  unfold Loops.proceed at h
  split at h
  next hstack => exact absurd hstack hbusy
  next conn rest hstack =>
    obtain ⟨ioLoop, hloop, h⟩ := bind_eq_ok.1 h
    obtain ⟨c, hc, rfl⟩ := getLoop_ok hloop
    have hstrong : Task.Strong .conneectEstableished := trivial
    have hwork := hs.runInLoop_work hl hstack rfl Phase.noConfusion (hs.loop_mem hc) hstrong h
    simp only [Activation.work, Functor.work] at hwork
    omega
  next conn guard rest hstack =>
    obtain rfl := Except.ok.inj h
    have hgoto := work_goto hl hstack
    simp only [Activation.work] at hgoto
    omega
  next conn guard cb callbacks rest hstack =>
    have htop : .handleEvent conn guard (cb :: callbacks) ∈ s.stack l := by
      rw [hstack]
      exact List.mem_cons_self
    have hready := hs.ready (hs.handles l conn guard _ htop).1
    have hgoto := work_replace (s := s) (t := s.goto l (.handleEvent conn guard callbacks :: rest))
      rfl hl hstack rfl rfl rfl
    have hhandle := handle_work (s := s.goto l (.handleEvent conn guard callbacks :: rest)) hl hready h
    simp only [Activation.work, List.length_cons] at hgoto
    omega
  next conn rest hstack =>
    have hstrong : Task.Strong .removeConnectionInLoop := trivial
    have hwork := hs.runInLoop_work hl hstack rfl Phase.noConfusion hmain hstrong h
    simp only [Activation.work, Functor.work] at hwork
    omega
  next conn rest hstack =>
    have ht := Except.ok.inj h
    have hall : t.all = s.all := by
      rw [← ht]
      show _ :: (s.server.removeConnectionInLoop conn).threadPool_.loops_ = s.all
      rw [(s.server.removeConnectionInLoop_fields conn).2]
      unfold TcpServer.removeConnectionInLoop
      split <;> rfl
    have hstack' : t.stack = Function.update s.stack l (.erased conn :: rest) := by
      rw [← ht]
      simp [Loops.enter, Loops.goto]
    have hfunctors : t.functors = s.functors := by rw [← ht]; rfl
    have hloop : t.loop = s.loop := by rw [← ht]; rfl
    have hgoto := work_replace hall hl hstack hstack' hfunctors hloop
    simp only [Activation.work] at hgoto
    omega
  next conn rest hstack =>
    obtain ⟨ioLoop, hloop, h⟩ := bind_eq_ok.1 h
    obtain rfl := Except.ok.inj h
    obtain ⟨c, hc, rfl⟩ := getLoop_ok hloop
    have hgoto := work_goto hl hstack
    have hqueue := work_queueInLoop (s := s.goto l rest) (hs.loop_mem hc) ⟨conn, .conneectDestroyed⟩
    simp only [Activation.work, Functor.work] at hgoto hqueue
    omega

/-- A step of a thread that has something to do can be taken. -/
theorem Busy.step_eq {a : Action ℓ} (hbusy : s.Busy a) : s.step a = s.perform a := by
  refine if_pos ?_
  cases a with
  | accept | dispatch | user => exact absurd hbusy id
  | proceed l answers => exact trivial
  | swap l => exact hbusy.2.1
  | next l answers => exact hbusy.2.1

/-- **A step** of a thread that has something to do uses up some of the work. -/
theorem Ok.work_lt (hs : s.Ok phase gone) {a : Action ℓ} (hbusy : s.Busy a)
    (h : s.step a = .ok t) : t.work < s.work := by
  rw [hbusy.step_eq] at h
  cases a with
  | accept | dispatch | user => exact absurd hbusy id
  | proceed l answers =>
    obtain ⟨hl, hstack⟩ := hbusy
    exact hs.proceed_work hl hstack h
  | swap l =>
    obtain ⟨hl, hidle, hpending⟩ := hbusy
    obtain rfl := Except.ok.inj h
    have hswap := work_swap hl hidle.2
    have hpos := List.length_pos_iff.2 hpending
    omega
  | next l answers =>
    obtain ⟨hl, hstack, hne⟩ := hbusy
    obtain ⟨f, fs, hfunctors⟩ := List.exists_cons_of_ne_nil hne
    simp only [perform, hfunctors] at h
    have hmem : f ∈ s.queue l := by simp [queue, hfunctors]
    have hready : f.token ≠ none → (s.round l fs).Ready f.conn := hs.ready_of_token hmem
    have hround := work_round hl hfunctors
    have hcall := call_work (s := s.round l fs) hl (hs.tasks l f hmem) hready h
    omega

/-! ## Something to go on with -/

/-- The thread of a loop is about to call `handleClose` of a connection that is not connected, where
its assertion fails. -/
def Aborting (s : Loops ℓ) : Prop := ∃ l ∈ s.all, ∃ i guard callbacks rest,
  s.stack l = .handleEvent i guard (.close :: callbacks) :: rest ∧
    (s.conn i).state_ ≠ .kConnected ∧ (s.conn i).state_ ≠ .kDisconnecting

end Loops

/-- The peer sends nothing, and takes nothing. -/
def silent : Answers where
  recv _ := .failed EWOULDBLOCK
  extraBuffer := []
  onMessage := id
  write _ := .failed EWOULDBLOCK
  text := ⟨[], Nat.zero_le maxSize⟩

/-- The callbacks return when the peer is silent, but for a close of a connection that is not
connected. -/
theorem EventCallback.exec_silent {w : World ι} (hw : w.Sound) {cb : EventCallback}
    (hlive : cb = .close → w.conn.state_ = .kConnected ∨ w.conn.state_ = .kDisconnecting) :
    ∃ w', (cb.event silent).op.exec w = .ok w' := by
  cases cb with
  | close =>
    obtain ⟨v, hv, -⟩ := TcpConnection.disconnect_spec hw
    refine ⟨TcpConnection.emit v .closeCallback, ?_⟩
    show TcpConnection.handleClose w = _
    rw [TcpConnection.handleClose, if_pos (hlive rfl), hv]
    rfl
  | error => exact ⟨w, rfl⟩
  | read => exact ⟨_, rfl⟩
  | write =>
    show ∃ w', TcpConnection.handleWrite w silent.write = .ok w'
    unfold TcpConnection.handleWrite
    split
    · exact ⟨_, rfl⟩
    · exact ⟨w, rfl⟩

namespace Loops

variable [DecidableEq ℓ] {s t : Loops ℓ} {l : ℓ} {phase : ℕ → Phase} {gone : List ℕ} {i : ℕ}

/-- A function that returns on the connection runs. -/
theorem exists_exec {c : Created ℓ} (hc : s.server.created[i]? = some c)
    {f : World ℕ → Except Fault (World ℕ)} (h : ∃ w, f (s.world c.loop_ i) = .ok w) :
    ∃ t effects, s.exec i f = .ok (t, effects) := by
  obtain ⟨w, hw⟩ := h
  have hloop : s.getLoop i = .ok c.loop_ := by rw [getLoop, hc]
  refine ⟨s.put c.loop_ i w, w.trace, ?_⟩
  rw [exec, hloop, ok_bind]
  exact bind_eq_ok.2 ⟨w, hw, rfl⟩

theorem exists_call {f : Functor ℕ} (hstrong : f.task.Strong)
    (hready : f.token ≠ none → s.Ready f.conn ∧ ∃ c, s.server.created[f.conn]? = some c) :
    ∃ t, s.call l silent f = .ok t := by
  obtain ⟨conn, task⟩ := f
  cases task with
  | conneectEstableished =>
    obtain ⟨hready, c, hc⟩ := hready (by simp [Functor.token])
    obtain ⟨w, hw, -⟩ := TcpConnection.conneectEstableished_spec (hready c hc).2
    obtain ⟨t, effects, ht⟩ := exists_exec hc ⟨w, hw⟩
    exact ⟨_, bind_eq_ok.2 ⟨_, ht, rfl⟩⟩
  | conneectDestroyed =>
    obtain ⟨hready, c, hc⟩ := hready (by simp [Functor.token])
    obtain ⟨w, hw, -⟩ := TcpConnection.conneectDestroyed_spec (hready c hc).2
    obtain ⟨t, effects, ht⟩ := exists_exec hc ⟨w, hw⟩
    exact ⟨_, bind_eq_ok.2 ⟨_, ht, rfl⟩⟩
  | removeConnectionInLoop => exact ⟨_, rfl⟩
  | sendInLoop | shutdownInLoop => exact absurd hstrong id
  | writeCompleteCallback | highWaterMarkCallback => exact ⟨_, rfl⟩

/-- The call that takes a connection on is made for one that has been created. -/
theorem Ok.created_of_phase (hs : s.Ok phase gone) {p : Phase} (hphase : phase i = p)
    (hp : p ≠ .unborn) : ∃ c, s.server.created[i]? = some c :=
  hs.conns.exists_created fun h => hp (hphase.symm.trans (Phase.of_stage_unborn h))

/-- The functor that an activation stands for can be called, or queued. -/
theorem Ok.exists_runInLoop (hs : s.Ok phase gone) {a : Activation} {rest : List Activation}
    (hstack : s.stack l = a :: rest) {p : Phase} (htoken : a.token = some (i, p)) (hp : p ≠ .torn)
    (hborn : p ≠ .unborn) (l' : ℓ) {task : Task} (hstrong : task.Strong) :
    ∃ t, (s.goto l rest).runInLoop l l' silent ⟨i, task⟩ = .ok t := by
  obtain ⟨hphase, -⟩ := hs.take_stack hstack htoken
  have hready : (s.goto l rest).Ready i := hs.ready (hphase ▸ hp)
  have hcreated : ∃ c, (s.goto l rest).server.created[i]? = some c :=
    hs.created_of_phase hphase hborn
  unfold Loops.runInLoop
  split
  · exact exists_call hstrong fun _ => ⟨hready, hcreated⟩
  · exact ⟨_, rfl⟩

/-- What a thread is inside of can be gone on with. -/
theorem Ok.exists_proceed (hs : s.Ok phase gone) (hl : l ∈ s.all) (hlive : ¬s.Aborting) :
    ∃ t, s.proceed l silent = .ok t := by
  unfold Loops.proceed
  split
  next => exact ⟨s, rfl⟩
  next conn rest hstack =>
    obtain ⟨hphase, -⟩ := hs.take_stack hstack rfl
    obtain ⟨c, hc⟩ := hs.created_of_phase hphase Phase.noConfusion
    have hloop : s.getLoop conn = .ok c.loop_ := by rw [getLoop, hc]
    rw [hloop, ok_bind]
    exact hs.exists_runInLoop hstack rfl Phase.noConfusion Phase.noConfusion c.loop_ trivial
  next => exact ⟨_, rfl⟩
  next conn guard cb callbacks rest hstack =>
    have htop : .handleEvent conn guard (cb :: callbacks) ∈ s.stack l := by
      rw [hstack]
      exact List.mem_cons_self
    obtain ⟨hne, c, hc, rfl⟩ := hs.handles l conn guard _ htop
    have hcb : cb = .close →
        (s.conn conn).state_ = .kConnected ∨ (s.conn conn).state_ = .kDisconnecting := by
      rintro rfl
      by_contra hnot
      exact hlive ⟨_, hl, _, _, _, _, hstack, not_or.1 hnot⟩
    have hexec := EventCallback.exec_silent (hs.ready hne c hc).2 hcb
    obtain ⟨u, effects, hu⟩ := exists_exec (f := (cb.event silent).op.exec)
      (s := s.goto c.loop_ (.handleEvent conn guard callbacks :: rest)) hc hexec
    exact ⟨_, bind_eq_ok.2 ⟨_, hu, rfl⟩⟩
  next conn rest hstack =>
    exact hs.exists_runInLoop hstack rfl Phase.noConfusion Phase.noConfusion _ trivial
  next => exact ⟨_, rfl⟩
  next conn rest hstack =>
    obtain ⟨hphase, -⟩ := hs.take_stack hstack rfl
    obtain ⟨c, hc⟩ := hs.created_of_phase hphase Phase.noConfusion
    have hloop : s.getLoop conn = .ok c.loop_ := by rw [getLoop, hc]
    rw [hloop, ok_bind]
    exact ⟨_, rfl⟩

/-- **Progress**: as long as something is left, the thread of some loop can go on. -/
theorem Ok.goes_on (hs : s.Ok phase gone) (hrest : ¬s.AtRest) (hlive : ¬s.Aborting) :
    ∃ a t, s.Busy a ∧ s.step a = .ok t := by
  simp only [AtRest, not_forall] at hrest
  obtain ⟨l, hl, hrest⟩ := hrest
  by_cases hstack : s.stack l = []
  · by_cases hfunctors : s.functors l = []
    · have hpending : (s.loop l).pendingFunctors_ ≠ [] := fun h =>
        hrest ⟨hstack, by rw [queue, hfunctors, h]; rfl⟩
      have hbusy : s.Busy (.swap l) := ⟨hl, ⟨hstack, hfunctors⟩, hpending⟩
      exact ⟨.swap l, s.swap l, hbusy, hbusy.step_eq⟩
    · obtain ⟨f, fs, hf⟩ := List.exists_cons_of_ne_nil hfunctors
      have hmem : f ∈ s.queue l := by simp [queue, hf]
      have hready : f.token ≠ none → (s.round l fs).Ready f.conn ∧
          ∃ c, (s.round l fs).server.created[f.conn]? = some c := by
        intro htoken
        refine ⟨hs.ready_of_token hmem htoken, ?_⟩
        obtain ⟨⟨j, p⟩, hx⟩ := Option.ne_none_iff_exists'.1 htoken
        obtain rfl := Functor.conn_of_token hx
        obtain ⟨hphase, hhome, -⟩ := hs.take_functor hf hx
        refine hs.created_of_phase hphase fun hunborn => ?_
        rw [hunborn, home_unborn] at hhome
        cases hhome
      obtain ⟨t, ht⟩ := exists_call (s := s.round l fs) (l := l) (hs.tasks l f hmem) hready
      have hbusy : s.Busy (.next l silent) := ⟨hl, hstack, hfunctors⟩
      exact ⟨.next l silent, t, hbusy, hbusy.step_eq.trans (by simpa only [perform, hf] using ht)⟩
  · obtain ⟨t, ht⟩ := hs.exists_proceed hl hlive
    have hbusy : s.Busy (.proceed l silent) := ⟨hl, hstack⟩
    exact ⟨.proceed l silent, t, hbusy, hbusy.step_eq.trans ht⟩

/-! ## Rest -/

/-- What is left of a connection: when it has closed, all its functions have run on its loop, and
nothing holds it; else it is established, and `connections_` holds it. -/
structure Done (s : Loops ℓ) (i : ℕ) (c : Created ℓ) : Prop where
  held_iff : s.Held i ↔ ¬s.Closed i
  entry_iff : s.server.connections_ c.name_ = some i ↔ ¬s.Closed i
  history_eq : s.history i = if s.Held i then [(.conneectEstableished, c.loop_)] else
    [(.conneectEstableished, c.loop_), (.handleClose, c.loop_), (.conneectDestroyed, c.loop_)]

theorem Ok.home_mem (hs : s.Ok phase gone) {p : Phase} (hhome : s.home i p = some l) : l ∈ s.all := by
  obtain ⟨c, hc, hhome⟩ := Option.bind_eq_some_iff.1 hhome
  cases p with
  | unborn | established | torn => cases hhome
  | accepted | removing | erasing | erased =>
    obtain rfl := Option.some.inj hhome
    exact List.mem_cons_self
  | establishing | closing | destroying =>
    obtain rfl := Option.some.inj hhome
    exact hs.loop_mem hc

/-- When no thread has anything to go on with, every connection is established or torn down. -/
theorem Ok.done (hs : s.Ok phase gone) (hrest : s.AtRest) {c : Created ℓ}
    (hc : s.server.created[i]? = some c) : s.Done i c := by
  have hpart := hs.conns.part i c hc
  have hentry : s.server.connections_ c.name_ = some i ↔ ¬(phase i).stage.Gone := by
    rw [hs.conns.registered.entries, hs.conns.mem_gone]
    exact and_iff_right ⟨c, hc, rfl⟩
  have hheld : s.Held i ↔ s.server.connections_ c.name_ = some i := by
    refine ⟨fun h => ?_, fun h => .inl ⟨c, hc, h⟩⟩
    obtain ⟨d, hd, h⟩ | ⟨l, hl, h⟩ := h
    · obtain rfl := Option.some.inj (hc.symm.trans hd)
      exact h
    · obtain ⟨f, hf, -⟩ | ⟨a, ha, -⟩ := h
      · rw [(hrest l hl).2] at hf
        cases hf
      · rw [(hrest l hl).1] at ha
        cases ha
  have hsettled : ∀ l, s.home i (phase i) ≠ some l := by
    intro l hhome
    have hl := hs.home_mem hhome
    have hmem := hs.placed.mem hhome
    rw [tokens, (hrest l hl).1, (hrest l hl).2] at hmem
    cases hmem
  have hclosed : s.Closed i ↔ ∃ l, (.handleClose, l) ∈ (phase i).stage.history c.loop_ := by
    rw [Closed, hpart.history]
  simp only [home_eq hc] at hsettled
  cases hphase : phase i with
  | unborn =>
    have hstate := hpart.state
    rw [hphase] at hstate
    exact absurd hstate id
  | established =>
    rw [hphase] at hentry hclosed
    have hopen : ¬s.Closed i := by simp [hclosed, Phase.stage, Stage.history]
    have hstays : s.server.connections_ c.name_ = some i := by simp [hentry, Phase.stage, Stage.Gone]
    refine ⟨by simp [hheld, hstays, hopen], by simp [hstays, hopen], ?_⟩
    rw [if_pos (hheld.2 hstays), hpart.history, hphase]
    rfl
  | torn =>
    rw [hphase] at hentry hclosed
    have hshut : s.Closed i := by simp [hclosed, Phase.stage, Stage.history]
    have hgone : s.server.connections_ c.name_ ≠ some i := by simp [hentry, Phase.stage, Stage.Gone]
    refine ⟨by simp [hheld, hgone, hshut], by simp [hgone, hshut], ?_⟩
    rw [if_neg (fun h => hgone (hheld.1 h)), hpart.history, hphase]
    rfl
  | accepted | establishing | closing | removing | erasing | erased | destroying =>
    rw [hphase] at hsettled
    exact absurd rfl (hsettled _)

/-- A thread that goes on accepts no connection. -/
theorem Busy.created_eq {a : Action ℓ} (hbusy : s.Busy a) (h : s.step a = .ok t) :
    t.server.created = s.server.created := by
  cases cases_of_step h with
  | rest hturn hconn hpoller hcreated hpool => exact hcreated
  | accept hturn ha hserver hconn hloop =>
    rw [ha] at hbusy
    exact absurd hbusy id
  | dispatch hturn hconn hloop hserver => rw [hserver]
  | turn hturn hc hexec hconn hloop hserver => rw [hserver]

/-- **The server comes to rest**: in every state that a run reaches, the threads can only go on for
as many steps as there is work, whatever they are answered; and they can go on until no thread has
anything left, unless one of them is about to call `handleClose` of a connection that is not
connected. At rest, the connections that have closed are torn down, and nothing holds them; the
others are those of `connections_`. -/
theorem settles {loop : ℓ} {loops : List ℓ} {listenAddr : InetAddress} {nameArg : List Char}
    {server : TcpServer ℓ} {actions : List (Action ℓ)} {s : Loops ℓ}
    (hserver : TcpServer.construct loop listenAddr nameArg = .ok server)
    (h : run step (start (server.start loops)) actions = .ok s) :
    (∀ more t, Along step Busy s more → run step s more = .ok t →
      more.length + t.work ≤ s.work) ∧
    ∃ more t, Along step Busy s more ∧ run step s more = .ok t ∧
      t.server.created = s.server.created ∧
      (t.Aborting ∨ t.AtRest ∧ ∀ i c, t.server.created[i]? = some c → t.Done i c) := by
  have hok : ∃ phase gone, s.Ok phase gone := by
    refine invariant (I := fun s => ∃ phase gone, s.Ok phase gone) ?_ ⟨_, _, start_ok hserver⟩ h
    rintro s a t ⟨phase, gone, hs⟩ ht
    exact hs.step ht
  constructor
  · intro more t hbusy ht
    refine Along.length_le (I := fun s : Loops ℓ => ∃ phase gone, s.Ok phase gone) ?_ hok hbusy ht
    rintro s a t ⟨phase, gone, hs⟩ hbusy ht
    exact ⟨hs.step ht, hs.work_lt hbusy ht⟩
  · have hdone : ∃ more t, Along step Busy s more ∧ run step s more = .ok t ∧
        ((∃ phase gone, t.Ok phase gone) ∧ t.server.created = s.server.created) ∧
        (t.Aborting ∨ t.AtRest) := by
      refine exists_run_done (m := work) ?_ ⟨hok, rfl⟩
      rintro t ⟨⟨phase, gone, hs⟩, hcreated⟩ hdone
      obtain ⟨hlive, hrest⟩ := not_or.1 hdone
      obtain ⟨a, u, hbusy, hu⟩ := hs.goes_on hrest hlive
      exact ⟨a, u, hbusy, hu, ⟨hs.step hu, (hbusy.created_eq hu).trans hcreated⟩, hs.work_lt hbusy hu⟩
    obtain ⟨more, t, hbusy, ht, ⟨⟨phase, gone, hs⟩, hcreated⟩, hdone⟩ := hdone
    exact ⟨more, t, hbusy, ht, hcreated,
      hdone.imp_right fun hrest => ⟨hrest, fun i c hc => hs.done hrest hc⟩⟩

/-- The connection of the loop `1` hangs up, and its event has begun to be handled. -/
theorem settles_hangup : ∃ (server : TcpServer ℕ) (s : Loops ℕ),
    TcpServer.construct 0 ⟨(127, 0, 0, 1), 16415⟩ ['s'] = .ok server ∧
    run step (start (server.start [1])) (lifetime.take 6) = .ok s ∧
    s.stack 1 = [.handleEvent 0 true [.close]] ∧
    (∀ more t, Along step Busy s more → run step s more = .ok t →
      more.length + t.work ≤ s.work) ∧
    ∃ more t, Along step Busy s more ∧ run step s more = .ok t ∧
      t.server.created = s.server.created ∧
      (t.Aborting ∨ t.AtRest ∧ ∀ i c, t.server.created[i]? = some c → t.Done i c) := by
  have hrun : (TcpServer.construct 0 ⟨(127, 0, 0, 1), 16415⟩ ['s'] >>= fun server =>
      run step (start (server.start [1])) (lifetime.take 6)).map (fun s => s.stack 1) =
        .ok [.handleEvent 0 true [.close]] := by
    decide +kernel
  obtain ⟨s, hs, hstack⟩ := exists_of_map hrun
  obtain ⟨server, hserver, hs⟩ := bind_eq_ok.1 hs
  exact ⟨server, s, hserver, hs, hstack, settles hserver hs⟩

end Loops

end Muduo
