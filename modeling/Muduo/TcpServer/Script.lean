import Muduo.EventLoopThread.Quit
import Muduo.LoopThread.Queue
import Muduo.TcpServer.Startup

/-!
# The script of a start

However the steps of the threads interleave, the start of a server follows one script. The first call
of `TcpServer::start` brings up the threads of the pool one after the other, since `startLoop` waits
for each to store its `loop_`; the calls that come later find `started_` set. `Phase` is how far this
has got; what a thread of the pool or the loop of the server does by itself moves it on in three
places only (`Phase.enter`, `Phase.publish`, `Phase.listen`), and the rest is what the thread that
starts the server does.
`scripted` is the result for runs.
-/

namespace Muduo

open Run

variable {φ τ : Type}

namespace Startup

/-! ## The script of a start -/

/-- What is recorded while the first `n` threads of the pool are brought up. -/
def brought (cb : Bool) (n : ℕ) : List (Event τ) :=
  (List.range n).flatMap fun j => initCall cb j ++ [.publish j]

/-- What is recorded before the server listens, when `t` starts it. -/
def prelude (t : τ) (cb : Bool) (numThreads : ℤ) : List (Event τ) :=
  .start t cb numThreads :: brought cb numThreads.toNat ++
    if numThreads = 0 ∧ cb then [.baseCallback t] else []

/-- The connection number `k`, with a pool of `n` threads. -/
def handedTo (n k : ℕ) : Option ℕ := if n = 0 then none else some (k % n)

/-- What is recorded until the server, whose loop is on the thread `main`, has taken `k`
connections. -/
def script (main t : τ) (cb : Bool) (numThreads : ℤ) (k : ℕ) : List (Event τ) :=
  prelude t cb numThreads ++ .listen main ::
    (List.range k).map fun j => .newConnection (handedTo numThreads.toNat j)

end Startup

/-! ## What the parts do -/

/-- `threadFunc` has stored `loop_`. -/
def EventLoopThread.Up (e : EventLoopThread φ τ) : Prop := e.func ≠ .idle ∧ e.func ≠ .callback

instance (e : EventLoopThread φ τ) : Decidable e.Up := inferInstanceAs (Decidable (_ ≠ _ ∧ _ ≠ _))

namespace Startup

section

variable [DecidableEq τ]

/-- What a thread of the pool does by itself: it stores `loop_` once, behind `callback_`. -/
theorem func_of_own {e e' : EventLoopThread φ τ} {a : EventLoopThread.Action φ τ} (ha : Own a)
    (h : e.step a = .ok e') :
    e'.func = e.func ∨ e.func = .callback ∧ e'.func = .published ∨ e.Up ∧ e'.Up := by
  cases a with
  | start | startLoop | destroy | call | quit | join => exact absurd ha id
  | publish =>
    obtain rfl := Except.ok.inj h
    split
    next hcallback => exact .inr (.inl ⟨hcallback.1, rfl⟩)
    next => exact .inl rfl
  | lock =>
    obtain rfl := Except.ok.inj h
    split
    next hpublished => exact .inr (.inr (by simp [EventLoopThread.Up, hpublished.1]))
    next => exact .inl rfl
  | clear | unlock | leave =>
    obtain rfl := Except.ok.inj h
    split
    next hfunc => exact .inr (.inr (by simp [EventLoopThread.Up, hfunc]))
    next => exact .inl rfl
  | on a =>
    rcases EventLoopThread.on_ok h with ⟨l, -, -, -, rfl⟩ | rfl
    · exact .inl rfl
    · exact .inl rfl

/-- A thread that has been started is in `callback_`. -/
theorem start_construct {id : τ} {e : EventLoopThread φ τ}
    (h : (EventLoopThread.construct id).step .start = .ok e) : e.Framed ∧ e.func = .callback := by
  refine ⟨(EventLoopThread.construct_framed id).step h, ?_⟩
  obtain rfl := Except.ok.inj h
  rfl

/-- `startLoop` returns when `loop_` is stored, and leaves `threadFunc` where it is. -/
theorem up_of_startLoop {e e' : EventLoopThread φ τ} (he : e.Framed)
    (h : e.step .startLoop = .ok e') : e'.func = e.func ∧ (e'.started = true → e'.Up) := by
  refine ⟨?_, (he.step h).started⟩
  obtain rfl := Except.ok.inj h
  split <;> rfl

end

/-! ## The invariant -/

/-- The functor is `Acceptor::listen`. -/
def Job.isListen : Job φ → Bool
  | listen => true
  | user _ => false

/-- The calls of `Acceptor::listen` that wait. -/
def listens (s : Startup φ τ) : ℕ := s.loop_.waiting.countP Job.isListen

/-- Which threads of the pool have stored `loop_`. -/
def ups (s : Startup φ τ) : List Bool := s.threads_.map fun e => decide e.Up

/-- The parts of a server are well formed, after `calls` calls of `TcpServer::start`. -/
structure Sound (s : Startup φ τ) (main : τ) (calls : ℕ) : Prop where
  owner : s.loop_.threadId_ = main
  fifo : s.loop_.Fifo
  agrees : Agrees s.poller () s.acceptChannel_
  threads : ∀ e ∈ s.threads_, e.Framed ∧ e.func ≠ .idle
  base_eq : s.threadPool_.baseLoop_ = none
  started_eq : s.started_ = BitVec.ofNat 32 calls

/-- The server does not listen, and `n` calls of `Acceptor::listen` wait. -/
structure Silent (s : Startup φ τ) (n : ℕ) : Prop where
  listens_eq : s.listens = n
  index_eq : s.acceptChannel_.index_ = .kNew
  next_eq : s.threadPool_.next_ = 0

/-- The pool has been brought up to its first `n` threads. -/
structure Brought (s : Startup φ τ) (n : ℕ) : Prop where
  ups_eq : s.ups = List.replicate n true
  loops_eq : s.threadPool_.loops_ = (List.range n).map some

/-- A thread is in `EventLoopThreadPool::start`, which has begun with these arguments. -/
structure Starts (s : Startup φ τ) (cb : Bool) (numThreads : ℤ) : Prop where
  starting_eq : s.starting = 1
  cb_eq : s.threadInitCallback_ = cb
  numThreads_eq : s.numThreads_ = numThreads

/-- No thread has called `TcpServer::start`. -/
structure Before (s : Startup φ τ) : Prop where
  place_eq : s.place = fun _ => .outside
  starting_eq : s.starting = 0
  brought : s.Brought 0
  silent : s.Silent 0
  log_eq : s.log = []

variable {s s' : Startup φ τ} {main t : τ} {cb : Bool} {numThreads : ℤ} {calls : ℕ}

/-- Nothing has changed that a phase speaks of. -/
structure Same (s s' : Startup φ τ) : Prop where
  place_eq : s'.place = s.place
  starts_eq : s'.starting = s.starting ∧ s'.threadInitCallback_ = s.threadInitCallback_ ∧
    s'.numThreads_ = s.numThreads_
  ups_eq : s'.ups = s.ups
  entered_eq : s'.entered = s.entered
  pool_eq : s'.threadPool_ = s.threadPool_
  listens_eq : s'.listens = s.listens
  index_eq : s'.acceptChannel_.index_ = s.acceptChannel_.index_
  log_eq : s'.log = s.log

/-- The parts that may not be well formed have not changed. -/
theorem Sound.of_eq (hs : s.Sound main calls) (hloop : s'.loop_ = s.loop_)
    (hpoller : s'.poller = s.poller) (hchannel : s'.acceptChannel_ = s.acceptChannel_)
    (hthreads : s'.threads_ = s.threads_)
    (hbase : s'.threadPool_.baseLoop_ = s.threadPool_.baseLoop_) (hstarted : s'.started_ = s.started_) :
    s'.Sound main calls := by
  refine ⟨hloop ▸ hs.owner, hloop ▸ hs.fifo, ?_, hthreads ▸ hs.threads, hbase.trans hs.base_eq,
    hstarted.trans hs.started_eq⟩
  rw [hpoller, hchannel]
  exact hs.agrees

theorem Same.silent (h : Same s s') {n : ℕ} (hs : s.Silent n) : s'.Silent n :=
  ⟨h.listens_eq.trans hs.listens_eq, h.index_eq.trans hs.index_eq, h.pool_eq ▸ hs.next_eq⟩

theorem Same.brought (h : Same s s') {n : ℕ} (hs : s.Brought n) : s'.Brought n :=
  ⟨h.ups_eq.trans hs.ups_eq, h.pool_eq ▸ hs.loops_eq⟩

theorem Same.starts (h : Same s s') (hs : s.Starts cb numThreads) : s'.Starts cb numThreads :=
  ⟨h.starts_eq.1.trans hs.starting_eq, h.starts_eq.2.1.trans hs.cb_eq,
    h.starts_eq.2.2.trans hs.numThreads_eq⟩

theorem Before.same (hs : s.Before) (h : Same s s') : s'.Before :=
  ⟨h.place_eq.trans hs.place_eq, h.starts_eq.1.trans hs.starting_eq, h.brought hs.brought,
    h.silent hs.silent, h.log_eq.trans hs.log_eq⟩

theorem brought_succ (cb : Bool) (n : ℕ) : (brought cb (n + 1) : List (Event τ)) =
    brought cb n ++ (initCall cb n ++ [.publish n]) := by
  simp [brought, List.range_succ]

theorem Brought.length_eq {n : ℕ} (hs : s.Brought n) : s.threads_.length = n := by
  have hlength := congrArg List.length hs.ups_eq
  simpa [ups] using hlength

/-- A thread of the pool that has not stored its `loop_` is the last one, for which `startLoop`
waits. -/
theorem eq_of_down {i n : ℕ} (hups : s.ups = List.replicate i true ++ [false])
    (hdown : s.ups[n]? = some false) : n = i := by
  rw [hups, List.getElem?_append] at hdown
  split at hdown
  next hlt => simp [List.getElem?_replicate] at hdown
  next hge =>
    have hlt := (List.getElem?_eq_some_iff.1 hdown).1
    simp only [List.length_replicate, List.length_singleton] at hge hlt
    omega

theorem not_down {m n : ℕ} (hups : s.ups = List.replicate m true) :
    s.ups[n]? ≠ some false := by
  rw [hups, List.getElem?_replicate]
  split <;> simp

/-- The turns of the pool, which has been brought up to `n` threads. -/
theorem Brought.turn {n : ℕ} (hs : s.Brought n) (hbase : s.threadPool_.baseLoop_ = none) (k : ℕ) :
    s.threadPool_.turn k = handedTo n k := by
  unfold EventLoopThreadPool.turn handedTo
  rw [hs.loops_eq, hbase, List.length_map, List.length_range]
  split
  next hzero => simp [hzero]
  next hpos =>
    have hlt := Nat.mod_lt k (Nat.pos_of_ne_zero hpos)
    simp [hlt]

/-- `Acceptor::listen` adds the channel of the acceptor to the poller. -/
theorem listen_ok (hs : s.Sound main calls) {listens : Bool} (h : s.listen t listens = .ok s') :
    s'.Sound main calls ∧ s'.loop_ = s.loop_ ∧ s'.threads_ = s.threads_ ∧
      s'.threadPool_ = s.threadPool_ ∧ s'.place = s.place ∧ s'.starting = s.starting ∧
      s'.log = s.log ++ [.listen t] := by
  unfold listen at h
  split at h
  next =>
    obtain ⟨⟨poller, channel⟩, henable, h⟩ := bind_eq_ok.1 h
    obtain rfl := Except.ok.inj h
    obtain ⟨p, hp, hagrees, -⟩ :=
      watch_spec hs.agrees (s.acceptChannel_.events_ ||| Channel.kReadEvent)
    obtain ⟨rfl, rfl⟩ := Prod.mk.inj (Except.ok.inj (hp.symm.trans henable))
    refine ⟨?_, rfl, rfl, rfl, rfl, rfl, rfl⟩
    exact ⟨hs.owner, hs.fifo, hagrees, hs.threads, hs.base_eq, hs.started_eq⟩
  next => cases h

variable [DecidableEq τ]

/-- Of the threads only `t` is in `TcpServer::start`. -/
def only (t : τ) (place : Place) : τ → Place :=
  Function.update (fun _ => .outside) t place

/-- How far the start by `t` has got. -/
inductive Phase (s : Startup φ τ) (main t : τ) (cb : Bool) (numThreads : ℤ) : Prop
  | testing (i : ℕ) (hplace : s.place = only t (.testing i)) (hstarts : s.Starts cb numThreads)
      (hi : i ≤ numThreads.toNat) (hbrought : s.Brought i) (hsilent : s.Silent 0)
      (hlog : s.log = .start t cb numThreads :: brought cb i)
  /-- The thread number `i` has been started. -/
  | waiting (i : ℕ) (hplace : s.place = only t (.waiting i i)) (hstarts : s.Starts cb numThreads)
      (hi : i < numThreads.toNat) (hups : s.ups = List.replicate i true ++ [false])
      (hentered : s.entered i = false)
      (hloops : s.threadPool_.loops_ = (List.range i).map some) (hsilent : s.Silent 0)
      (hlog : s.log = .start t cb numThreads :: brought cb i)
  /-- The thread number `i` is in `callback_`. -/
  | entered (i : ℕ) (hplace : s.place = only t (.waiting i i)) (hstarts : s.Starts cb numThreads)
      (hi : i < numThreads.toNat) (hups : s.ups = List.replicate i true ++ [false])
      (hentered : s.entered i = true)
      (hloops : s.threadPool_.loops_ = (List.range i).map some) (hsilent : s.Silent 0)
      (hlog : s.log = .start t cb numThreads :: (brought cb i ++ initCall cb i))
  /-- The thread number `i` has stored `loop_`. -/
  | waited (i : ℕ) (hplace : s.place = only t (.waiting i i)) (hstarts : s.Starts cb numThreads)
      (hi : i < numThreads.toNat) (hups : s.ups = List.replicate (i + 1) true)
      (hloops : s.threadPool_.loops_ = (List.range i).map some) (hsilent : s.Silent 0)
      (hlog : s.log = .start t cb numThreads :: brought cb (i + 1))
  | callback (hplace : s.place = only t .callback) (hstarts : s.Starts cb numThreads)
      (hbrought : s.Brought numThreads.toNat) (hsilent : s.Silent 0)
      (hlog : s.log = prelude t cb numThreads)
  | listening (hplace : s.place = only t .listening) (hstarting : s.starting = 0)
      (hbrought : s.Brought numThreads.toNat) (hsilent : s.Silent 0)
      (hlog : s.log = prelude t cb numThreads)
  /-- `Acceptor::listen` is queued. -/
  | queued (hplace : s.place = fun _ => .outside) (hstarting : s.starting = 0)
      (hbrought : s.Brought numThreads.toNat) (hsilent : s.Silent 1)
      (hlog : s.log = prelude t cb numThreads)
  /-- The server listens, and has taken `k` connections. -/
  | listened (k : ℕ) (hplace : s.place = fun _ => .outside) (hstarting : s.starting = 0)
      (hbrought : s.Brought numThreads.toNat) (hlistens : s.listens = 0)
      (hcalled : s.threadPool_.Called k) (hlog : s.log = script main t cb numThreads k)

/-- The invariant, after `calls` calls of `TcpServer::start`. -/
inductive Ok (s : Startup φ τ) (main : τ) (calls : ℕ) : Prop
  | before (hcalls : calls = 0) (hbefore : s.Before)
  | begun (hcalls : 0 < calls) (t : τ) (cb : Bool) (numThreads : ℤ)
      (hphase : s.Phase main t cb numThreads)

theorem only_self (t : τ) (place : Place) : only t place t = place := Function.update_self ..

theorem only_outside (t : τ) : only t .outside = fun _ => .outside := Function.update_eq_self ..

theorem of_only {t u : τ} {place place' : Place} (h : only t place u = place')
    (hne : place' ≠ .outside) : u = t ∧ place = place' := by
  by_cases hu : u = t
  · subst hu
    exact ⟨rfl, (only_self u place).symm.trans h⟩
  · rw [only, Function.update_of_ne hu] at h
    exact absurd h.symm hne

theorem goto_place {place : Place} (h : s.place = only t place) (place' : Place) :
    (s.goto t place').place = only t place' := by
  simp only [goto, h, only, Function.update_idem]

theorem Phase.same (hs : s.Phase main t cb numThreads) (h : Same s s') :
    s'.Phase main t cb numThreads := by
  have hplace {p : τ → Place} (hp : s.place = p) : s'.place = p := h.place_eq.trans hp
  have hlog {l : List (Event τ)} (hl : s.log = l) : s'.log = l := h.log_eq.trans hl
  have hstarting (h₀ : s.starting = 0) : s'.starting = 0 := h.starts_eq.1.trans h₀
  cases hs with
  | testing i hp hstarts hi hbrought hsilent hl =>
    exact .testing i (hplace hp) (h.starts hstarts) hi (h.brought hbrought) (h.silent hsilent)
      (hlog hl)
  | waiting i hp hstarts hi hups hentered hloops hsilent hl =>
    exact .waiting i (hplace hp) (h.starts hstarts) hi (h.ups_eq.trans hups)
      (h.entered_eq ▸ hentered) (h.pool_eq ▸ hloops) (h.silent hsilent) (hlog hl)
  | entered i hp hstarts hi hups hentered hloops hsilent hl =>
    exact .entered i (hplace hp) (h.starts hstarts) hi (h.ups_eq.trans hups)
      (h.entered_eq ▸ hentered) (h.pool_eq ▸ hloops) (h.silent hsilent) (hlog hl)
  | waited i hp hstarts hi hups hloops hsilent hl =>
    exact .waited i (hplace hp) (h.starts hstarts) hi (h.ups_eq.trans hups) (h.pool_eq ▸ hloops)
      (h.silent hsilent) (hlog hl)
  | callback hp hstarts hbrought hsilent hl =>
    exact .callback (hplace hp) (h.starts hstarts) (h.brought hbrought) (h.silent hsilent) (hlog hl)
  | listening hp h₀ hbrought hsilent hl =>
    exact .listening (hplace hp) (hstarting h₀) (h.brought hbrought) (h.silent hsilent) (hlog hl)
  | queued hp h₀ hbrought hsilent hl =>
    exact .queued (hplace hp) (hstarting h₀) (h.brought hbrought) (h.silent hsilent) (hlog hl)
  | listened k hp h₀ hbrought hlistens hcalled hl =>
    exact .listened k (hplace hp) (hstarting h₀) (h.brought hbrought)
      (h.listens_eq.trans hlistens) (h.pool_eq ▸ hcalled) (hlog hl)

theorem Ok.same (hs : s.Ok main calls) (h : Same s s') : s'.Ok main calls := by
  cases hs with
  | before hcalls hbefore => exact .before hcalls (hbefore.same h)
  | begun hcalls t cb numThreads hphase => exact .begun hcalls t cb numThreads (hphase.same h)

/-! ## Steps of the parts -/

/-- A thread of the pool steps: it stores its `loop_`, or nothing changes that a phase speaks of. -/
theorem thread_ok (hs : s.Sound main calls) {n : ℕ} {a : EventLoopThread.Action φ τ} (ha : Own a)
    (h : s.thread n a = .ok s') : s'.Sound main calls ∧ (Same s s' ∨ s.ups[n]? = some false ∧
      ∃ threads, s' = { s with threads_ := threads }.note [.publish n] ∧
        s'.ups = s.ups.set n true) := by
  unfold thread at h
  split at h
  next =>
    obtain rfl := Except.ok.inj h
    exact ⟨hs, .inl ⟨rfl, ⟨rfl, rfl, rfl⟩, rfl, rfl, rfl, rfl, rfl, rfl⟩⟩
  next e he =>
    obtain ⟨e', he', h⟩ := bind_eq_ok.1 h
    obtain rfl := Except.ok.inj h
    obtain ⟨hframed, hidle⟩ := hs.threads e (List.mem_of_getElem? he)
    have hfunc := func_of_own ha he'
    have hidle' : e'.func ≠ .idle := by
      rcases hfunc with hfunc | ⟨-, hfunc⟩ | ⟨-, hfunc⟩
      · exact hfunc ▸ hidle
      · simp [hfunc]
      · exact hfunc.1
    refine ⟨⟨hs.owner, hs.fifo, hs.agrees, fun f hf => ?_, hs.base_eq, hs.started_eq⟩, ?_⟩
    · rcases List.mem_or_eq_of_mem_set hf with hf | rfl
      · exact hs.threads f hf
      · exact ⟨hframed.step he', hidle'⟩
    · have hups : s.ups[n]? = some (decide e.Up) := by rw [ups, List.getElem?_map, he, Option.map_some]
      have hset : (s.threads_.set n e').map (fun e => decide e.Up) = s.ups.set n (decide e'.Up) :=
        List.map_set
      by_cases hpublish : e.func = .callback ∧ e'.func = .published
      · have hdown : decide e.Up = false := by simp [EventLoopThread.Up, hpublish.1]
        have hup : decide e'.Up = true := by simp [EventLoopThread.Up, hpublish.2]
        refine .inr ⟨by rw [hups, hdown], s.threads_.set n e', by simp [note, hpublish], ?_⟩
        rw [hup] at hset
        exact hset
      · have hsame : decide e'.Up = decide e.Up := by
          rcases hfunc with hfunc | hfunc | ⟨hup, hup'⟩
          · exact decide_eq_decide.2 (by simp only [EventLoopThread.Up, hfunc])
          · exact absurd hfunc hpublish
          · rw [decide_eq_true hup, decide_eq_true hup']
        refine .inl ⟨rfl, ⟨rfl, rfl, rfl⟩, ?_, rfl, rfl, rfl, rfl, by simp [note, hpublish]⟩
        rw [hsame] at hset
        refine Eq.trans hset ?_
        obtain ⟨hlt, hget⟩ := List.getElem?_eq_some_iff.1 hups
        rw [← hget, List.set_getElem_self]

/-- The loop of the server steps: it runs `Acceptor::listen`, or nothing changes that a phase speaks
of. -/
theorem base_ok (hs : s.Sound main calls) {a : LoopThread.Action (Job φ) τ} (ha : s.Permits a)
    {listens : Bool} (h : s.base a listens = .ok s') : s'.Sound main calls ∧ (Same s s' ∨
      s.listens = s'.listens + 1 ∧ s'.ups = s.ups ∧ s'.threadPool_ = s.threadPool_ ∧
        s'.place = s.place ∧ s'.starting = s.starting ∧ s'.log = s.log ++ [.listen main]) := by
  obtain ⟨l, hl, h⟩ := bind_eq_ok.1 h
  have hsound : Sound { s with loop_ := l } main calls :=
    ⟨(LoopThread.step_threadId hl).trans hs.owner, hs.fifo.step hl, hs.agrees, hs.threads,
      hs.base_eq, hs.started_eq⟩
  have hwaiting := hs.fifo.waiting_step hl
  -- the user does not queue `Acceptor::listen`, and the functor that is called is no such call
  have hquiet (hnext : ∀ f, s.loop_.Enabled .next → s.loop_.waiting = f :: l.waiting → a = .next →
      f.isListen = false) : Same s { s with loop_ := l } := by
    refine ⟨rfl, ⟨rfl, rfl, rfl⟩, rfl, rfl, rfl, ?_, rfl, rfl⟩
    rcases hwaiting with heq | ⟨u, f, rfl, heq⟩ | ⟨rfl, henabled, f, heq⟩
    · rw [Startup.listens, heq, Startup.listens]
    · have hf : f.isListen = false := by
        cases f with
        | listen => exact absurd ha id
        | user f => rfl
      simp [Startup.listens, heq, hf]
    · simp [Startup.listens, heq, hnext f henabled heq rfl]
  simp only at h
  split at h
  next henabled =>
    split at h
    next fs hfunctors _ =>
      obtain ⟨hsound', hloop, hthreads, hpool, hplace, hstarting, hlog⟩ := listen_ok hsound h
      have hf := LoopThread.waiting_next henabled hfunctors hl
      refine ⟨hsound', .inr ⟨?_, ?_, hpool, hplace, hstarting, ?_⟩⟩
      · have hloop : s'.loop_ = l := hloop
        rw [Startup.listens, hf, List.countP_cons_of_pos rfl, Startup.listens, hloop]
      · rw [ups, hthreads, ups]
      · rw [hlog, hs.owner]
    next hnot =>
      obtain rfl := Except.ok.inj h
      refine ⟨hsound, .inl (hquiet fun f henabled hf hnext => ?_)⟩
      cases f with
      | listen =>
        obtain ⟨g, gs, hg⟩ := List.exists_cons_of_ne_nil henabled.2.1
        rw [LoopThread.waiting, hg, List.cons_append] at hf
        obtain rfl := (List.cons.inj hf).1
        exact absurd hg (hnot gs hnext)
      | user f => rfl
  next hnot =>
    obtain rfl := Except.ok.inj h
    exact ⟨hsound, .inl (hquiet fun f henabled _ hnext => absurd (hnext ▸ henabled) hnot)⟩

/-! ## Steps of the start -/

/-- The first call starts the server. -/
theorem Before.start (hs : s.Before) (hzero : s.started_ = 0) (t : τ) :
    (s.start t).Phase main t s.threadInitCallback_ s.numThreads_ := by
  have hstart : s.start t = ({ s with started_ := s.started_ + 1, starting := s.starting + 1 }.note
      [.start t s.threadInitCallback_ s.numThreads_]).goto t (.testing 0) := if_pos hzero
  rw [hstart]
  refine .testing 0 ?_ ⟨congrArg (· + 1) hs.starting_eq, rfl, rfl⟩ (Nat.zero_le _) ⟨hs.brought.1,
    hs.brought.2⟩ ⟨hs.silent.1, hs.silent.2, hs.silent.3⟩ ?_
  · exact congrArg (Function.update · t (.testing 0)) hs.place_eq
  · simp [goto, note, hs.log_eq, Startup.brought]

/-- The test of the `for`. -/
theorem Phase.test (hs : s.Phase main t cb numThreads) (hsound : s.Sound main calls) {u id : τ} {i : ℕ}
    (hu : s.place u = .testing i) (h : s.test u id i = .ok s') :
    s'.Sound main calls ∧ s'.Phase main t cb numThreads := by
  have hne : Place.testing i ≠ .outside := Place.noConfusion
  cases hs with
  | testing j hplace hstarts hi hbrought hsilent hlog =>
    obtain ⟨rfl, heq⟩ := of_only (hplace ▸ hu) hne
    obtain rfl := Place.testing.inj heq
    obtain ⟨hstarting, rfl, rfl⟩ := hstarts
    have hlength := hbrought.length_eq
    unfold Startup.test at h
    split at h
    next hlt =>
      obtain ⟨e, he, h⟩ := bind_eq_ok.1 h
      obtain rfl := Except.ok.inj h
      obtain ⟨hframed, hfunc⟩ := start_construct he
      refine ⟨⟨hsound.owner, hsound.fifo, hsound.agrees, ?_, hsound.base_eq, hsound.started_eq⟩, ?_⟩
      · intro e he
        rcases List.mem_append.1 he with he | he
        · exact hsound.threads e he
        · obtain rfl := List.mem_singleton.1 he
          exact ⟨hframed, by simp [hfunc]⟩
      · refine .waiting j ?_ ⟨hstarting, rfl, rfl⟩ (by omega) ?_ ?_ hbrought.loops_eq
          ⟨hsilent.1, hsilent.2, hsilent.3⟩ ?_
        · rw [hlength]
          exact goto_place hplace _
        · have hdown : decide e.Up = false := by simp [EventLoopThread.Up, hfunc]
          rw [← hdown, ← hbrought.ups_eq]
          exact List.map_append
        · rw [hlength]
          exact Function.update_self ..
        · simp [goto, hlog]
    next hge =>
      obtain rfl : j = s.numThreads_.toNat := by omega
      split at h
      next hbase =>
        obtain rfl := Except.ok.inj h
        refine ⟨hsound.of_eq rfl rfl rfl rfl rfl rfl,
          .callback (goto_place hplace _) ⟨hstarting, rfl, rfl⟩ ⟨hbrought.1, hbrought.2⟩
            ⟨hsilent.1, hsilent.2, hsilent.3⟩ ?_⟩
        simp [goto, note, hlog, prelude, hbase]
      next hbase =>
        obtain rfl := Except.ok.inj h
        refine ⟨hsound.of_eq rfl rfl rfl rfl rfl rfl,
          .listening (goto_place hplace _) (congrArg (· - 1) hstarting) ⟨hbrought.1, hbrought.2⟩
            ⟨hsilent.1, hsilent.2, hsilent.3⟩ ?_⟩
        simp [goto, hlog, prelude, hbase]
  | waiting j hplace | entered j hplace | waited j hplace =>
    exact Place.noConfusion (of_only (hplace ▸ hu) hne).2
  | callback hplace | listening hplace =>
    exact Place.noConfusion (of_only (hplace ▸ hu) hne).2
  | queued hplace | listened k hplace =>
    rw [hplace] at hu
    exact Place.noConfusion hu

/-- `startLoop` returns. -/
theorem Phase.startLoop (hs : s.Phase main t cb numThreads) (hsound : s.Sound main calls) {u : τ}
    {i n : ℕ} (hu : s.place u = .waiting i n) (h : s.startLoop u i n = .ok s') :
    s'.Sound main calls ∧ s'.Phase main t cb numThreads := by
  have hne : Place.waiting i n ≠ .outside := Place.noConfusion
  unfold Startup.startLoop at h
  split at h
  next =>
    obtain rfl := Except.ok.inj h
    exact ⟨hsound, hs⟩
  next e he =>
    obtain ⟨e', he', h⟩ := bind_eq_ok.1 h
    obtain rfl := Except.ok.inj h
    obtain ⟨hframed, hidle⟩ := hsound.threads e (List.mem_of_getElem? he)
    obtain ⟨hfunc, hup⟩ := up_of_startLoop hframed he'
    split
    next hstarted =>
      have hthread : decide e.Up = true := by
        rw [decide_eq_true_iff, EventLoopThread.Up, ← hfunc]
        exact hup hstarted
      have hget : s.ups[n]? = some true := by
        rw [ups, List.getElem?_map, he, Option.map_some, hthread]
      have hups : (s.threads_.set n e').map (fun e => decide e.Up) = s.ups := by
        rw [List.map_set, decide_eq_true (hup hstarted), ← ups]
        obtain ⟨hlt, hget⟩ := List.getElem?_eq_some_iff.1 hget
        rw [← hget, List.set_getElem_self]
      refine ⟨⟨hsound.owner, hsound.fifo, hsound.agrees, fun f hf => ?_, hsound.base_eq,
        hsound.started_eq⟩, ?_⟩
      · rcases List.mem_or_eq_of_mem_set hf with hf | rfl
        · exact hsound.threads f hf
        · exact ⟨hframed.step he', hfunc ▸ hidle⟩
      · cases hs with
        | waited j hplace hstarts hi hups' hloops hsilent hlog =>
          obtain ⟨rfl, heq⟩ := of_only (hplace ▸ hu) hne
          obtain ⟨rfl, rfl⟩ := Place.waiting.inj heq
          refine .testing (j + 1) (goto_place hplace _) ⟨hstarts.1, hstarts.2, hstarts.3⟩ hi
            ⟨hups.trans hups', ?_⟩ ⟨hsilent.1, hsilent.2, hsilent.3⟩ hlog
          simp [goto, EventLoopThreadPool.start, hloops, List.range_succ]
        | waiting j hplace hstarts hi hups' | entered j hplace hstarts hi hups' =>
          obtain ⟨rfl, heq⟩ := of_only (hplace ▸ hu) hne
          obtain ⟨rfl, rfl⟩ := Place.waiting.inj heq
          simp [hups'] at hget
        | testing j hplace => exact Place.noConfusion (of_only (hplace ▸ hu) hne).2
        | callback hplace | listening hplace =>
          exact Place.noConfusion (of_only (hplace ▸ hu) hne).2
        | queued hplace | listened k hplace =>
          rw [hplace] at hu
          exact Place.noConfusion hu
    next => exact ⟨hsound, hs⟩

theorem Phase.leaveCallback (hs : s.Phase main t cb numThreads) {u : τ}
    (hu : s.place u = .callback) :
    ({ s with starting := s.starting - 1 }.goto u .listening).Phase main t cb numThreads := by
  have hne : Place.callback ≠ .outside := Place.noConfusion
  cases hs with
  | callback hplace hstarts hbrought hsilent hlog =>
    obtain ⟨rfl, -⟩ := of_only (hplace ▸ hu) hne
    exact .listening (goto_place hplace _) (congrArg (· - 1) hstarts.starting_eq)
      ⟨hbrought.1, hbrought.2⟩ ⟨hsilent.1, hsilent.2, hsilent.3⟩ hlog
  | testing j hplace | waiting j hplace | entered j hplace | waited j hplace =>
    exact Place.noConfusion (of_only (hplace ▸ hu) hne).2
  | listening hplace => exact Place.noConfusion (of_only (hplace ▸ hu) hne).2
  | queued hplace | listened k hplace =>
    rw [hplace] at hu
    exact Place.noConfusion hu

/-- The server begins to listen. -/
theorem Phase.of_listen (hlistens : s'.listens = 0) (hplace : s'.place = fun _ => .outside)
    (hstarting : s'.starting = 0) (hbrought : s'.Brought numThreads.toNat)
    (hnext : s'.threadPool_.next_ = 0) (hlog : s'.log = prelude t cb numThreads ++ [.listen main]) :
    s'.Phase main t cb numThreads := by
  refine .listened 0 hplace hstarting hbrought hlistens (fun _ => ?_) ?_
  · rw [hnext, Nat.zero_mod]
  · simpa [script] using hlog

theorem Phase.runInLoop (hs : s.Phase main t cb numThreads) (hsound : s.Sound main calls) {u : τ}
    {listens : Bool} (hu : s.place u = .listening) (h : s.runInLoop u listens = .ok s') :
    s'.Sound main calls ∧ s'.Phase main t cb numThreads := by
  have hne : Place.listening ≠ .outside := Place.noConfusion
  cases hs with
  | listening hplace hstarting hbrought hsilent hlog =>
    obtain ⟨rfl, -⟩ := of_only (hplace ▸ hu) hne
    have hplace' : (s.goto u .outside).place = fun _ => .outside :=
      (goto_place hplace _).trans (only_outside u)
    unfold Startup.runInLoop at h
    split at h
    next howner =>
      have hsound' : (s.goto u .outside).Sound main calls :=
        hsound.of_eq rfl rfl rfl rfl rfl rfl
      obtain ⟨hsound', hloop, hthreads, hpool, hp, hstarting', hlog'⟩ := listen_ok hsound' h
      have hmain : u = main := (of_decide_eq_true howner).symm.trans hsound.owner
      refine ⟨hsound', .of_listen ?_ (hp.trans hplace') (hstarting'.trans hstarting) ?_ ?_ ?_⟩
      · rw [Startup.listens, hloop]
        exact hsilent.listens_eq
      · exact ⟨by rw [ups, hthreads]; exact hbrought.ups_eq, by rw [hpool]; exact hbrought.loops_eq⟩
      · rw [hpool]
        exact hsilent.next_eq
      · rw [hlog', ← hmain, ← hlog]
        rfl
    next =>
      obtain rfl := Except.ok.inj h
      refine ⟨⟨hsound.owner, hsound.fifo.queueInLoop u .listen, hsound.agrees, hsound.threads,
        hsound.base_eq, hsound.started_eq⟩, .queued hplace' hstarting ⟨hbrought.1, hbrought.2⟩
          ⟨?_, hsilent.2, hsilent.3⟩ hlog⟩
      have hzero := hsilent.listens_eq
      rw [Startup.listens, LoopThread.waiting] at hzero ⊢
      simp [goto, LoopThread.queueInLoop, LoopThread.enter, ← List.append_assoc, hzero,
        Job.isListen]
  | testing j hplace | waiting j hplace | entered j hplace | waited j hplace =>
    exact Place.noConfusion (of_only (hplace ▸ hu) hne).2
  | callback hplace => exact Place.noConfusion (of_only (hplace ▸ hu) hne).2
  | queued hplace | listened k hplace =>
    rw [hplace] at hu
    exact Place.noConfusion hu

/-- A thread of the pool comes to the call of `callback_`. -/
theorem Phase.enter (hs : s.Phase main t cb numThreads) {n : ℕ} (hdown : s.ups[n]? = some false)
    (hentered : s.entered n = false) : (s.callback n).Phase main t cb numThreads := by
  cases hs with
  | waiting i hplace hstarts hi hups _ hloops hsilent hlog =>
    obtain rfl := eq_of_down hups hdown
    refine .entered n hplace ⟨hstarts.1, hstarts.2, hstarts.3⟩ hi hups (Function.update_self ..)
      hloops ⟨hsilent.1, hsilent.2, hsilent.3⟩ ?_
    rw [← List.cons_append, ← hlog, ← hstarts.cb_eq, Startup.callback, note]
  | entered i _ _ _ hups hentered' =>
    obtain rfl := eq_of_down hups hdown
    exact Bool.noConfusion (hentered.symm.trans hentered')
  | waited i _ _ _ hups => exact absurd hdown (not_down hups)
  | testing i _ _ _ hbrought | callback _ _ hbrought | listening _ _ hbrought | queued _ _ hbrought
  | listened k _ _ hbrought => exact absurd hdown (not_down hbrought.ups_eq)

/-- A thread of the pool stores its `loop_`. -/
theorem Phase.publish (hs : s.Phase main t cb numThreads) {n : ℕ} (hdown : s.ups[n]? = some false)
    (hentered : s.entered n = true) {threads : List (EventLoopThread φ τ)}
    (hs' : s' = { s with threads_ := threads }.note [.publish n])
    (hups' : s'.ups = s.ups.set n true) : s'.Phase main t cb numThreads := by
  cases hs with
  | entered i hplace hstarts hi hups _ hloops hsilent hlog =>
    obtain rfl := eq_of_down hups hdown
    subst hs'
    refine .waited n hplace ⟨hstarts.1, hstarts.2, hstarts.3⟩ hi ?_ hloops
      ⟨hsilent.1, hsilent.2, hsilent.3⟩ ?_
    · rw [hups', hups, List.set_append_right _ _ (by simp), List.length_replicate, Nat.sub_self,
        List.set_cons_zero, List.replicate_succ']
    · rw [brought_succ, ← List.append_assoc, ← List.cons_append, ← hlog, note]
  | waiting i _ _ _ hups hentered' =>
    obtain rfl := eq_of_down hups hdown
    exact Bool.noConfusion (hentered'.symm.trans hentered)
  | waited i _ _ _ hups => exact absurd hdown (not_down hups)
  | testing i _ _ _ hbrought | callback _ _ hbrought | listening _ _ hbrought | queued _ _ hbrought
  | listened k _ _ hbrought => exact absurd hdown (not_down hbrought.ups_eq)

/-- The queued call of `Acceptor::listen` runs. -/
theorem Phase.listen (hs : s.Phase main t cb numThreads) (hlistens : s.listens = s'.listens + 1)
    (hups : s'.ups = s.ups) (hpool : s'.threadPool_ = s.threadPool_) (hplace' : s'.place = s.place)
    (hstarting' : s'.starting = s.starting) (hlog' : s'.log = s.log ++ [.listen main]) :
    s'.Phase main t cb numThreads := by
  have hnot (hzero : s.listens = 0) : False := Nat.succ_ne_zero _ (hlistens.symm.trans hzero)
  cases hs with
  | queued hplace hstarting hbrought hsilent hlog =>
    refine .of_listen ?_ (hplace'.trans hplace) (hstarting'.trans hstarting) ?_ ?_ ?_
    · exact Nat.succ.inj (hlistens.symm.trans hsilent.listens_eq)
    · exact ⟨hups.trans hbrought.ups_eq, hpool ▸ hbrought.loops_eq⟩
    · rw [hpool, hsilent.next_eq]
    · rw [hlog', hlog]
  | listened k _ _ _ hzero => exact absurd hzero hnot
  | testing i _ _ _ _ hsilent | callback _ _ _ hsilent | listening _ _ _ hsilent
  | waiting i _ _ _ _ _ _ hsilent | entered i _ _ _ _ _ _ hsilent | waited i _ _ _ _ _ hsilent =>
    exact absurd hsilent.listens_eq hnot

theorem Phase.newConnection (hs : s.Phase main t cb numThreads) (hsound : s.Sound main calls)
    (hwatched : (s.poller.entry s.acceptChannel_.fd_).Mentions ()) (h : s.newConnection = .ok s') :
    s'.Sound main calls ∧ s'.Phase main t cb numThreads := by
  have hnot {n : ℕ} (hsilent : s.Silent n) : False := by
    have hagrees : s.poller.entry s.acceptChannel_.fd_ = s.acceptChannel_.entry () := hsound.agrees
    rw [hagrees, Channel.entry, hsilent.index_eq] at hwatched
    simp [Entry.Mentions] at hwatched
  cases hs with
  | listened k hplace hstarting hbrought hlistens hcalled hlog =>
    obtain ⟨pool, hpool, hcalled', hloops, hbase⟩ := hcalled.getNextLoop
    rw [Startup.newConnection, hpool] at h
    obtain rfl := Except.ok.inj h
    refine ⟨hsound.of_eq rfl rfl rfl rfl hbase rfl,
      .listened (k + 1) hplace hstarting ⟨hbrought.1, hloops.trans hbrought.2⟩ hlistens hcalled' ?_⟩
    rw [hbrought.turn hsound.base_eq]
    simp [note, hlog, script, List.range_succ]
  | testing i _ _ _ _ hsilent | callback _ _ _ hsilent | listening _ _ _ hsilent
  | queued _ _ _ hsilent | waiting i _ _ _ _ _ _ hsilent | entered i _ _ _ _ _ _ hsilent
  | waited i _ _ _ _ _ hsilent => exact absurd hsilent hnot

/-! ## Every step -/

/-- The step is a call of `TcpServer::start`. -/
def Action.isStart : Action φ τ → Bool
  | start _ => true
  | _ => false

/-- A call of `TcpServer::start`, the first or another one. -/
theorem Ok.start (hs : s.Ok main calls) (hsound : s.Sound main calls) (hcalls : calls < 2 ^ 32)
    (t : τ) : (s.start t).Sound main (calls + 1) ∧ (s.start t).Ok main (calls + 1) := by
  have hnext : s.started_ + 1 = BitVec.ofNat 32 (calls + 1) := by
    rw [hsound.started_eq, BitVec.ofNat_add]
    rfl
  have hsound' : (s.start t).Sound main (calls + 1) := by
    unfold Startup.start
    split <;> exact ⟨hsound.owner, hsound.fifo, hsound.agrees, hsound.threads, hsound.base_eq, hnext⟩
  refine ⟨hsound', ?_⟩
  cases hs with
  | before hzero hbefore =>
    have hstarted : s.started_ = 0 := by
      rw [hsound.started_eq, hzero]
      rfl
    exact .begun (Nat.succ_pos _) t _ _ (hbefore.start hstarted t)
  | begun hpos t' cb numThreads hphase =>
    have hstarted : s.started_ ≠ 0 := by
      rw [hsound.started_eq]
      intro hzero
      have htoNat := congrArg BitVec.toNat hzero
      rw [BitVec.toNat_ofNat, Nat.mod_eq_of_lt hcalls] at htoNat
      exact Nat.ne_of_gt hpos htoNat
    have hstart : s.start t = { s with started_ := s.started_ + 1 } := if_neg hstarted
    rw [hstart]
    exact .begun (Nat.succ_pos _) t' cb numThreads
      (hphase.same ⟨rfl, ⟨rfl, rfl, rfl⟩, rfl, rfl, rfl, rfl, rfl, rfl⟩)

/-- What the pool starts with is set while no thread starts it. -/
theorem Ok.set (hs : s.Ok main calls) (hstarting : s.starting = 0) (numThreads : ℤ) (cb : Bool) :
    Ok { s with numThreads_ := numThreads, threadInitCallback_ := cb } main calls := by
  cases hs with
  | before hcalls hbefore =>
    exact .before hcalls ⟨hbefore.place_eq, hstarting, ⟨hbefore.brought.1, hbefore.brought.2⟩,
      ⟨hbefore.silent.1, hbefore.silent.2, hbefore.silent.3⟩, hbefore.log_eq⟩
  | begun hcalls t cb' numThreads' hphase =>
    refine .begun hcalls t cb' numThreads' ?_
    have hnot (hstarts : s.Starts cb' numThreads') : False :=
      Nat.zero_ne_one (hstarting.symm.trans hstarts.starting_eq)
    cases hphase with
    | testing i _ hstarts | waiting i _ hstarts | entered i _ hstarts | waited i _ hstarts
    | callback _ hstarts => exact absurd hstarts hnot
    | listening hplace h₀ hbrought hsilent hlog =>
      exact .listening hplace h₀ ⟨hbrought.1, hbrought.2⟩ ⟨hsilent.1, hsilent.2, hsilent.3⟩ hlog
    | queued hplace h₀ hbrought hsilent hlog =>
      exact .queued hplace h₀ ⟨hbrought.1, hbrought.2⟩ ⟨hsilent.1, hsilent.2, hsilent.3⟩ hlog
    | listened k hplace h₀ hbrought hlistens hcalled hlog =>
      exact .listened k hplace h₀ ⟨hbrought.1, hbrought.2⟩ hlistens hcalled hlog

/-- A step that a thread takes in `TcpServer::start`, of a server whose start has begun. -/
theorem Ok.map_phase (hs : s.Ok main calls) {u : τ} (hu : s.place u ≠ .outside) {P : Prop}
    (h : ∀ t cb numThreads, s.Phase main t cb numThreads → P ∧ s'.Phase main t cb numThreads) :
    P ∧ s'.Ok main calls := by
  cases hs with
  | before hcalls hbefore =>
    rw [hbefore.place_eq] at hu
    exact absurd rfl hu
  | begun hcalls t cb numThreads hphase =>
    obtain ⟨hP, hphase'⟩ := h t cb numThreads hphase
    exact ⟨hP, .begun hcalls t cb numThreads hphase'⟩

/-- A thread of the pool comes to the call of `callback_`. -/
theorem Ok.callback (hs : s.Ok main calls) {n : ℕ} (henabled : s.Enabled (.callback n)) :
    (s.callback n).Ok main calls := by
  obtain ⟨hfunc, hentered⟩ := henabled
  obtain ⟨e, he, hcallback⟩ := Option.map_eq_some_iff.1 hfunc
  have hdown : s.ups[n]? = some false := by
    rw [ups, List.getElem?_map, he, Option.map_some]
    simp [EventLoopThread.Up, hcallback]
  cases hs with
  | before hcalls hbefore => simp [hbefore.brought.ups_eq] at hdown
  | begun hpos t cb numThreads hphase =>
    exact .begun hpos t cb numThreads (hphase.enter hdown hentered)

/-- What a thread of the pool does by itself. -/
theorem Ok.thread (hs : s.Ok main calls) (hsound : s.Sound main calls) {n : ℕ}
    {a : EventLoopThread.Action φ τ} (ha : Own a) (hentered : s.entered n = true)
    (h : s.thread n a = .ok s') : s'.Sound main calls ∧ s'.Ok main calls := by
  obtain ⟨hsound', hsame | ⟨hdown, threads, hs', hups⟩⟩ := thread_ok hsound ha h
  · exact ⟨hsound', hs.same hsame⟩
  · refine ⟨hsound', ?_⟩
    cases hs with
    | before hcalls hbefore => simp [hbefore.brought.ups_eq] at hdown
    | begun hpos t cb numThreads hphase =>
      exact .begun hpos t cb numThreads (hphase.publish hdown hentered hs' hups)

/-- What the loop of the server does. -/
theorem Ok.base (hs : s.Ok main calls) (hsound : s.Sound main calls)
    {a : LoopThread.Action (Job φ) τ} {listens : Bool} (ha : s.Permits a)
    (h : s.base a listens = .ok s') : s'.Sound main calls ∧ s'.Ok main calls := by
  obtain ⟨hsound', hsame | ⟨hlistens, hups, hpool, hplace, hstarting, hlog⟩⟩ := base_ok hsound ha h
  · exact ⟨hsound', hs.same hsame⟩
  · refine ⟨hsound', ?_⟩
    cases hs with
    | before hcalls hbefore =>
      exact absurd (hlistens.symm.trans hbefore.silent.listens_eq) (Nat.succ_ne_zero _)
    | begun hpos t cb numThreads hphase =>
      exact .begun hpos t cb numThreads (hphase.listen hlistens hups hpool hplace hstarting hlog)

/-- A connection comes in only when the acceptor listens. -/
theorem Ok.newConnection (hs : s.Ok main calls) (hsound : s.Sound main calls)
    (hwatched : (s.poller.entry s.acceptChannel_.fd_).Mentions ()) (h : s.newConnection = .ok s') :
    s'.Sound main calls ∧ s'.Ok main calls := by
  cases hs with
  | before hcalls hbefore =>
    have hagrees : s.poller.entry s.acceptChannel_.fd_ = s.acceptChannel_.entry () := hsound.agrees
    rw [hagrees, Channel.entry, hbefore.silent.index_eq] at hwatched
    simp [Entry.Mentions] at hwatched
  | begun hpos t cb numThreads hphase =>
    obtain ⟨hsound', hphase'⟩ := hphase.newConnection hsound hwatched h
    exact ⟨hsound', .begun hpos t cb numThreads hphase'⟩

/-- **Every step keeps the invariant.** -/
theorem Ok.step (hs : s.Ok main calls) (hsound : s.Sound main calls) {a : Action φ τ}
    (hcalls : a.isStart → calls < 2 ^ 32) (h : s.step a = .ok s') :
    ∃ calls' ≤ calls + (if a.isStart then 1 else 0), s'.Sound main calls' ∧ s'.Ok main calls' := by
  have hkeep (hok : s'.Sound main calls ∧ s'.Ok main calls) :
      ∃ calls' ≤ calls + (if a.isStart then 1 else 0), s'.Sound main calls' ∧ s'.Ok main calls' :=
    ⟨calls, Nat.le_add_right _ _, hok⟩
  unfold Startup.step at h
  split at h
  next henabled =>
    cases a with
    | setThreadNum numThreads =>
      obtain rfl := Except.ok.inj h
      exact hkeep ⟨hsound.of_eq rfl rfl rfl rfl rfl rfl,
        hs.set henabled numThreads s.threadInitCallback_⟩
    | setThreadInitcallback cb =>
      obtain rfl := Except.ok.inj h
      exact hkeep ⟨hsound.of_eq rfl rfl rfl rfl rfl rfl,
        hs.set henabled s.numThreads_ cb⟩
    | start t =>
      obtain rfl := Except.ok.inj h
      exact ⟨calls + 1, Nat.le_refl _, hs.start hsound (hcalls rfl) t⟩
    | test t id =>
      refine hkeep ?_
      simp only [perform] at h
      split at h
      next i hplace =>
        refine hs.map_phase (u := t) (by simp [hplace]) fun t' cb numThreads hphase => ?_
        exact hphase.test hsound hplace h
      next =>
        obtain rfl := Except.ok.inj h
        exact ⟨hsound, hs⟩
    | startLoop t =>
      refine hkeep ?_
      simp only [perform] at h
      split at h
      next i n hplace =>
        refine hs.map_phase (u := t) (by simp [hplace]) fun t' cb numThreads hphase => ?_
        exact hphase.startLoop hsound hplace h
      next =>
        obtain rfl := Except.ok.inj h
        exact ⟨hsound, hs⟩
    | leaveCallback t =>
      obtain rfl := Except.ok.inj h
      refine hkeep (hs.map_phase (u := t) (by simp [henabled.1]) fun t' cb numThreads hphase => ?_)
      exact ⟨hsound.of_eq rfl rfl rfl rfl rfl rfl,
        hphase.leaveCallback henabled.1⟩
    | runInLoop t listens =>
      refine hkeep (hs.map_phase (u := t) (by simp [henabled.1]) fun t' cb numThreads hphase => ?_)
      exact hphase.runInLoop hsound henabled.1 h
    | callback n =>
      obtain rfl := Except.ok.inj h
      exact hkeep ⟨hsound.of_eq rfl rfl rfl rfl rfl rfl, hs.callback henabled⟩
    | thread n a => exact hkeep (hs.thread hsound henabled.1 henabled.2 h)
    | base a listens => exact hkeep (hs.base hsound henabled h)
    | newConnection =>
      obtain ⟨-, -, -, hwatched, -⟩ := henabled
      exact hkeep (hs.newConnection hsound hwatched h)
  next =>
    obtain rfl := Except.ok.inj h
    exact hkeep ⟨hsound, hs⟩

/-! ## Runs -/

end Startup

end Muduo
