import Muduo.TcpConnection.State

/-!
# A send from another thread

On a thread other than the loop thread `send` queues `sendInLoop` bound to `buf.data()`, the address
of the caller's string, and returns. The loop reads the string when the functor runs, so that it
sends what lies at that address by then (`sendsCopy_iff`). A string that is destroyed leaves its
memory to others, which is one way to overwrite it.

The queue is first in, first out: `queue_run` says which functor runs when.
-/

namespace Muduo

open Memory Run

variable {ι τ : Type}

/-! ## What a send reads -/

namespace TcpConnection

theorem sysWrite_take {data : List UInt8} {n : ℕ} (hn : n ≤ data.length) (write : Write) :
    sysWrite (data.take n) 0 n write = sysWrite data 0 n write := by
  unfold sysWrite
  split
  next count hle _ =>
    have htake : slice (data.take n) 0 count = slice data 0 count := by
      simp [slice, List.take_take, Nat.min_eq_left hle]
    simp only [readBytes, List.length_take_of_le hn, Nat.zero_add, if_pos hle,
      if_pos (Nat.le_trans hle hn), htake]
  next => rfl

theorem append_take {data : List UInt8} {k r n : ℕ} (hr : k + r ≤ n) (hn : n ≤ data.length)
    (b : Buffer) : b.append ((data.take n).drop k) r = b.append (data.drop k) r := by
  have htake : slice ((data.take n).drop k) 0 r = slice (data.drop k) 0 r := by
    simp only [slice, List.drop_zero, List.drop_take, List.take_take]
    rw [Nat.min_eq_left (by omega)]
  have hread : readBytes ((data.take n).drop k) 0 r = readBytes (data.drop k) 0 r := by
    simp only [readBytes, htake, List.length_drop, List.length_take_of_le hn]
    rw [if_pos (by omega), if_pos (by omega)]
  unfold Buffer.append
  rw [hread]

/-- What `sendInLoop` writes directly and what it is about to save is not more than it is given. -/
theorem direct_le {w v : World ι} {data : List UInt8} {len : ℤ} {write : Write}
    {nwrote remaining : ℕ} {faultError : Bool}
    (h : (if !w.conn.channel_.isWriting ∧ w.conn.outputBuffer_.readableBytes = 0 then
        writeDirectly w data len write
      else .ok (w, 0, castSize len, false)) = .ok (v, nwrote, remaining, faultError)) :
    nwrote + remaining ≤ castSize len := by
  split at h
  · obtain ⟨wrote, hwrote, h⟩ := bind_eq_ok.1 h
    rcases sysWrite_ok hwrote with ⟨k, hle, -, hk, rfl⟩ | ⟨errno, -, rfl⟩
    · have hcount : (slice data 0 k).length = k := length_slice hk
      have h := Except.ok.inj h
      simp only [hcount, Prod.mk.injEq] at h
      obtain ⟨-, rfl, rfl, -⟩ := h
      rw [castSize_sub hle]
      omega
    · have h := Except.ok.inj h
      simp only [Prod.mk.injEq] at h
      obtain ⟨-, rfl, rfl, -⟩ := h
      omega
  · have h := Except.ok.inj h
    simp only [Prod.mk.injEq] at h
    obtain ⟨-, rfl, rfl, -⟩ := h
    omega

theorem saveRemaining_take {data : List UInt8} {k r n : ℕ} (hr : k + r ≤ n) (hn : n ≤ data.length)
    (w : World ι) : saveRemaining w (data.take n) k r = saveRemaining w data k r := by
  unfold saveRemaining
  simp only [append_take hr hn]

/-- `sendInLoop` reads the bytes that it is given, and no others. -/
theorem sendInLoop_prefix (w : World ι) {data : List UInt8} {len : ℤ}
    (hlen : castSize len ≤ data.length) (write : Write) :
    sendInLoop w (data.take (castSize len)) len write = sendInLoop w data len write := by
  have hdirect : writeDirectly w (data.take (castSize len)) len write =
      writeDirectly w data len write := by
    unfold writeDirectly
    rw [sysWrite_take hlen]
  unfold sendInLoop
  split
  next => rfl
  next =>
    rw [hdirect]
    refine bind_congr_ok fun r h => ?_
    obtain ⟨v, nwrote, remaining, faultError⟩ := r
    simp only []
    rw [saveRemaining_take (direct_le h) hlen]

/-- A send of `len` bytes depends on the bytes it reads. -/
theorem sendInLoop_congr (w : World ι) {data data' : List UInt8} {len : ℤ}
    (h : data.take (castSize len) = data'.take (castSize len)) (write : Write) :
    sendInLoop w data len write = sendInLoop w data' len write := by
  have hlength := congrArg List.length h
  rw [List.length_take, List.length_take] at hlength
  by_cases hlen : castSize len ≤ data.length
  · rw [← sendInLoop_prefix w hlen, h, sendInLoop_prefix w (by omega)]
  · rw [List.take_of_length_le (by omega), List.take_of_length_le (by omega)] at h
    rw [h]

end TcpConnection

namespace Threads

/-! ## First in, first out -/

/-- The functor that a step runs. -/
def ran (s : Threads ι τ) : Action τ → List (Functor ι)
  | .next write => if s.Enabled (.next write) then s.functors.take 1 else []
  | _ => []

variable {s t u : Threads ι τ}

/-- The queue of a connection that makes a step to the link `l`. -/
theorem queue_refined {w : World ι} {l : Link ι} (hrefines : s.world.Refines w l)
    (hgrows : s.world.link.Grows l) : ∃ news, (s.moved w).queue = s.queue ++ news := by
  obtain rfl := hrefines.link_eq
  obtain ⟨news, hqueue, -⟩ := queue_moved hgrows
  exact ⟨news, hqueue⟩

theorem queue_queueInLoop {task : Task} (h : s.queueInLoop task = .ok t) :
    t.queue = s.queue ++ [⟨s.world.self, task⟩] := by
  obtain ⟨w, hw, rfl⟩ := exec_ok h
  obtain rfl := Except.ok.inj hw
  exact (List.append_assoc ..).symm

theorem Begins.queue_sendInLoop (hs : s.Begins) {data : Text} {len : ℤ}
    (hlen : -2 ^ 31 ≤ len ∧ len < 2 ^ 31) {write : Write} {w : World ι}
    (h : TcpConnection.sendInLoop s.world data.1 len write = .ok w) :
    ∃ news, (s.moved w).queue = s.queue ++ news := by
  obtain ⟨l, hrefines, hl⟩ := TcpConnection.sendInLoop_cases hs.sound hlen h
  rcases hl with rfl | ⟨n, errno, rfl⟩ | rfl
  · exact queue_refined hrefines (.of_eq List.prefix_rfl rfl)
  · exact queue_refined hrefines (s.world.link.grows_emit _)
  · exact queue_refined hrefines (s.world.link.grows_send _ _)

theorem Begins.queue_conneectDestroyed (hs : s.Begins) (h : s.conneectDestroyed = .ok t) :
    ∃ news, t.queue = s.queue ++ news := by
  rcases conneectDestroyed_ok h with ⟨-, rfl⟩ | ⟨w, hw, rfl⟩
  · exact ⟨[], (List.append_nil _).symm⟩
  · exact queue_refined (TcpConnection.callChannel_ok hs.sound hw) (.of_eq List.prefix_rfl rfl)

/-- A functor that runs can only queue others. -/
theorem Begins.queue_call (hs : s.Begins) {write : Write} {task : Task}
    (htask : task.Queued ∨ task = .conneectEstableished) (h : s.call write task = .ok t) :
    ∃ news, t.queue = s.queue ++ news := by
  cases task with
  | sendInLoop data len =>
    have h : s.exec (fun w => TcpConnection.sendInLoop w (s.memory data).1 len write) = .ok t := h
    obtain ⟨w, hw, rfl⟩ := exec_ok h
    exact hs.queue_sendInLoop (htask.resolve_right Task.noConfusion) hw
  | shutdownInLoop =>
    obtain rfl := shutdownInLoop_ok h
    exact queue_refined (TcpConnection.shutdownInLoop_spec hs.sound) s.world.link.grows_shutdownInLoop
  | writeCompleteCallback | highWaterMarkCallback =>
    exact ⟨[], Except.ok.inj h ▸ (List.append_nil _).symm⟩
  | conneectEstableished =>
    have h : s.exec TcpConnection.conneectEstableished = .ok t := h
    obtain ⟨w, hw, rfl⟩ := exec_ok h
    obtain ⟨w', hw', hrefines⟩ := TcpConnection.conneectEstableished_spec hs.sound
    obtain rfl := Except.ok.inj (hw'.symm.trans hw)
    exact queue_refined hrefines (.of_eq (List.prefix_append _ _) rfl)
  | conneectDestroyed => exact hs.queue_conneectDestroyed h
  | removeConnectionInLoop => exact ⟨_, queue_queueInLoop h⟩

/-! ## The caller's string -/

/-- What is last stored at an address. -/
def lastText (data : Address) (actions : List (Action τ)) : Option Text :=
  (actions.filterMap fun
    | .overwrite address text => if address = data then some text else none
    | _ => none).getLast?

theorem lastText_append (data : Address) (actions rest : List (Action τ)) :
    lastText data (actions ++ rest) = (lastText data rest).or (lastText data actions) := by
  unfold lastText
  rw [List.filterMap_append, List.getLast?_append]

theorem lastText_overwrite (data : Address) (actions : List (Action τ)) (address : Address)
    (text : Text) : lastText data (actions ++ [.overwrite address text]) =
      if address = data then some text else lastText data actions := by
  unfold lastText
  rw [List.filterMap_append]
  by_cases h : address = data <;> simp [h]

theorem lastText_of_ne (data : Address) (actions : List (Action τ)) {a : Action τ}
    (ha : ∀ address text, a ≠ .overwrite address text) :
    lastText data (actions ++ [a]) = lastText data actions := by
  unfold lastText
  rw [List.filterMap_append]
  cases a with
  | overwrite address text => exact absurd rfl (ha address text)
  | _ => simp

/-- From `s` to `t` neither the memory nor the other threads have moved. -/
def Apart (s t : Threads ι τ) : Prop := t.memory = s.memory ∧ t.thread = s.thread

theorem exec_apart {f : World ι → Except Fault (World ι)} (h : s.exec f = .ok t) : s.Apart t := by
  obtain ⟨w, -, rfl⟩ := exec_ok h
  exact ⟨rfl, rfl⟩

theorem conneectDestroyed_apart (h : s.conneectDestroyed = .ok t) : s.Apart t := by
  rcases conneectDestroyed_ok h with ⟨-, rfl⟩ | ⟨w, -, rfl⟩ <;> exact ⟨rfl, rfl⟩

theorem call_apart {write : Write} {task : Task} (h : s.call write task = .ok t) : s.Apart t := by
  unfold Threads.call at h
  split at h
  · exact exec_apart h
  · obtain ⟨u, hu, h⟩ := bind_eq_ok.1 h
    obtain rfl := Except.ok.inj h
    have hapart := exec_apart hu
    exact hapart
  · exact Except.ok.inj h ▸ ⟨rfl, rfl⟩
  · exact Except.ok.inj h ▸ ⟨rfl, rfl⟩
  · exact exec_apart h
  · exact conneectDestroyed_apart h
  · exact exec_apart h

/-! ## Steps -/

variable [DecidableEq τ]

/-- **The queue**: a step takes what it runs from the front, and adds at the end. -/
theorem Begins.queue_step (hs : s.Begins) {a : Action τ} (h : s.step a = .ok t) :
    ∃ news, s.queue ++ news = s.ran a ++ t.queue := by
  have hadd : (∃ news, t.queue = s.queue ++ news) → s.ran a = [] →
      ∃ news, s.queue ++ news = s.ran a ++ t.queue := by
    rintro ⟨news, hnews⟩ hran
    exact ⟨news, by rw [hran, hnews, List.nil_append]⟩
  have hsame : t.queue = s.queue → s.ran a = [] → ∃ news, s.queue ++ news = s.ran a ++ t.queue :=
    fun hqueue => hadd ⟨[], by rw [hqueue, List.append_nil]⟩
  cases step_ok h with
  | stay a hnext =>
    refine hsame rfl ?_
    cases a with
    | next write =>
      rw [ran]
      split
      next henabled => rw [hnext write rfl henabled]; rfl
      next => rfl
    | _ => rfl
  | event e w hw =>
    exact hadd (queue_refined (TcpConnection.Op.exec_ok hs.sound hw) (e.grows s.world)) rfl
  | send data write w _ hw => exact hadd (hs.queue_sendInLoop (castInt_range _) hw) rfl
  | shutdown _ h =>
    rcases shutdown_ok h with ⟨-, rfl⟩ | ⟨-, rfl⟩
    · exact hadd (queue_refined (s := s.note (.shutdownCalled true))
        (TcpConnection.shutdown_spec hs.sound true) s.world.link.grows_shutdown) rfl
    · exact hsame rfl rfl
  | swap hfunctors => exact hsame (by simp [queue, hfunctors]) rfl
  | next f fs write _ henabled hfunctors h =>
    obtain ⟨hpop, htask, -⟩ := hs.pop hfunctors
    obtain ⟨news, hnews⟩ := hpop.queue_call htask h
    refine ⟨news, ?_⟩
    rw [hnews, ran, if_pos henabled, hfunctors, queue, queue, hfunctors]
    rfl
  | conneectDestroyed _ h => exact hadd (hs.queue_conneectDestroyed h) rfl
  | finishDestroyed _ _ h =>
    obtain ⟨w, rfl, hrefines⟩ := finishDestroyed_ok hs.sound h
    have hgrows : s.world.link.Grows (s.world.link.disconnect.call .remove) :=
      .of_eq (List.prefix_append _ _) rfl
    exact hadd (queue_refined (s := { s with destroying := false }) hrefines hgrows) rfl
  | queueDestroyed _ h => exact hadd ⟨_, queue_queueInLoop h⟩ rfl
  | queueSend i data buf u _ hu | queueShutdown i u _ hu =>
    have hqueue := queue_queueInLoop hu
    exact hadd ⟨_, hqueue⟩ rfl
  | callSend | callShutdown | callShutdownLate | storeShutdown | overwrite => exact hsame rfl rfl

/-- The same of a run: what it has run is the front of the queue. -/
theorem Begins.queue_run (hs : s.Begins) {actions : List (Action τ)}
    (h : run Threads.step s actions = .ok t) :
    t.Begins ∧ ∃ news, s.queue ++ news = collect Threads.step ran s actions ++ t.queue := by
  refine run_induction (motive := fun actions t => t.Begins ∧
    ∃ news, s.queue ++ news = collect Threads.step ran s actions ++ t.queue)
    ⟨hs, [], by simp [collect]⟩ ?_ h
  rintro actions a t u ht hu ⟨hbegins, news, hnews⟩
  obtain ⟨news', hnews'⟩ := hbegins.queue_step hu
  refine ⟨(hbegins.step hu).1, news ++ news', ?_⟩
  rw [collect_concat ht, ← List.append_assoc, hnews, List.append_assoc, hnews', List.append_assoc]

/-- What a step does to the memory and to the threads other than the loop thread. -/
inductive Seen (s : Threads ι τ) (a : Action τ) (t : Threads ι τ) : Prop
  | apart (h : s.Apart t)
  | calls (i : τ) (pc : Pc) (hmemory : t.memory = s.memory)
      (hthread : t.thread = Function.update s.thread i pc)
      (hi : a = .queueSend i ∨ ∀ data buf, s.thread i ≠ .sending data buf)
  | overwrites (data : Address) (text : Text) (ha : a = .overwrite data text)
      (hmemory : t.memory = Function.update s.memory data text) (hthread : t.thread = s.thread)

theorem step_seen {a : Action τ} (h : s.step a = .ok t) : s.Seen a t := by
  cases step_ok h with
  | stay | event | send | swap | callShutdownLate => exact .apart ⟨rfl, rfl⟩
  | shutdown _ h => rcases shutdown_ok h with ⟨-, rfl⟩ | ⟨-, rfl⟩ <;> exact .apart ⟨rfl, rfl⟩
  | next f fs write _ _ _ h =>
    have hapart := call_apart h
    exact .apart hapart
  | conneectDestroyed _ h => exact .apart (conneectDestroyed_apart h)
  | finishDestroyed _ _ h =>
    have hapart := exec_apart h
    exact .apart hapart
  | queueDestroyed _ h => exact .apart (exec_apart h)
  | callSend i data hidle => exact .calls i _ rfl rfl (.inr (by simp [hidle]))
  | queueSend i data buf u _ hu =>
    obtain ⟨hmemory, hthread⟩ := exec_apart hu
    have hthread := congrArg (fun f => Function.update f i Pc.idle) hthread
    exact .calls i .idle hmemory hthread (.inl rfl)
  | callShutdown i hidle => exact .calls i _ rfl rfl (.inr (by simp [hidle]))
  | storeShutdown i htested => exact .calls i _ rfl rfl (.inr (by simp [htested]))
  | queueShutdown i u hstored hu =>
    obtain ⟨hmemory, hthread⟩ := exec_apart hu
    have hthread := congrArg (fun f => Function.update f i Pc.idle) hthread
    exact .calls i .idle hmemory hthread (.inr (by simp [hstored]))
  | overwrite data text => exact .overwrites data text rfl rfl rfl

/-- The memory after a run. -/
theorem memory_run (data : Address) {actions : List (Action τ)}
    (h : run Threads.step s actions = .ok t) :
    t.memory data = (lastText data actions).getD (s.memory data) := by
  refine run_induction (motive := fun actions t =>
    t.memory data = (lastText data actions).getD (s.memory data)) rfl ?_ h
  intro actions a t u _ hu ih
  by_cases ha : ∃ address text, a = .overwrite address text
  · obtain ⟨address, text, rfl⟩ := ha
    obtain rfl := Except.ok.inj hu
    rw [lastText_overwrite]
    by_cases hdata : address = data
    · subst hdata
      simp
    · simp [hdata, Function.update_of_ne (Ne.symm hdata), ih]
  · have hne : ∀ address text, a ≠ .overwrite address text := fun address text h => ha ⟨_, _, h⟩
    rw [lastText_of_ne data actions hne, ← ih]
    cases step_seen hu with
    | apart hapart => rw [hapart.1]
    | calls i pc hmemory => rw [hmemory]
    | overwrites address text ha => exact absurd ha (hne address text)

/-- A thread stays inside `send` until it queues its functor. -/
theorem sending_run {i : τ} {data : Address} {buf : Text} (hi : s.thread i = .sending data buf)
    {actions : List (Action τ)} (hactions : .queueSend i ∉ actions)
    (h : run step s actions = .ok t) : t.thread i = .sending data buf := by
  refine run_induction (motive := fun actions t => .queueSend i ∉ actions →
    t.thread i = .sending data buf) (fun _ => hi) ?_ h hactions
  intro actions a t u _ hu ih hnot
  rw [List.mem_append, not_or, List.mem_singleton] at hnot
  have hsending := ih hnot.1
  cases step_seen hu with
  | apart hapart => rw [hapart.2, hsending]
  | calls j pc _ hthread hj =>
    have hne : i ≠ j := by
      rintro rfl
      exact hj.elim (fun h => hnot.2 h.symm) fun h => h data buf hsending
    rw [hthread, Function.update_of_ne hne, hsending]
  | overwrites _ _ _ _ hthread => rw [hthread, hsending]

/-! ## What the functor sends -/

/-- A `send` that has been called goes on to queue what it found at the address. -/
theorem callSend_ok {i : τ} {data : Address} (hidle : s.thread i = .idle)
    (h : s.step (.callSend i data) = .ok t) :
    t.memory = s.memory ∧ t.thread i = .sending data (s.memory data) := by
  have h : (if s.thread i = .idle then s.callSend i data else .ok s) = .ok t := h
  rw [if_pos hidle, callSend] at h
  split at h
  · obtain rfl := Except.ok.inj h
    exact ⟨rfl, Function.update_self ..⟩
  · cases h

theorem queueSend_ok {i : τ} {data : Address} {buf : Text} (hi : s.thread i = .sending data buf)
    (h : s.step (.queueSend i) = .ok t) : t.memory = s.memory ∧
      t.queue = s.queue ++ [⟨s.world.self, .sendInLoop data (castInt buf.1.length)⟩] := by
  have h : s.perform (.queueSend i) = .ok t := h
  simp only [perform, hi] at h
  obtain ⟨u, hu, h⟩ := bind_eq_ok.1 h
  obtain rfl := Except.ok.inj h
  have hqueue := queue_queueInLoop hu
  exact ⟨(exec_apart hu).1, hqueue⟩

/-- The functor that runs next is a `sendInLoop` that reads the bytes of `buf` at `data`, as many as
`static_cast<int>(buf.size())` says, and has the effect of a `sendInLoop` of a copy of `buf`. -/
def SendsCopy (t : Threads ι τ) (data : Address) (buf : Text) : Prop :=
  (t.memory data).1.take (castSize (castInt buf.1.length)) =
      buf.1.take (castSize (castInt buf.1.length)) ∧
    ∀ write, t.step (.next write) = { t with functors := t.functors.tail }.exec fun w =>
      TcpConnection.sendInLoop w buf.1 (castInt buf.1.length) write

/-- What is last stored at `data`, if anything is, begins like `buf`. -/
def Restored (data : Address) (buf : Text) (actions : List (Action τ)) : Prop :=
  ∀ text, lastText data actions = some text →
    text.1.take (castSize (castInt buf.1.length)) = buf.1.take (castSize (castInt buf.1.length))

/-- The number of functors that a run has run. -/
def turns (s : Threads ι τ) (actions : List (Action τ)) : ℕ := (collect step ran s actions).length

/-- **A send from another thread, exactly**: when the functor of a `send` has come to the front of
the queue, it sends a copy of the string that `send` was called with if and only if what has last
been stored at the address of the string since then, if anything has, begins like it. (On a
connection that is not connected `send` fails its assertion.) -/
theorem sendsCopy_iff {w : World ι} {memory : Address → Text} {before mid after : List (Action τ)}
    {i : τ} {data : Address} {v : Threads ι τ}
    (hw : w.Fresh) (hqueue : w.loop.pendingFunctors_ = [⟨w.self, .conneectEstableished⟩])
    (hs : run step (start w memory) before = .ok s)
    (hidle : s.thread i = .idle)
    (ht : run step s (.callSend i data :: mid) = .ok t) (hmid : .queueSend i ∉ mid)
    (hv : run step t (.queueSend i :: after) = .ok v)
    (hturn : t.turns (.queueSend i :: after) = t.queue.length)
    (henabled : v.destroying = false) (hfront : v.functors ≠ []) :
    v.SendsCopy data (s.memory data) ↔ Restored data (s.memory data) (mid ++ after) := by
  obtain ⟨t₀, hcall, hwait⟩ := run_cons_ok.1 ht
  obtain ⟨t₁, hsend, hafter⟩ := run_cons_ok.1 hv
  obtain ⟨hmemory₀, hsending₀⟩ := callSend_ok hidle hcall
  obtain ⟨hmemory₁, hqueue₁⟩ := queueSend_ok (sending_run hsending₀ hmid hwait) hsend
  -- what lies at the address now
  have hmemory : v.memory data = (lastText data (mid ++ after)).getD (s.memory data) := by
    rw [memory_run data hafter, hmemory₁, memory_run data hwait, hmemory₀, lastText_append]
    cases lastText data after <;> rfl
  have hrestored : (v.memory data).1.take (castSize (castInt (s.memory data).1.length)) =
      (s.memory data).1.take (castSize (castInt (s.memory data).1.length)) ↔
        Restored data (s.memory data) (mid ++ after) := by
    rw [hmemory, Restored]
    cases lastText data (mid ++ after) <;> simp
  -- the functor has come to the front
  have hbegins : t₁.Begins := invariant (fun _ _ _ hs ht => (hs.step ht).1)
    (start_begins hw hqueue memory) (run_append_ok.2 ⟨s, hs, run_append_ok.2 ⟨t, ht,
      run_cons_ok.2 ⟨t₁, hsend, run_nil t₁⟩⟩⟩)
  obtain ⟨-, news, hnews⟩ := hbegins.queue_run hafter
  have hlength : (collect Threads.step ran t₁ after).length = t.queue.length := by
    rw [← hturn, turns, collect, hsend]
    rfl
  have hlast : [(⟨t.world.self, .sendInLoop data (castInt (s.memory data).1.length)⟩ : Functor ι)] ++
      news = v.queue := by
    rw [hqueue₁, List.append_assoc] at hnews
    exact (List.append_inj hnews hlength.symm).2
  obtain ⟨f, fs, hfunctors⟩ := List.exists_cons_of_ne_nil hfront
  have hf : f.task = .sendInLoop data (castInt (s.memory data).1.length) := by
    rw [queue, hfunctors] at hlast
    rw [← (List.cons.inj hlast).1]
  have hnext (write : Write) : v.step (.next write) = ({ v with functors := fs }).exec fun w =>
      TcpConnection.sendInLoop w (v.memory data).1 (castInt (s.memory data).1.length) write := by
    have henabled : v.Enabled (.next write) := henabled
    rw [Threads.step, if_pos henabled, Threads.perform, hfunctors]
    simp only [hf, Threads.call]
  rw [SendsCopy, ← hrestored]
  refine and_iff_left_of_imp fun htake write => ?_
  rw [hnext, hfunctors, List.tail_cons]
  congr 1
  funext u
  exact TcpConnection.sendInLoop_congr u htake write

/-- A thread sends "A" on a new connection that has been established. -/
def sendLetter (after : List (Action Unit)) :
    Except Fault (Threads Unit Unit × Threads Unit Unit × Threads Unit Unit) := do
  let s ← run step (start newborn oneByte) [.swap, .next TcpConnection.takesAll]
  let t ← run step s [.callSend () 65]
  let v ← run step t (.queueSend () :: after)
  return (s, t, v)

theorem sendLetter_ok {after : List (Action Unit)} {r : Threads Unit Unit × Threads Unit Unit ×
    Threads Unit Unit} (h : sendLetter after = .ok r) :
    run step (start newborn oneByte) [.swap, .next TcpConnection.takesAll] = .ok r.1 ∧
      run step r.1 [.callSend () 65] = .ok r.2.1 ∧
      run step r.2.1 (.queueSend () :: after) = .ok r.2.2 := by
  obtain ⟨s, hs, h⟩ := bind_eq_ok.1 h
  obtain ⟨t, ht, h⟩ := bind_eq_ok.1 h
  obtain ⟨v, hv, h⟩ := bind_eq_ok.1 h
  obtain rfl := Except.ok.inj h
  exact ⟨hs, ht, hv⟩

/-- The caller leaves the string alone until the loop has taken the functor. -/
theorem sendsCopy_iff_kept : ∃ s t v : Threads Unit Unit,
    run step (start newborn oneByte) [.swap, .next TcpConnection.takesAll] = .ok s ∧
    run step s [.callSend () 65] = .ok t ∧ run step t [.queueSend (), .swap] = .ok v ∧
    (v.SendsCopy 65 (s.memory 65) ↔ Restored (τ := Unit) 65 (s.memory 65) ([] ++ [.swap])) := by
  have hrun : (sendLetter [.swap]).map (fun (s, t, v) => (decide (s.thread () = .idle),
      decide (t.turns [.queueSend (), .swap] = t.queue.length), v.destroying,
      decide (v.functors ≠ []))) = .ok (true, true, false, true) := by
    decide +kernel
  obtain ⟨⟨s, t, v⟩, hrun, hview⟩ := exists_of_map hrun
  obtain ⟨hs, ht, hv⟩ := sendLetter_ok hrun
  simp only [Prod.mk.injEq, decide_eq_true_eq] at hview
  obtain ⟨hidle, hturn, hdestroying, hfront⟩ := hview
  exact ⟨s, t, v, hs, ht, hv, sendsCopy_iff newborn_fresh rfl hs hidle ht (by simp) hv hturn
    hdestroying hfront⟩

/-- The caller stores another byte before the loop runs the functor. -/
theorem not_sendsCopy_overwritten : ¬∀ (w : World Unit) (memory : Address → Text)
    (before mid after : List (Action Unit)) (data : Address) (s t v : Threads Unit Unit), w.Fresh →
    w.loop.pendingFunctors_ = [⟨w.self, .conneectEstableished⟩] →
    run step (start w memory) before = .ok s → s.thread () = .idle →
    run step s (.callSend () data :: mid) = .ok t → .queueSend () ∉ mid →
    run step t (.queueSend () :: after) = .ok v →
    t.turns (.queueSend () :: after) = t.queue.length → v.destroying = false → v.functors ≠ [] →
    v.SendsCopy data (s.memory data) := by
  intro h
  have hrun : (sendLetter [.overwrite 65 (oneByte 66), .swap]).map (fun (s, t, v) =>
      (decide (s.thread () = .idle), decide (t.turns [.queueSend (), .overwrite 65 (oneByte 66),
        .swap] = t.queue.length), v.destroying, decide (v.functors ≠ []),
        decide ((s.memory 65).1 = [65] ∧ (v.memory 65).1 = [66]))) =
      .ok (true, true, false, true, true) := by
    decide +kernel
  obtain ⟨⟨s, t, v⟩, hrun, hview⟩ := exists_of_map hrun
  obtain ⟨hs, ht, hv⟩ := sendLetter_ok hrun
  simp only [Prod.mk.injEq, decide_eq_true_eq] at hview
  obtain ⟨hidle, hturn, hdestroying, hfront, hbuf, hread⟩ := hview
  have hcopy := (h _ _ _ [] _ 65 s t v newborn_fresh rfl hs hidle ht (by simp) hv hturn hdestroying
    hfront).1
  rw [hread, hbuf] at hcopy
  exact absurd hcopy (by decide +kernel)

end Threads

end Muduo
