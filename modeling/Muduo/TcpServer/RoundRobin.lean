import Mathlib.Data.Int.CardIntervalMod
import Muduo.TcpServer.Turn

/-!
# Round robin

`getNextLoop` takes the loops of the pool in turn, and only `newConnection` calls it. The connection
number `k` is served by the loop number `k % n`, whichever connections have closed meanwhile, so that
of `m` connections each loop has been given `m / n` or one more (`roundRobin`).
-/

namespace Muduo

open Run

variable {ℓ : Type}

/-- Of the first `m` numbers, those whose remainder is `i`. -/
theorem count_range_mod {i n : ℕ} (hi : i < n) (m : ℕ) :
    (List.range m).countP (fun k => k % n = i) = m / n + if i < m % n then 1 else 0 := by
  have hcount := Nat.count_modEq_card m (Nat.zero_lt_of_lt hi) i
  rw [Nat.mod_eq_of_lt hi] at hcount
  rw [← hcount, Nat.count]
  refine List.countP_congr fun k _ => ?_
  simp only [decide_eq_true_eq, Nat.ModEq, Nat.mod_eq_of_lt hi]

namespace Loops

/-- The connections have been dealt to the loops `loops`, or to `base` when there are none. -/
structure Dealt (s : TcpServer ℓ) (base : ℓ) (loops : List ℓ) : Prop where
  base_eq : s.threadPool_.baseLoop_ = base
  loops_eq : s.threadPool_.loops_ = loops
  called : s.threadPool_.Called s.created.length
  created : s.created.map Created.loop_ = (List.range s.created.length).map s.threadPool_.turn

variable {s t : TcpServer ℓ} {base : ℓ} {loops : List ℓ}

/-- A new connection gets the loop whose turn it is. -/
theorem Dealt.newConnection (hs : Dealt s base loops) {sockFd : ℤ} {localAddr peerAddr : InetAddress}
    (h : s.newConnection sockFd localAddr peerAddr = .ok t) : Dealt t base loops := by
  obtain ⟨ioLoop, pool, hpool, -, rfl⟩ := TcpServer.newConnection_ok h
  obtain ⟨pool', hpool', hcalled, hloops, hbase⟩ := hs.called.getNextLoop
  obtain ⟨rfl, rfl⟩ := Prod.mk.inj (Except.ok.inj (hpool'.symm.trans hpool))
  have hturn : pool'.turn = s.threadPool_.turn := by
    funext k
    rw [EventLoopThreadPool.turn, EventLoopThreadPool.turn, hloops, hbase]
  refine ⟨hbase.trans hs.base_eq, hloops.trans hs.loops_eq, ?_, ?_⟩
  · rw [List.length_append, List.length_singleton]
    exact hcalled
  · simp only [hturn, List.map_append, hs.created, List.length_append, List.length_singleton,
      List.range_succ, List.map_singleton]

theorem Dealt.same (hs : Dealt s base loops) (hcreated : t.created = s.created)
    (hpool : t.threadPool_ = s.threadPool_) : Dealt t base loops := by
  refine ⟨hpool ▸ hs.base_eq, hpool ▸ hs.loops_eq, ?_, ?_⟩
  · rw [hpool, hcreated]
    exact hs.called
  · rw [hpool, hcreated]
    exact hs.created

variable [DecidableEq ℓ]

theorem Dealt.step {s t : Loops ℓ} (hs : Dealt s.server base loops) {a : Action ℓ}
    (h : s.step a = .ok t) : Dealt t.server base loops := by
  cases cases_of_step h with
  | rest _ _ _ hcreated hpool => exact hs.same hcreated hpool
  | accept _ _ hserver => exact hs.newConnection hserver
  | dispatch _ _ _ hserver => exact hserver ▸ hs
  | turn _ _ _ _ _ hserver => exact hserver ▸ hs

/-- **Round robin**: over every run of a server with its loops, the connection number `k` is served
by the loop number `k % n` of the `n` loops of the pool, or by the loop of the server when there are
none; and when the loops are different, each has been given its exact share of the connections. -/
theorem roundRobin {loop : ℓ} {listenAddr : InetAddress} {nameArg : List Char}
    {server : TcpServer ℓ} {actions : List (Action ℓ)} {s : Loops ℓ}
    (hserver : TcpServer.construct loop listenAddr nameArg = .ok server)
    (h : run step (start (server.start loops)) actions = .ok s) :
    (∀ k c, s.server.created[k]? = some c → c.loop_ = (loops[k % loops.length]?).getD loop) ∧
    (loops.Nodup → ∀ i l, loops[i]? = some l → (s.server.created.countP fun c => c.loop_ = l) =
      s.server.created.length / loops.length +
        if i < s.server.created.length % loops.length then 1 else 0) := by
  have hdealt : Dealt s.server loop loops := by
    refine invariant (I := fun s : Loops ℓ => Dealt s.server loop loops)
      (fun s a t hs ht => hs.step ht) ?_ h
    obtain ⟨text, -, hconstruct⟩ := bind_eq_ok.1 hserver
    obtain rfl := Except.ok.inj hconstruct
    exact ⟨rfl, rfl, fun _ => (Nat.zero_mod _).symm, rfl⟩
  have hturn (k : ℕ) : s.server.threadPool_.turn k = (loops[k % loops.length]?).getD loop := by
    rw [EventLoopThreadPool.turn, hdealt.loops_eq, hdealt.base_eq]
  refine ⟨fun k c hc => ?_, fun hnodup i l hl => ?_⟩
  · have hmap := congrArg (·[k]?) hdealt.created
    simp only [List.getElem?_map, hc, Option.map_some] at hmap
    rw [List.getElem?_range (List.getElem?_eq_some_iff.1 hc).1, Option.map_some, hturn] at hmap
    exact Option.some.inj hmap
  · obtain ⟨hi, rfl⟩ := List.getElem?_eq_some_iff.1 hl
    have hcount : (s.server.created.countP fun c => c.loop_ = loops[i]) =
        (s.server.created.map Created.loop_).countP (· = loops[i]) := by
      rw [List.countP_map]
      rfl
    rw [hcount, hdealt.created, List.countP_map, ← count_range_mod hi]
    refine List.countP_congr fun k _ => ?_
    have hk := Nat.mod_lt k (Nat.zero_lt_of_lt hi)
    simp [hturn, hk, hnodup.getElem_inj_iff]

/-- Three connections, of which the first is closed and torn down before the others come. -/
def arrivals : List (Action ℕ) :=
  lifetime ++
    [.accept 8 ⟨(127, 0, 0, 1), 16415⟩ ⟨(10, 0, 0, 2), 2⟩ false, .proceed 0 answers,
      .accept 9 ⟨(127, 0, 0, 1), 16415⟩ ⟨(10, 0, 0, 2), 3⟩ false, .proceed 0 answers]

theorem roundRobin_arrivals : ∃ (server : TcpServer ℕ) (s : Loops ℕ),
    TcpServer.construct 0 ⟨(127, 0, 0, 1), 16415⟩ ['s'] = .ok server ∧
    run step (start (server.start [1, 2])) arrivals = .ok s ∧ s.server.created.length = 3 ∧
    (∀ k c, s.server.created[k]? = some c → c.loop_ = ([1, 2][k % 2]?).getD 0) ∧
    ([1, 2].Nodup → ∀ i l, [1, 2][i]? = some l →
      (s.server.created.countP fun c => c.loop_ = l) =
        s.server.created.length / 2 + if i < s.server.created.length % 2 then 1 else 0) := by
  have hrun : (TcpServer.construct 0 ⟨(127, 0, 0, 1), 16415⟩ ['s'] >>= fun server =>
      run step (start (server.start [1, 2])) arrivals).map (fun s => s.server.created.length) =
        .ok 3 := by
    decide +kernel
  obtain ⟨s, hs, hlength⟩ := exists_of_map hrun
  obtain ⟨server, hserver, hs⟩ := bind_eq_ok.1 hs
  obtain ⟨hserved, hshares⟩ := roundRobin hserver hs
  exact ⟨server, s, hserver, hs, hlength, hserved, hshares⟩

end Loops

end Muduo
