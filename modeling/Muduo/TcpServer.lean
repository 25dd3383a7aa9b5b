import Mathlib.Data.List.Nodup
import Mathlib.Logic.Function.Basic
import Muduo.InetAddress

/-!
# The server

`TcpServer` gives every accepted connection a loop of its pool and a name, and keeps it in
`connections_` under this name. A `TcpConnectionPtr` is the place of its connection among all that
have been created; what the server has told a connection at its creation is kept with them. The
calls for which a connection is queued on its loop are modelled with the loops, in
`Muduo.TcpServer.Loops`.
-/

namespace Muduo

open Run

variable {ℓ : Type}

/-! ## The pool -/

/-- The loops among which connections are spread. -/
structure EventLoopThreadPool (ℓ : Type) where
  baseLoop_ : ℓ
  loops_ : List ℓ
  next_ : ℕ

namespace EventLoopThreadPool

/-- A pool before `start`. -/
def construct (baseLoop : ℓ) : EventLoopThreadPool ℓ := ⟨baseLoop, [], 0⟩

/-- `start`, where the threads bring up these loops. -/
def start (p : EventLoopThreadPool ℓ) (loops : List ℓ) : EventLoopThreadPool ℓ :=
  { p with loops_ := p.loops_ ++ loops }

/-- `getNextLoop`: the loops in turn, or `baseLoop_` when there are none. -/
def getNextLoop (p : EventLoopThreadPool ℓ) : Except Fault (ℓ × EventLoopThreadPool ℓ) :=
  if p.loops_.isEmpty then .ok (p.baseLoop_, p)
  else
    match p.loops_[p.next_]? with
    | some loop => .ok (loop, { p with next_ := (p.next_ + 1) % p.loops_.length })
    | none => .error .outOfBounds

/-- `next_` is the place of a loop, when there is one. -/
def Sound (p : EventLoopThreadPool ℓ) : Prop := p.loops_ ≠ [] → p.next_ < p.loops_.length

theorem start_sound (baseLoop : ℓ) (loops : List ℓ) : ((construct baseLoop).start loops).Sound :=
  fun h => List.length_pos_iff.2 h

theorem Sound.getNextLoop {p : EventLoopThreadPool ℓ} (hp : p.Sound) :
    ∃ loop p', p.getNextLoop = .ok (loop, p') ∧ p'.Sound := by
  unfold EventLoopThreadPool.getNextLoop
  split
  next => exact ⟨_, _, rfl, hp⟩
  next hne =>
    rw [List.isEmpty_iff] at hne
    have hnext := hp hne
    rw [List.getElem?_eq_getElem hnext]
    exact ⟨_, _, rfl, fun _ => Nat.mod_lt _ (Nat.zero_lt_of_lt hnext)⟩

/-- The next loop is one of the pool, which keeps its loops. -/
theorem getNextLoop_ok {p p' : EventLoopThreadPool ℓ} {loop : ℓ}
    (h : p.getNextLoop = .ok (loop, p')) : (loop = p.baseLoop_ ∨ loop ∈ p.loops_) ∧
      p'.baseLoop_ = p.baseLoop_ ∧ p'.loops_ = p.loops_ := by
  unfold EventLoopThreadPool.getNextLoop at h
  split at h
  next =>
    obtain ⟨rfl, rfl⟩ := Prod.mk.inj (Except.ok.inj h)
    exact ⟨.inl rfl, rfl, rfl⟩
  next =>
    split at h
    next next hnext =>
      obtain ⟨rfl, rfl⟩ := Prod.mk.inj (Except.ok.inj h)
      exact ⟨.inr (List.mem_of_getElem? hnext), rfl, rfl⟩
    next => cases h

/-- The loop that call number `k` of `getNextLoop` returns. -/
def turn (p : EventLoopThreadPool ℓ) (k : ℕ) : ℓ :=
  (p.loops_[k % p.loops_.length]?).getD p.baseLoop_

/-- `getNextLoop` has been called `k` times since `start`. -/
def Called (p : EventLoopThreadPool ℓ) (k : ℕ) : Prop :=
  p.loops_ ≠ [] → p.next_ = k % p.loops_.length

/-- **Round robin**: the call number `k` returns the loop whose turn it is. -/
theorem Called.getNextLoop {p : EventLoopThreadPool ℓ} {k : ℕ} (hp : p.Called k) :
    ∃ p', p.getNextLoop = .ok (p.turn k, p') ∧ p'.Called (k + 1) ∧
      p'.loops_ = p.loops_ ∧ p'.baseLoop_ = p.baseLoop_ := by
  unfold EventLoopThreadPool.getNextLoop
  split
  next hempty =>
    have hnil : p.loops_ = [] := List.isEmpty_iff.1 hempty
    have hturn : p.turn k = p.baseLoop_ := by simp [turn, hnil]
    exact ⟨p, by rw [hturn], fun hne => absurd hnil hne, rfl, rfl⟩
  next hne =>
    rw [List.isEmpty_iff] at hne
    have hnext := hp hne
    have hlt : k % p.loops_.length < p.loops_.length :=
      Nat.mod_lt _ (List.length_pos_iff.2 hne)
    have hturn : p.turn k = p.loops_[k % p.loops_.length] := by
      rw [turn, List.getElem?_eq_getElem hlt, Option.getD_some]
    rw [hnext, List.getElem?_eq_getElem hlt, ← hturn]
    exact ⟨_, rfl, fun _ => Nat.mod_add_mod .., rfl, rfl⟩

end EventLoopThreadPool

/-! ## The server -/

/-- What the constructor of a `TcpConnection` is given. -/
structure Created (ℓ : Type) where
  loop_ : ℓ
  name_ : List Char
  sockfd : ℤ
  localAddr_ : InetAddress
  peerAddr_ : InetAddress

/-- A server with the connections created so far. -/
structure TcpServer (ℓ : Type) where
  loop_ : ℓ
  ipPort_ : List Char
  name_ : List Char
  threadPool_ : EventLoopThreadPool ℓ
  nextConnId_ : ℤ
  connections_ : List Char → Option ℕ
  created : List (Created ℓ)

namespace TcpServer

/-- The constructor. -/
def construct (loop : ℓ) (listenAddr : InetAddress) (nameArg : List Char) :
    Except Fault (TcpServer ℓ) := do
  return {
    loop_ := loop
    ipPort_ := ← listenAddr.toIpPort
    name_ := nameArg
    threadPool_ := .construct loop
    nextConnId_ := 1
    connections_ _ := none
    created := [] }

/-- `start`, as far as the pool goes. -/
def start (s : TcpServer ℓ) (loops : List ℓ) : TcpServer ℓ :=
  { s with threadPool_ := s.threadPool_.start loops }

/-- `++nextConnId_`. -/
def increment (n : ℤ) : Except Fault ℤ := if n < INT_MAX then .ok (n + 1) else .error .overflow

/-- The name that `newConnection` makes up. -/
def connName (s : TcpServer ℓ) : List Char :=
  s.name_ ++ cStr (snprintf 64 ('-' :: cStr s.ipPort_ ++ '#' :: formatInt s.nextConnId_))

/-- `newConnection`, up to the callbacks and to `conneectEstableished`. -/
def newConnection (s : TcpServer ℓ) (sockFd : ℤ) (localAddr peerAddr : InetAddress) :
    Except Fault (TcpServer ℓ) := do
  let (ioLoop, threadPool_) ← s.threadPool_.getNextLoop
  let nextConnId_ ← increment s.nextConnId_
  let conn := s.created.length
  return { s with
    threadPool_, nextConnId_
    connections_ := Function.update s.connections_ s.connName (some conn)
    created := s.created ++ [⟨ioLoop, s.connName, sockFd, localAddr, peerAddr⟩] }

theorem newConnection_ok {s t : TcpServer ℓ} {sockFd : ℤ} {localAddr peerAddr : InetAddress}
    (h : s.newConnection sockFd localAddr peerAddr = .ok t) :
    ∃ ioLoop pool, s.threadPool_.getNextLoop = .ok (ioLoop, pool) ∧ s.nextConnId_ < INT_MAX ∧
      t = { s with
        threadPool_ := pool
        nextConnId_ := s.nextConnId_ + 1
        connections_ := Function.update s.connections_ s.connName (some s.created.length)
        created := s.created ++ [⟨ioLoop, s.connName, sockFd, localAddr, peerAddr⟩] } := by
  obtain ⟨⟨ioLoop, pool⟩, hloop, h⟩ := bind_eq_ok.1 h
  obtain ⟨id, hid, h⟩ := bind_eq_ok.1 h
  unfold increment at hid
  split at hid
  next hlt =>
    obtain rfl := Except.ok.inj hid
    exact ⟨ioLoop, pool, hloop, hlt, (Except.ok.inj h).symm⟩
  next => cases hid

section

variable {s t : TcpServer ℓ} {sockFd : ℤ} {localAddr peerAddr : InetAddress} {j : ℕ} {d : Created ℓ}

/-- What has been created after `newConnection` is new, on a loop of the pool, or has been created
before. -/
theorem newConnection_created (h : s.newConnection sockFd localAddr peerAddr = .ok t)
    (hd : t.created[j]? = some d) :
    j = s.created.length ∧
        (d.loop_ = s.threadPool_.baseLoop_ ∨ d.loop_ ∈ s.threadPool_.loops_) ∨
      j ≠ s.created.length ∧ s.created[j]? = some d := by
  obtain ⟨ioLoop, pool, hpool, -, rfl⟩ := newConnection_ok h
  obtain ⟨hmem, -⟩ := EventLoopThreadPool.getNextLoop_ok hpool
  rcases Nat.lt_trichotomy j s.created.length with hj | rfl | hj
  · rw [List.getElem?_append_left hj] at hd
    exact .inr ⟨Nat.ne_of_lt hj, hd⟩
  · rw [List.getElem?_concat_length] at hd
    obtain rfl := Option.some.inj hd
    exact .inl ⟨rfl, hmem⟩
  · rw [List.getElem?_eq_none (by simp; omega)] at hd
    cases hd

/-- What has been created before stays. -/
theorem newConnection_keeps (h : s.newConnection sockFd localAddr peerAddr = .ok t)
    (hd : s.created[j]? = some d) : j ≠ s.created.length ∧ t.created[j]? = some d := by
  have hj := (List.getElem?_eq_some_iff.1 hd).1
  obtain ⟨ioLoop, pool, -, -, rfl⟩ := newConnection_ok h
  exact ⟨Nat.ne_of_lt hj, by rw [List.getElem?_append_left hj, hd]⟩

end

/-- `removeConnectionInLoop`, up to the functor that it queues. -/
def removeConnectionInLoop (s : TcpServer ℓ) (conn : ℕ) : TcpServer ℓ :=
  match s.created[conn]? with
  | some c => { s with connections_ := Function.update s.connections_ c.name_ none }
  | none => s

end TcpServer

end Muduo
