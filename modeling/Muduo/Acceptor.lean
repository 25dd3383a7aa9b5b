import Mathlib.Data.List.Forall2
import Muduo.Machine

/-!
# The acceptor

`Acceptor::handleRead` takes one connection from the listening socket with `Socket::accept` and
either hands it to `newConnectionCallback_` or closes it. `Socket::accept` gives the kernel a zeroed
`sockaddr_in` and a length that it has not initialised; the length is an argument of the functions
below. A `History` keeps the descriptors that were accepted, with their peers, and what was done
with descriptors, both in order.

`handoff_iff`: every accepted descriptor is handed over with the address of its peer, or closed, if
and only if none of them is the descriptor `0` and the uninitialised lengths never cut an address
that is handed over.
-/

namespace Muduo

open Memory Run

/-! ## Addresses in memory -/

/-- `sizeof(sockaddr_in)`. -/
def sizeofSockaddrIn : ℕ := 16

/-- `sockaddr_in`, as the bytes it takes in memory. -/
@[ext]
structure SockaddrIn where
  bytes : List UInt8
  length_eq : bytes.length = sizeofSockaddrIn
  deriving DecidableEq

namespace SockaddrIn

/-- An address after `bzero`. -/
def zero : SockaddrIn := ⟨List.replicate sizeofSockaddrIn 0, List.length_replicate⟩

/-- The address after the kernel has copied the first `min(len, sizeof(sockaddr_in))` bytes of
`peer` into it. -/
def receive (addr peer : SockaddrIn) (len : UInt32) : SockaddrIn where
  bytes := overwrite addr.bytes 0 (peer.bytes.take (min len.toNat sizeofSockaddrIn))
  length_eq := by
    rw [length_overwrite, addr.length_eq]
    rw [List.length_take, addr.length_eq]
    omega

/-- The bytes of the address behind the first `len` are zero. -/
def EndsWithin (peer : SockaddrIn) (len : UInt32) : Prop := ∀ b ∈ peer.bytes.drop len.toNat, b = 0

instance (peer : SockaddrIn) (len : UInt32) : Decidable (peer.EndsWithin len) :=
  inferInstanceAs (Decidable (∀ b ∈ peer.bytes.drop len.toNat, b = 0))

/-- A zeroed address becomes that of the peer exactly when the peer's ends within the length. -/
theorem receive_zero {peer : SockaddrIn} {len : UInt32} :
    zero.receive peer len = peer ↔ peer.EndsWithin len := by
  have hlen := peer.length_eq
  have htake : peer.bytes.take (min len.toNat sizeofSockaddrIn) = peer.bytes.take len.toNat := by
    rw [← hlen]
    exact List.take_eq_take_min.symm
  -- the copied bytes, and the zeros that are left behind them
  have hbytes : (zero.receive peer len).bytes = peer.bytes.take len.toNat ++
      List.replicate (peer.bytes.length - len.toNat) 0 := by
    simp only [receive, overwrite, zero, htake, List.take_zero, List.nil_append, Nat.zero_add,
      List.drop_replicate, List.length_take, hlen]
    congr 2
    omega
  rw [SockaddrIn.ext_iff, hbytes, EndsWithin]
  constructor
  · intro h b hb
    have hdrop := List.append_cancel_left (h.trans (List.take_append_drop len.toNat _).symm)
    rw [← hdrop] at hb
    exact List.eq_of_mem_replicate hb
  · intro h
    have hdrop : peer.bytes.drop len.toNat =
        List.replicate (peer.bytes.length - len.toNat) 0 :=
      List.eq_replicate_iff.2 ⟨List.length_drop, h⟩
    rw [← hdrop, List.take_append_drop]

end SockaddrIn

/-! ## Accepting -/

/-- The outcome of an `::accept`: a descriptor and the address of its peer, or `-1` and an
`errno`. -/
inductive AcceptResult
  | accepted (fd : ℕ) (peer : SockaddrIn)
  | failed (errno : Errno)

/-- `::accept(sockFd_, &addr, &len)`: what it returns, and `addr` after it. -/
def sysAccept (addr : SockaddrIn) (len : UInt32) : AcceptResult → ℤ × SockaddrIn
  | .accepted fd peer => (fd, addr.receive peer len)
  | .failed _ => (-1, addr)

/-- `Socket::accept(peerAddr)`: what it returns, and `*peerAddr` after it. `len` is what the
uninitialised `len` holds. -/
def Socket.accept (peerAddr : SockaddrIn) (len : UInt32) (result : AcceptResult) : ℤ × SockaddrIn :=
  let (connfd, addr) := sysAccept .zero len result
  if 0 ≤ connfd then (connfd, addr) else (connfd, peerAddr)

/-- What is done with a descriptor. -/
inductive Disposal
  | newConnectionCallback (connfd : ℤ) (peerAddr : SockaddrIn)
  | close (connfd : ℤ)
  deriving DecidableEq

/-- `Acceptor`, with what `handleRead` looks at: whether `newConnectionCallback_` is set. -/
structure Acceptor where
  newConnectionCallback_ : Bool

namespace Acceptor

/-- The constructor leaves the callback empty. -/
def construct : Acceptor := ⟨false⟩

/-- `setNewConnectionCallback`; what was set before is lost. -/
def setNewConnectionCallback (_a : Acceptor) (cb : Bool) : Acceptor := ⟨cb⟩

/-- The `InetAddress` that `handleRead` starts with: `AF_INET`, port 0 and 127.0.0.1. -/
def defaultAddr : SockaddrIn := ⟨[2, 0, 0, 0, 127, 0, 0, 1, 0, 0, 0, 0, 0, 0, 0, 0], rfl⟩

/-- `handleRead`: a descriptor above zero is handed to the callback, or closed when there is none. -/
def handleRead (a : Acceptor) (len : UInt32) (result : AcceptResult) : List Disposal :=
  let (connfd, peerAddr) := Socket.accept defaultAddr len result
  if 0 < connfd then
    if a.newConnectionCallback_ then [.newConnectionCallback connfd peerAddr] else [.close connfd]
  else []

/-- `Socket::accept` reports every descriptor, with the bytes that fitted into the zeroed address. -/
theorem accept_accepted (peerAddr : SockaddrIn) (len : UInt32) (fd : ℕ) (peer : SockaddrIn) :
    Socket.accept peerAddr len (.accepted fd peer) = (↑fd, SockaddrIn.zero.receive peer len) := by
  unfold Socket.accept sysAccept
  exact if_pos (Int.natCast_nonneg fd)

/-- A readiness event with an accepted descriptor: the descriptor `0` is passed over. -/
theorem handleRead_accepted (a : Acceptor) (len : UInt32) (fd : ℕ) (peer : SockaddrIn) :
    a.handleRead len (.accepted fd peer) =
      if 0 < fd then
        if a.newConnectionCallback_ then
          [.newConnectionCallback fd (SockaddrIn.zero.receive peer len)]
        else [.close fd]
      else [] := by
  simp only [handleRead, accept_accepted, Int.natCast_pos]

theorem handleRead_failed (a : Acceptor) (len : UInt32) (errno : Errno) :
    a.handleRead len (.failed errno) = [] := rfl

/-! ## Histories -/

/-- An acceptor with the descriptors its socket has accepted, with their peers, and what has been
done with descriptors. -/
structure History where
  acceptor : Acceptor
  accepted : List (ℕ × SockaddrIn)
  disposed : List Disposal

/-- What happens to an acceptor. -/
inductive Event
  | setNewConnectionCallback (cb : Bool)
  /-- The listening socket is ready. -/
  | handleRead (len : UInt32) (result : AcceptResult)

namespace History

/-- An acceptor that has accepted nothing. -/
def construct : History := ⟨.construct, [], []⟩

/-- An event, with the connection that it accepts and the disposal of its descriptor. -/
def step (h : History) : Event → Except Fault History
  | .setNewConnectionCallback cb => .ok { h with acceptor := h.acceptor.setNewConnectionCallback cb }
  | .handleRead len result => .ok
    { h with
      accepted := h.accepted ++ match result with
        | .accepted fd peer => [(fd, peer)]
        | .failed _ => []
      disposed := h.disposed ++ h.acceptor.handleRead len result }

/-- The disposal settles the accepted descriptor: it is handed over with the address of its peer, or
closed. -/
def Settles (a : ℕ × SockaddrIn) : Disposal → Prop
  | .newConnectionCallback connfd peerAddr => connfd = a.1 ∧ peerAddr = a.2
  | .close connfd => connfd = a.1

/-- Every accepted descriptor has been settled, once, and nothing else has been done. -/
def HandsOff (h : History) : Prop := List.Forall₂ Settles h.accepted h.disposed

/-- The event does not accept the descriptor `0`, and an address it hands over ends within the
uninitialised length. -/
def Handled (h : History) : Event → Prop
  | .handleRead len (.accepted fd peer) =>
    0 < fd ∧ (h.acceptor.newConnectionCallback_ = true → peer.EndsWithin len)
  | _ => True

theorem forall₂_concat {α β : Type} {R : α → β → Prop} {as : List α} {bs : List β} {a : α} {b : β} :
    List.Forall₂ R (as ++ [a]) (bs ++ [b]) ↔ List.Forall₂ R as bs ∧ R a b := by
  rw [← List.forall₂_reverse_iff, List.reverse_append, List.reverse_append]
  simp only [List.reverse_singleton, List.singleton_append, List.forall₂_cons,
    List.forall₂_reverse_iff]
  exact and_comm

/-- One event keeps the account of what is settled. -/
theorem handsOff_step {h h' : History} {e : Event} (hlen : h.disposed.length ≤ h.accepted.length)
    (hstep : h.step e = .ok h') :
    h'.disposed.length ≤ h'.accepted.length ∧ (h'.HandsOff ↔ h.HandsOff ∧ h.Handled e) := by
  cases e with
  | setNewConnectionCallback cb =>
    obtain rfl := Except.ok.inj hstep
    exact ⟨hlen, (and_iff_left trivial).symm⟩
  | handleRead len result =>
    obtain rfl := Except.ok.inj hstep
    cases result with
    | failed errno =>
      simp only [handleRead_failed, List.append_nil]
      exact ⟨hlen, (and_iff_left trivial).symm⟩
    | accepted fd peer =>
      simp only [handleRead_accepted, HandsOff, Handled]
      by_cases hfd : 0 < fd
      · rw [if_pos hfd]
        by_cases hcb : h.acceptor.newConnectionCallback_
        · rw [if_pos hcb]
          refine ⟨by simpa using hlen, ?_⟩
          rw [forall₂_concat, Settles, SockaddrIn.receive_zero]
          simp only [hfd, hcb, true_and, forall_const]
        · rw [if_neg hcb]
          refine ⟨by simpa using hlen, ?_⟩
          rw [forall₂_concat, Settles]
          simp only [hfd, hcb, false_implies, and_true, Bool.false_eq_true]
      · -- nothing is done with the descriptor, so the account stays one short
        rw [if_neg hfd, List.append_nil]
        refine ⟨by simp; omega, ?_⟩
        constructor
        · intro hall
          have hlength := hall.length_eq
          rw [List.length_append, List.length_singleton] at hlength
          omega
        · rintro ⟨-, hpos, -⟩
          exact absurd hpos hfd

theorem step_ok (h : History) (e : Event) : ∃ h', h.step e = .ok h' := by
  cases e with
  | setNewConnectionCallback cb => exact ⟨_, rfl⟩
  | handleRead len result => exact ⟨_, rfl⟩

/-- **The acceptor hands off what it accepts.** Over every history, every accepted descriptor is
passed once to `newConnectionCallback_` with the address of its peer, or closed, and nothing else is
passed on or closed, if and only if no accepted descriptor is `0` and every address that is passed
on ends within the length that `Socket::accept` has left uninitialised. -/
theorem handoff_iff (events : List Event) :
    ∃ h, run step construct events = .ok h ∧ (h.HandsOff ↔ Along step Handled construct events) := by
  obtain ⟨h, hrun, -⟩ : ∃ h, run step construct events = .ok h ∧ True :=
    progress (fun h e _ => (step_ok h e).imp fun _ hstep => ⟨hstep, trivial⟩) trivial events
  have hsettled : h.disposed.length ≤ h.accepted.length ∧
      (h.HandsOff ↔ Along step Handled construct events) := by
    refine run_induction (motive := fun events h => h.disposed.length ≤ h.accepted.length ∧
      (h.HandsOff ↔ Along step Handled construct events)) ?_ ?_ hrun
    · exact ⟨Nat.le_refl 0, iff_of_true .nil trivial⟩
    · rintro events e h h' hrun hstep ⟨hlen, hiff⟩
      obtain ⟨hlen', hiff'⟩ := handsOff_step hlen hstep
      refine ⟨hlen', ?_⟩
      rw [hiff', hiff, along_concat]
      simp only [hrun, Except.ok.injEq, forall_eq']
  exact ⟨h, hrun, hsettled.2⟩

/-- The first connection of a program that has closed its standard input: `::accept` returns `0`. -/
def noStdin : List Event := [.handleRead 16 (.accepted 0 defaultAddr)]

/-- The descriptor `0` is neither passed on nor closed. -/
theorem not_handsOff_zero :
    ¬∀ (events : List Event) (h : History), run step construct events = .ok h → h.HandsOff := by
  intro hall
  have hleak : HandsOff ⟨.construct, [(0, defaultAddr)], []⟩ := hall noStdin _ rfl
  cases hleak

end History

end Acceptor

end Muduo
