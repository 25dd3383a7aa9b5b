import Mathlib.Algebra.Group.Int.Defs
import Mathlib.Algebra.Group.Nat.Defs
import Mathlib.Data.Int.Notation
import Muduo.Foundations.Memory
import Muduo.Foundations.Run

/-!
# The machine under the library

What the C++ code relies on outside its own classes: the ways a call can end the program, the
arithmetic of `size_t` and `int`, `std::vector<char>::resize`, `std::copy`, and what the kernel may
answer to `::write` and `::recv`.

A `size_t` is a natural number below `2 ^ 64`; `sizeWrap` and `sizeSub` are its sums and its
differences, modulo `2 ^ 64`. A kernel answer is given for every count the code may ask for
(`Write`, `Recv`), so that a run carries the answers and the code decides the counts.
-/

namespace Muduo

open Memory

/-- How a call ends the program instead of returning. -/
inductive Fault
  /-- A failed `assert`. -/
  | assertion
  /-- `std::length_error`, thrown by a container asked for more than its `max_size()`. -/
  | lengthError
  /-- `LOG_FATAL`, which calls `exit(-1)`. -/
  | fatal
  /-- An access outside an object: through a null pointer, or past the end of an array. -/
  | outOfBounds
  /-- A signed sum out of the range of its type. -/
  | overflow
  /-- `std::terminate`, which an exception out of a destructor calls. -/
  | terminate
  deriving DecidableEq

/-! ## Words -/

/-- A sum of `size_t` values. -/
def sizeWrap (n : ℕ) : ℕ := n % 2 ^ 64

/-- A difference of `size_t` values. -/
def sizeSub (a b : ℕ) : ℕ := (a + 2 ^ 64 - b) % 2 ^ 64

/-- The largest `int`. -/
def INT_MAX : ℕ := 2 ^ 31 - 1

/-- `static_cast<int>` of a `size_t`. -/
def castInt (n : ℕ) : ℤ :=
  if n % 2 ^ 32 < 2 ^ 31 then (n : ℤ) % 2 ^ 32 else (n : ℤ) % 2 ^ 32 - 2 ^ 32

/-- The conversion of an `int` or a `ssize_t` to `size_t`. -/
def castSize (z : ℤ) : ℕ := (z % 2 ^ 64).toNat

theorem sizeWrap_of_lt {n : ℕ} (h : n < 2 ^ 64) : sizeWrap n = n := Nat.mod_eq_of_lt h

theorem sizeSub_of_le {a b : ℕ} (h : b ≤ a) (ha : a < 2 ^ 64) : sizeSub a b = a - b := by
  unfold sizeSub
  omega

theorem castInt_of_le {n : ℕ} (h : n ≤ INT_MAX) : castInt n = n := by
  unfold INT_MAX at h
  unfold castInt
  split <;> omega

theorem castInt_le (n : ℕ) : castInt n ≤ n := by
  unfold castInt
  split <;> omega

theorem castInt_range (n : ℕ) : -2 ^ 31 ≤ castInt n ∧ castInt n < 2 ^ 31 := by
  unfold castInt
  split <;> omega

theorem castSize_natCast {n : ℕ} (h : n < 2 ^ 64) : castSize n = n := by
  unfold castSize
  omega

theorem castSize_sub {z : ℤ} {n : ℕ} (h : n ≤ castSize z) : castSize (z - n) = castSize z - n := by
  unfold castSize at h ⊢
  omega

/-! ## Memory -/

/-- `max_size()` of `std::vector<char>` and of `std::string`. -/
def maxSize : ℕ := 2 ^ 63 - 1

/-- `v.resize(n)`: new elements are zero; above `max_size()` it throws and `v` is unchanged. -/
def vectorResize (v : List UInt8) (n : ℕ) : Except Fault (List UInt8) :=
  if n ≤ maxSize then .ok (v.take n ++ List.replicate (n - v.length) 0) else .error .lengthError

/-- Read `n` bytes from index `i` of a block. -/
def readBytes (m : List UInt8) (i n : ℕ) : Except Fault (List UInt8) :=
  if i + n ≤ m.length then .ok (slice m i n) else .error .outOfBounds

/-- Store `bytes` from index `i` of a block on. -/
def storeBytes (m : List UInt8) (i : ℕ) (bytes : List UInt8) : Except Fault (List UInt8) :=
  if i + bytes.length ≤ m.length then .ok (overwrite m i bytes) else .error .outOfBounds

/-- `std::copy(m + first, m + last, m + dFirst)` inside one block. It copies in increasing order and
must not be called with `dFirst` inside the range `[first, last)`. -/
def stdCopy (m : List UInt8) (first last dFirst : ℕ) : Except Fault (List UInt8) :=
  if first ≤ last ∧ last ≤ m.length ∧ dFirst + (last - first) ≤ m.length ∧
      ¬(first ≤ dFirst ∧ dFirst < last) then
    .ok (copyForward m first dFirst (last - first))
  else .error .outOfBounds

/-- `std::string(m + i, n)`. -/
def makeString (m : List UInt8) (i n : ℕ) : Except Fault (List UInt8) :=
  if n ≤ maxSize then readBytes m i n else .error .lengthError

theorem readBytes_ok {m bytes : List UInt8} {i n : ℕ} :
    readBytes m i n = .ok bytes ↔ i + n ≤ m.length ∧ slice m i n = bytes := by
  unfold readBytes
  split <;> simp [*]

/-! ## The kernel -/

/-- An `errno` value. -/
abbrev Errno := ℕ

/-- `EWOULDBLOCK`, the same value as `EAGAIN`. -/
def EWOULDBLOCK : Errno := 11

/-- `EINVAL`. -/
def EINVAL : Errno := 22

/-- `EPIPE`. -/
def EPIPE : Errno := 32

/-- `ECONNRESET`. -/
def ECONNRESET : Errno := 104

/-- The answer to a `::write` of `n` bytes: a count of at most `n`, or `-1` and an `errno`. -/
inductive WriteResult (n : ℕ)
  | wrote (count : ℕ) (le : count ≤ n)
  | failed (errno : Errno)

/-- The number of bytes the kernel takes. -/
def WriteResult.count {n : ℕ} : WriteResult n → ℕ
  | .wrote count _ => count
  | .failed _ => 0

/-- What a `::write` did: the bytes handed to the kernel, whose number it returned, or `-1` and an
`errno`. -/
inductive Wrote
  | handed (bytes : List UInt8)
  | failed (errno : Errno)
  deriving DecidableEq

/-- The bytes handed to the kernel. -/
def Wrote.bytes : Wrote → List UInt8
  | .handed bytes => bytes
  | .failed _ => []

/-- The answer to a `::recv` into `n` bytes: the bytes received, `[]` at the end of the stream, or
`-1` and an `errno`. -/
inductive RecvResult (n : ℕ)
  | received (bytes : List UInt8) (le : bytes.length ≤ n)
  | failed (errno : Errno)

/-- What the kernel would answer to the next `::write`, for each count. -/
abbrev Write := ∀ n : ℕ, WriteResult n

/-- What the kernel would answer to the next `::recv`, for each count. -/
abbrev Recv := ∀ n : ℕ, RecvResult n

/-- `::write(fd, m + i, n)`. -/
def sysWrite (m : List UInt8) (i n : ℕ) (write : Write) : Except Fault Wrote :=
  match write n with
  | .wrote count _ => do return .handed (← readBytes m i count)
  | .failed errno => .ok (.failed errno)

/-- A `::write` that returns hands over a prefix of what it was given, or fails. -/
theorem sysWrite_ok {m : List UInt8} {i n : ℕ} {write : Write} {r : Wrote}
    (h : sysWrite m i n write = .ok r) :
    (∃ count le, write n = .wrote count le ∧ i + count ≤ m.length ∧ r = .handed (slice m i count)) ∨
      ∃ errno, write n = .failed errno ∧ r = .failed errno := by
  unfold sysWrite at h
  split at h
  next count le hw =>
    obtain ⟨bytes, hb, hr⟩ := Run.bind_eq_ok.1 h
    obtain ⟨hle, rfl⟩ := readBytes_ok.1 hb
    exact .inl ⟨count, le, hw, hle, (Except.ok.inj hr).symm⟩
  next errno hw => exact .inr ⟨errno, hw, (Except.ok.inj h).symm⟩

end Muduo
