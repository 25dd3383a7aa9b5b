import Mathlib.Data.List.TakeWhile
import Muduo.Machine

/-!
# Socket addresses

`InetAddress` prints an address in dotted decimals. A `std::string`, and what a `char *` points to, is
the list of its characters here; `printf` formats a number in decimal digits, which determine it.
-/

namespace Muduo

open Run

/-! ## Formatted output -/

/-- The character that ends a string of C. -/
def nul : Char := .ofNat 0

/-- What a `char *` to these characters is read as. -/
def cStr (text : List Char) : List Char := text.takeWhile (· ≠ nul)

/-- `%u`. -/
def formatUnsigned (n : ℕ) : List Char := Nat.toDigits 10 n

/-- `%d`. -/
def formatInt (z : ℤ) : List Char :=
  if z < 0 then '-' :: formatUnsigned z.natAbs else formatUnsigned z.natAbs

/-- What `snprintf` leaves in a buffer of `size` bytes. -/
def snprintf (size : ℕ) (text : List Char) : List Char := text.take (size - 1)

theorem cStr_of_clean {text : List Char} (h : nul ∉ text) : cStr text = text := by
  refine List.takeWhile_eq_self_iff.2 fun c hc => ?_
  rw [decide_eq_true_eq]
  rintro rfl
  exact h hc

theorem snprintf_of_fits {size : ℕ} {text : List Char} (h : text.length < size) :
    snprintf size text = text := List.take_of_length_le (by omega)

theorem formatUnsigned_inj {m n : ℕ} : formatUnsigned m = formatUnsigned n ↔ m = n := by
  refine ⟨fun h => ?_, congrArg _⟩
  calc
    m = Nat.ofDigitChars 10 (formatUnsigned m) 0 := Nat.ofDigitChars_ten_toDigits.symm
    _ = Nat.ofDigitChars 10 (formatUnsigned n) 0 := by rw [h]
    _ = n := Nat.ofDigitChars_ten_toDigits

theorem length_formatUnsigned_le {n k : ℕ} (hk : 0 < k) (h : n < 10 ^ k) :
    (formatUnsigned n).length ≤ k := (Nat.length_toDigits_le_iff (by decide) hk).2 h

theorem isDigit_of_mem_formatUnsigned {n : ℕ} {c : Char} (h : c ∈ formatUnsigned n) :
    c.isDigit = true := Nat.isDigit_of_mem_toDigits (by decide) (by decide) h

theorem formatInt_natCast (n : ℕ) : formatInt n = formatUnsigned n := by
  rw [formatInt, if_neg (by omega), Int.natAbs_natCast]

/-! ## Addresses -/

/-- `ntohs`, on a machine that stores the low byte first. -/
def ntohs (n : UInt16) : UInt16 := n <<< 8 ||| n >>> 8

/-- The fields of `sockaddr_in` that are printed: the bytes of `s_addr` as they lie in memory, and
`sin_port` as the machine reads it. `sin_family` and `sin_zero`, which none of the functions reads,
are left out. -/
structure InetAddress where
  s_addr : UInt8 × UInt8 × UInt8 × UInt8
  sin_port : UInt16
  deriving DecidableEq

namespace InetAddress

/-- The four bytes in decimals, with dots between them. -/
def dotted (a : InetAddress) : List Char :=
  formatUnsigned a.s_addr.1.toNat ++ '.' :: formatUnsigned a.s_addr.2.1.toNat ++
    '.' :: formatUnsigned a.s_addr.2.2.1.toNat ++ '.' :: formatUnsigned a.s_addr.2.2.2.toNat

/-- What `inet_ntop` leaves in a buffer of `size` zeros; it writes nothing when the text does not
fit. -/
def inet_ntop (a : InetAddress) (size : ℕ) : List Char :=
  if a.dotted.length < size then a.dotted else []

/-- `toIpPort`. `sprintf` writes behind the address without regard to the end of `buf`. -/
def toIpPort (a : InetAddress) : Except Fault (List Char) :=
  let buf := a.inet_ntop 64
  let text := ':' :: formatUnsigned (ntohs a.sin_port).toNat
  if buf.length + text.length < 64 then .ok (buf ++ text) else .error .outOfBounds

theorem length_dotted_le (a : InetAddress) : a.dotted.length ≤ 15 := by
  have hbyte (b : UInt8) : (formatUnsigned b.toNat).length ≤ 3 :=
    length_formatUnsigned_le (by decide) (Nat.lt_trans b.toNat_lt (by decide))
  have h₁ := hbyte a.s_addr.1
  have h₂ := hbyte a.s_addr.2.1
  have h₃ := hbyte a.s_addr.2.2.1
  have h₄ := hbyte a.s_addr.2.2.2
  simp only [dotted, List.length_append, List.length_cons]
  omega

/-- An address prints in at most 21 characters, none of them zero. -/
theorem toIpPort_spec (a : InetAddress) :
    ∃ text, a.toIpPort = .ok text ∧ text.length ≤ 21 ∧ nul ∉ text := by
  have hdotted := a.length_dotted_le
  have hport : (formatUnsigned (ntohs a.sin_port).toNat).length ≤ 5 :=
    length_formatUnsigned_le (by decide) (Nat.lt_trans (ntohs a.sin_port).toNat_lt (by decide))
  have hdigits (n : ℕ) : nul ∉ formatUnsigned n := fun h =>
    absurd (isDigit_of_mem_formatUnsigned h) (by decide)
  have hbuf : a.inet_ntop 64 = a.dotted := if_pos (by omega)
  refine ⟨_, if_pos ?_, ?_, ?_⟩
  · rw [hbuf, List.length_cons]
    omega
  · rw [hbuf, List.length_append, List.length_cons]
    omega
  · have hdot : nul ≠ '.' ∧ nul ≠ ':' := by decide
    rw [hbuf]
    simp [dotted, hdigits, hdot]

example : toIpPort ⟨(127, 0, 0, 1), 16415⟩ = .ok "127.0.0.1:8000".toList := by decide

end InetAddress

end Muduo
