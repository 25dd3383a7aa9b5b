import Mathlib.Data.List.Basic
import Mathlib.Data.List.TakeWhile
import Mathlib.Tactic.Common

/-!
# Numbers as C writes them

A number of C is written in decimal digits, after a `0` in octal digits, and after `0x` in
hexadecimal digits. `strtoul` reads one off the front of a text, as far as the digits go, and leaves
the rest. A number that is printed in decimal digits is read back (`strtoul_toDigits`), whatever
comes behind it that is no letter or digit.
-/

namespace Muduo.Numeral

/-- The value of a digit; letters are the digits from ten on. -/
def digitVal (c : Char) : Option ℕ :=
  if c.isDigit then some (c.toNat - '0'.toNat)
  else if c.isLower ∧ c ≤ 'f' then some (c.toNat - 'a'.toNat + 10)
  else if c.isUpper ∧ c ≤ 'F' then some (c.toNat - 'A'.toNat + 10)
  else none

/-- A digit in the base. -/
def isDigitOf (base : ℕ) (c : Char) : Bool := (digitVal c).any (· < base)

/-- The number that the digits write. -/
def value (base : ℕ) (digits : List Char) : ℕ :=
  digits.foldl (fun n c => base * n + (digitVal c).getD 0) 0

/-- The number at the front of the text, and what is behind its digits. -/
def scan (base : ℕ) (text : List Char) : ℕ × List Char :=
  (value base (text.takeWhile (isDigitOf base)), text.dropWhile (isDigitOf base))

/-- `strtoul(text, &end, 0)` of a text that begins with a decimal digit: the number, which may exceed
an `unsigned long`, and the text from `end` on. -/
def strtoul (text : List Char) : ℕ × List Char :=
  match text with
  | '0' :: x :: c :: rest =>
    if (x = 'x' ∨ x = 'X') ∧ isDigitOf 16 c then scan 16 (c :: rest) else scan 8 text
  | '0' :: _ => scan 8 text
  | _ => scan 10 text

/-- The text goes on with no letter or digit. -/
def Stops (text : List Char) : Prop := ∀ c ∈ text.head?, c.isAlphanum = false

variable {base n : ℕ} {text rest : List Char}

theorem stops_nil : Stops [] := by simp [Stops]

theorem stops_cons {c : Char} (h : c.isAlphanum = false) : Stops (c :: rest) := by
  rintro d hd
  obtain rfl := Option.some.inj hd
  exact h

theorem isDigitOf_of_not_isAlphanum {c : Char} (h : c.isAlphanum = false) :
    isDigitOf base c = false := by
  obtain ⟨halpha, hdigit⟩ := Bool.or_eq_false_iff.1 h
  obtain ⟨hupper, hlower⟩ := Bool.or_eq_false_iff.1 halpha
  simp [isDigitOf, digitVal, hupper, hlower, hdigit]

theorem isDigitOf_ten {c : Char} (h : c.isDigit = true) : isDigitOf 10 c = true := by
  have hbounds : 48 ≤ c.toNat ∧ c.toNat ≤ 57 := by
    simpa [Char.isDigit, UInt32.le_iff_toNat_le] using h
  simp only [isDigitOf, digitVal, if_pos h, Option.any_some, decide_eq_true_eq]
  change c.toNat - 48 < 10
  omega

/-- The digits are followed by what is none. -/
theorem scan_append {digits : List Char} (hdigits : ∀ c ∈ digits, isDigitOf base c = true)
    (hrest : Stops rest) : scan base (digits ++ rest) = (value base digits, rest) := by
  have htake : rest.takeWhile (isDigitOf base) = [] ∧ rest.dropWhile (isDigitOf base) = rest := by
    cases rest with
    | nil => exact ⟨rfl, rfl⟩
    | cons c rest =>
      have hc : isDigitOf base c = false := isDigitOf_of_not_isAlphanum (hrest c rfl)
      simp [hc]
  rw [scan, List.takeWhile_append_of_pos hdigits, List.dropWhile_append_of_pos hdigits, htake.1,
    htake.2, List.append_nil]

/-- Decimal digits. -/
theorem value_eq_ofDigitChars {digits : List Char} (hdigits : ∀ c ∈ digits, c.isDigit = true) :
    value 10 digits = Nat.ofDigitChars 10 digits 0 := by
  rw [value, Nat.ofDigitChars_eq_foldl]
  refine List.foldl_ext _ _ _ fun n c hc => ?_
  rw [digitVal, if_pos (hdigits c hc), Option.getD_some]

/-- The first digit of a positive number is not zero. -/
theorem head_toDigits (hn : 0 < n) : ∃ c cs, Nat.toDigits 10 n = c :: cs ∧ c ≠ '0' := by
  induction n using Nat.strongRecOn with
  | ind n ih =>
    by_cases hlt : n < 10
    · refine ⟨n.digitChar, [], Nat.toDigits_of_lt_base hlt, ?_⟩
      rw [Ne, Nat.digitChar_eq_zero]
      omega
    · have hle : 10 ≤ n := by omega
      obtain ⟨c, cs, hcs, hc⟩ := ih (n / 10) (by omega) (by omega)
      refine ⟨c, cs ++ [(n % 10).digitChar], ?_, hc⟩
      rw [Nat.toDigits_of_base_le (by decide) hle, hcs, List.cons_append]

/-- **A printed number is read back.** -/
theorem strtoul_toDigits (n : ℕ) (hrest : Stops rest) :
    strtoul (Nat.toDigits 10 n ++ rest) = (n, rest) := by
  rcases Nat.eq_zero_or_pos n with rfl | hn
  · -- a zero, which is read as an octal number
    have hdigit : ∀ c ∈ ['0'], isDigitOf 8 c = true := by simp [isDigitOf, digitVal]
    have hzero : scan 8 ('0' :: rest) = (0, rest) := scan_append hdigit hrest
    rw [Nat.toDigits_zero]
    cases rest with
    | nil => exact hzero
    | cons x rest =>
      have hx : ¬(x = 'x' ∨ x = 'X') := by
        have hstop := hrest x rfl
        rintro (rfl | rfl) <;> exact absurd hstop (by decide)
      cases rest with
      | nil => exact hzero
      | cons c rest =>
        simp only [List.singleton_append, strtoul, hx, false_and, if_false]
        exact hzero
  · have hdigits : ∀ c ∈ Nat.toDigits 10 n, c.isDigit = true := fun c hc =>
      Nat.isDigit_of_mem_toDigits (by decide) (by decide) hc
    have hscan := scan_append (fun c hc => isDigitOf_ten (hdigits c hc)) hrest
    rw [value_eq_ofDigitChars hdigits, Nat.ofDigitChars_ten_toDigits] at hscan
    obtain ⟨c, cs, hcs, hc⟩ := head_toDigits hn
    rw [← hscan, hcs, List.cons_append]
    unfold strtoul
    split
    next heq => exact absurd (List.cons.inj heq).1 hc
    next heq => exact absurd (List.cons.inj heq).1 hc
    next => rfl

end Muduo.Numeral
