import QueryBody.Number.Reading
import QueryBody.Proofs.NumberText
import Mathlib.Tactic

/-!
# The parts of a literal

A literal that is written from its parts is split into the same parts.  The value of the
digits of a natural number is that number, and digits whose value fits into 64 bits are
gathered completely.
-/

namespace QueryBody
namespace Literal

/-! ### Writing parts -/

def fractionChars : Option (List Char) → List Char
  | none => []
  | some digits => '.' :: digits

def exponentChars : Option (Bool × List Char) → List Char
  | none => []
  | some (isNegative, digits) => 'e' :: (if isNegative then '-' else '+') :: digits

/-- The parts behind the sign, one after the other. -/
def unsigned (literal : Literal) : List Char :=
  literal.whole ++ (fractionChars literal.fraction ++ exponentChars literal.exponent)

def chars (literal : Literal) : List Char :=
  (if literal.isNegative then ['-'] else []) ++ literal.unsigned

/-- There are only digits before the point and after it. -/
structure HasDigits (literal : Literal) : Prop where
  whole : ∀ c ∈ literal.whole, c.isDigit = true
  fraction : ∀ digits, literal.fraction = some digits → ∀ c ∈ digits, c.isDigit = true

theorem splitExponent_exponentChars (exponent : Option (Bool × List Char)) :
    splitExponent (exponentChars exponent) = exponent := by
  obtain _ | ⟨isNegative, digits⟩ := exponent
  · rfl
  · cases isNegative <;> rfl

/-- Digits end where the exponent begins. -/
theorem takeWhile_append_exponentChars {digits : List Char}
    (hdigits : ∀ c ∈ digits, c.isDigit = true) (exponent : Option (Bool × List Char)) :
    (digits ++ exponentChars exponent).takeWhile Char.isDigit = digits := by
  rw [List.takeWhile_append_of_pos hdigits]
  obtain _ | ⟨isNegative, more⟩ := exponent
  · simp [exponentChars]
  · simp [exponentChars]

theorem dropWhile_append_exponentChars {digits : List Char}
    (hdigits : ∀ c ∈ digits, c.isDigit = true) (exponent : Option (Bool × List Char)) :
    (digits ++ exponentChars exponent).dropWhile Char.isDigit = exponentChars exponent := by
  rw [List.dropWhile_append_of_pos hdigits]
  obtain _ | ⟨isNegative, more⟩ := exponent
  · simp [exponentChars]
  · simp [exponentChars]

theorem splitUnsigned_parts (isNegative : Bool) {whole : List Char}
    (hwhole : ∀ c ∈ whole, c.isDigit = true) {fraction : Option (List Char)}
    (hfraction : ∀ digits, fraction = some digits → ∀ c ∈ digits, c.isDigit = true)
    (exponent : Option (Bool × List Char)) :
    splitUnsigned isNegative (whole ++ (fractionChars fraction ++ exponentChars exponent)) =
      ⟨isNegative, whole, fraction, exponent⟩ := by
  cases fraction with
  | none =>
      simp only [splitUnsigned, fractionChars, List.nil_append,
        dropWhile_append_exponentChars hwhole, takeWhile_append_exponentChars hwhole]
      have hexponent := splitExponent_exponentChars exponent
      obtain _ | ⟨isNegative, more⟩ := exponent
      · rfl
      · exact congrArg (Literal.mk _ whole none) hexponent
  | some digits =>
      have hdigits := hfraction digits rfl
      have hdrop : (whole ++ ('.' :: digits ++ exponentChars exponent)).dropWhile Char.isDigit =
          '.' :: (digits ++ exponentChars exponent) := by
        rw [List.dropWhile_append_of_pos hwhole]
        rfl
      have htake : (whole ++ ('.' :: digits ++ exponentChars exponent)).takeWhile Char.isDigit =
          whole := by
        rw [List.takeWhile_append_of_pos hwhole]
        simp
      simp only [splitUnsigned, fractionChars, hdrop, htake,
        takeWhile_append_exponentChars hdigits, dropWhile_append_exponentChars hdigits,
        splitExponent_exponentChars]

theorem split_chars {literal : Literal} (hdigits : literal.HasDigits) :
    split literal.chars = literal := by
  obtain ⟨isNegative, whole, fraction, exponent⟩ := literal
  have hparts := fun isNegative =>
    splitUnsigned_parts isNegative hdigits.whole hdigits.fraction exponent
  cases isNegative with
  | true => exact hparts true
  | false =>
      -- without a sign, no part begins with one
      have hunsigned : ∀ rest,
          unsigned ⟨false, whole, fraction, exponent⟩ ≠ '-' :: rest := by
        intro rest heq
        simp only [unsigned] at heq
        obtain _ | ⟨first, others⟩ := whole
        · obtain _ | digits := fraction
          · obtain _ | ⟨isNegative, more⟩ := exponent
            · contradiction
            · simp [fractionChars, exponentChars] at heq
          · simp [fractionChars] at heq
        · have hfirst := hdigits.whole first List.mem_cons_self
          rw [List.cons_append, List.cons.injEq] at heq
          rw [heq.1] at hfirst
          contradiction
      rw [chars]
      simp only [Bool.false_eq_true, if_false, List.nil_append]
      unfold split
      split
      next rest heq => exact absurd heq (hunsigned rest)
      next => exact hparts false

/-! ### The value of digits -/

theorem digitsValue_eq_ofDigitChars (digits : List Char) :
    digitsValue digits = Nat.ofDigitChars 10 digits 0 := by
  rw [Nat.ofDigitChars_eq_foldl, digitsValue]
  simp only [digitValue, Nat.mul_comm]

theorem digitsValue_toDigits (n : Nat) : digitsValue (Nat.toDigits 10 n) = n := by
  rw [digitsValue_eq_ofDigitChars, Nat.ofDigitChars_ten_toDigits]

theorem split_integer (value : Int) :
    split (Number.integer value).chars =
      ⟨decide (value < 0), Nat.toDigits 10 value.natAbs, none, none⟩ := by
  let literal : Literal := ⟨decide (value < 0), Nat.toDigits 10 value.natAbs, none, none⟩
  have hchars : (Number.integer value).chars = literal.chars := by
    simp [Number.chars, chars, unsigned, literal, fractionChars, exponentChars]
  have hdigits : literal.HasDigits := ⟨isDigit_of_mem_toDigits, by simp [literal]⟩
  rw [hchars, split_chars hdigits]

end Literal

/-! ### Integers -/

namespace Number

/-- The integer fits into 64 bits, with or without a sign. -/
def Fits (value : Int) : Prop := -9223372036854775808 ≤ value ∧ value < 18446744073709551616

/-- An integer that fits is read from its text. -/
theorem read_integer {value : Int} (hfits : Fits value) :
    Numeral.read (integer value).chars = .finite (integer value) := by
  obtain ⟨hleast, hgreatest⟩ := hfits
  have hnumber : (Literal.split (integer value).chars).number? = some (integer value) := by
    rw [Literal.split_integer]
    simp only [Literal.number?, Literal.isWhole, Literal.digitsValue_toDigits, Option.isNone_none,
      Bool.true_and, UInt64.size]
    by_cases hnegative : value < 0
    · have habs : value.natAbs < 18446744073709551616 ∧ 0 < value.natAbs ∧
          value.natAbs ≤ 18446744073709551616 / 2 := by omega
      simp [hnegative, habs, abs_of_neg hnegative]
    · have habs : value.natAbs < 18446744073709551616 := by omega
      simp [hnegative, habs, abs_of_nonneg (not_lt.mp hnegative)]
  rw [Numeral.read, hnumber]

/-- What is read as an integer fits. -/
theorem fits_of_read {text : List Char} {value : Int}
    (hread : Numeral.read text = .finite (integer value)) : Fits value := by
  have hsize : UInt64.size = 18446744073709551616 := rfl
  unfold Numeral.read at hread
  split at hread
  next number hnumber =>
    cases hread
    unfold Literal.number? at hnumber
    dsimp only at hnumber
    split at hnumber
    next hwhole =>
      simp only [Literal.isWhole, Bool.and_eq_true, Bool.or_eq_true, decide_eq_true_eq,
        Bool.not_eq_true', hsize] at hwhole
      cases hnumber
      unfold Fits
      split
      next hnegative =>
        have hbound := hwhole.2.resolve_left (by simp [hnegative])
        omega
      next => omega
    next =>
      rw [Option.map_eq_some_iff] at hnumber
      obtain ⟨magnitude, _, hfloat⟩ := hnumber
      contradiction
  next => contradiction

end Number
end QueryBody
