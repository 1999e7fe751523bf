import QueryBody.Proofs.LiteralParts
import QueryBody.Proofs.ShortestDecimal
import Mathlib.Tactic

/-!
# What the text of a decimal says

However a decimal is written, the parts of its text say its value: the digits on both sides of
the point make one number, and the point and the exponent say by which power of ten it is scaled.
-/

namespace QueryBody

namespace Literal

def exponentValue : Option (Bool × List Char) → Int
  | none => 0
  | some (isNegative, digits) =>
      if isNegative then -(digitsValue digits : Int) else digitsValue digits

/-- The digits as one number, and the power of ten that scales it. -/
def scaled (literal : Literal) : Nat × Int :=
  (literal.significand.1, literal.significand.2 + exponentValue literal.exponent)

/-! ### Gathering digits -/

theorem le_foldl (significand : Nat) (digits : List Char) :
    significand ≤ digits.foldl (fun n c => n * 10 + digitValue c) significand := by
  induction digits generalizing significand with
  | nil => exact le_refl _
  | cons c rest ih => exact le_trans (by omega) (ih (significand * 10 + digitValue c))

theorem gather_eq {significand : Nat} {digits : List Char}
    (hfits : digits.foldl (fun n c => n * 10 + digitValue c) significand < UInt64.size) :
    gather significand digits =
      (digits.foldl (fun n c => n * 10 + digitValue c) significand, []) := by
  induction digits generalizing significand with
  | nil => rfl
  | cons c rest ih =>
      have hnext := le_foldl (significand * 10 + digitValue c) rest
      rw [List.foldl_cons] at hfits ⊢
      rw [gather, if_pos (by omega), ih hfits]

theorem significand_eq {literal : Literal}
    (hfits : digitsValue (literal.whole ++ literal.fraction.getD []) < UInt64.size) :
    literal.significand = (digitsValue (literal.whole ++ literal.fraction.getD []),
      -((literal.fraction.getD []).length : Int)) := by
  unfold digitsValue at hfits ⊢
  rw [List.foldl_append] at hfits ⊢
  have hwhole := gather_eq ((le_foldl _ _).trans_lt hfits)
  simp only [significand, hwhole, gather_eq hfits, List.length_nil]
  simp

theorem digitsValue_zeros (count : Nat) (digits : List Char) :
    digitsValue (List.replicate count '0' ++ digits) = digitsValue digits := by
  have hzeros : (List.replicate count '0').foldl (fun n c => n * 10 + digitValue c) 0 = 0 := by
    induction count with
    | zero => rfl
    | succ count ih => exact ih
  rw [digitsValue, List.foldl_append, hzeros, digitsValue]

theorem digitsValue_append_zeros (digits : List Char) (count : Nat) :
    digitsValue (digits ++ List.replicate count '0') = digitsValue digits * 10 ^ count := by
  induction count with
  | zero => simp
  | succ count ih =>
      rw [List.replicate_succ', ← List.append_assoc, digitsValue, List.foldl_append]
      change digitsValue (digits ++ List.replicate count '0') * 10 + 0 = _
      rw [ih]
      ring

/-- A literal with an exponent that is taken at its value is read by scaling. -/
theorem magnitude?_eq_scale {literal : Literal}
    (hexponent : (exponentValue literal.exponent).natAbs ≤ exponentLimit)
    (hpower : literal.scaled.2.natAbs ≤ exponentLimit) :
    literal.magnitude? = scale literal.scaled.1 literal.scaled.2 := by
  have hsaturate : saturate literal.scaled.2 = literal.scaled.2 := by
    simp only [saturate]
    omega
  unfold scaled at hsaturate ⊢
  unfold magnitude?
  generalize literal.significand = parts at *
  generalize literal.exponent = exponent at *
  obtain ⟨significand, shift⟩ := parts
  obtain _ | ⟨isNegative, digits⟩ := exponent
  · simp [exponentValue]
  · cases isNegative with
    | true =>
        have hdigits : ¬exponentLimit < digitsValue digits := by
          simpa [exponentValue] using hexponent
        simp only [exponentValue, if_true] at hsaturate ⊢
        rw [if_neg hdigits, sub_eq_add_neg, hsaturate]
    | false =>
        have hdigits : ¬exponentLimit < digitsValue digits := by
          simpa [exponentValue] using hexponent
        simp only [exponentValue, Bool.false_eq_true, if_false] at hsaturate ⊢
        rw [if_neg hdigits, hsaturate]

end Literal

namespace Decimal

open Literal (fractionChars exponentChars exponentValue digitsValue)

/-- The parts of a literal say the decimal. -/
structure SaidBy (decimal : Decimal) (literal : Literal) : Prop where
  hasDigits : literal.HasDigits
  isWhole : literal.isWhole = false
  value : (literal.scaled.1 : ℚ) * 10 ^ literal.scaled.2 = decimal.value
  size : literal.scaled.1 < UInt64.size
  exponent : (exponentValue literal.exponent).natAbs ≤ literal.scaled.2.natAbs + 18

theorem SaidBy.withSign {decimal : Decimal} {literal : Literal} (hsaid : decimal.SaidBy literal)
    (isNegative : Bool) : decimal.SaidBy { literal with isNegative := isNegative } :=
  ⟨⟨hsaid.hasDigits.whole, hsaid.hasDigits.fraction⟩, hsaid.isWhole, hsaid.value, hsaid.size,
    hsaid.exponent⟩

/-- The decimal is not zero, and it has few digits. -/
def IsShort (decimal : Decimal) : Prop := 0 < decimal.digits ∧ decimal.digits ≤ 10 ^ 17 + 1

variable {decimal : Decimal}

theorem length_toDigits_of_isShort (hshort : decimal.IsShort) :
    (Nat.toDigits 10 decimal.digits).length ≤ 18 :=
  (Nat.length_toDigits_le_iff (by decide) (by decide)).mpr (hshort.2.trans_lt (by decide))

theorem fits_of_isShort (hshort : decimal.IsShort) : decimal.digits * 10 ^ 0 < UInt64.size := by
  have hdigits := hshort.2
  simp only [UInt64.size]
  omega

/-- The digits on both sides of the point are those of the decimal, and perhaps more zeros. -/
theorem saidBy_of_digits {literal : Literal} (hdigits : literal.HasDigits)
    (hwhole : literal.isWhole = false) {zeros : Nat}
    (hfits : decimal.digits * 10 ^ zeros < UInt64.size)
    (hvalue : digitsValue (literal.whole ++ literal.fraction.getD []) = decimal.digits * 10 ^ zeros)
    (hpower : exponentValue literal.exponent - (literal.fraction.getD []).length =
      decimal.exponent - zeros)
    (hlength : exponentValue literal.exponent = 0 ∨ (literal.fraction.getD []).length ≤ 18) :
    decimal.SaidBy literal := by
  have hscaled : literal.scaled = (decimal.digits * 10 ^ zeros, decimal.exponent - zeros) := by
    rw [Literal.scaled, Literal.significand_eq (hvalue ▸ hfits), hvalue, ← hpower]
    simp only [Prod.mk.injEq, true_and]
    omega
  refine ⟨hdigits, hwhole, ?_, ?_, ?_⟩
  · rw [hscaled, zpow_sub₀ (by norm_num), zpow_natCast, value]
    push_cast
    field_simp
  · rw [hscaled]
    exact hfits
  · rw [hscaled]
    dsimp only
    omega

theorem exponentText_eq (exponent : Int) :
    exponentText exponent =
      exponentChars (some (decide (exponent < 0), Nat.toDigits 10 exponent.natAbs)) := by
  simp [exponentText, exponentChars]

theorem saidBy_scientific (hshort : decimal.IsShort) :
    ∃ literal : Literal, decimal.SaidBy literal ∧ literal.unsigned =
      scientific (Nat.toDigits 10 decimal.digits)
        (decimal.exponent + (Nat.toDigits 10 decimal.digits).length - 1) := by
  have hlength := length_toDigits_of_isShort hshort
  have hvalue := Literal.digitsValue_toDigits decimal.digits
  have hdigits : ∀ c ∈ Nat.toDigits 10 decimal.digits, c.isDigit = true := isDigit_of_mem_toDigits
  obtain ⟨first, others, hcons, -, -⟩ := exists_toDigits_eq_cons hshort.1
  rw [hcons] at hlength hvalue hdigits ⊢
  generalize hexponent : decimal.exponent + (first :: others).length - 1 = exponent
  rw [List.length_cons] at hexponent hlength
  have hparts : exponentValue (some (decide (exponent < 0), Nat.toDigits 10 exponent.natAbs)) =
      exponent := by
    simp only [exponentValue, Literal.digitsValue_toDigits, decide_eq_true_iff]
    split <;> omega
  -- a single digit is written without a point
  obtain ⟨fraction, hothers, hsome, hchars⟩ : ∃ fraction : Option (List Char),
      fraction.getD [] = others ∧ (∀ digits, fraction = some digits → digits = others) ∧
        scientific (first :: others) exponent =
          first :: (fractionChars fraction ++ exponentText exponent) := by
    cases others with
    | nil => exact ⟨none, rfl, by simp, rfl⟩
    | cons second more => exact ⟨some _, rfl, by simp, rfl⟩
  refine ⟨⟨false, [first], fraction, some (decide (exponent < 0), Nat.toDigits 10 exponent.natAbs)⟩,
    saidBy_of_digits ⟨?_, ?_⟩ ?_ (fits_of_isShort hshort) ?_ ?_ ?_, ?_⟩
  · intro c hmem
    rw [List.mem_singleton.mp hmem]
    exact hdigits first List.mem_cons_self
  · rintro found hfound c hmem
    rw [hsome found hfound] at hmem
    exact hdigits c (List.mem_cons_of_mem first hmem)
  · simp [Literal.isWhole]
  · rw [hothers, pow_zero, mul_one]
    exact hvalue
  · rw [hothers, hparts]
    simp
    omega
  · rw [hothers]
    omega
  · rw [hchars, exponentText_eq]
    rfl

theorem saidBy_small (hshort : decimal.IsShort)
    (hnegative : decimal.exponent + (Nat.toDigits 10 decimal.digits).length - 1 < 0) :
    ∃ literal : Literal, decimal.SaidBy literal ∧ literal.unsigned =
      '0' :: '.' :: List.replicate ((decimal.exponent +
        (Nat.toDigits 10 decimal.digits).length - 1).natAbs - 1) '0' ++
          Nat.toDigits 10 decimal.digits := by
  have hvalue := Literal.digitsValue_toDigits decimal.digits
  generalize hexponent : decimal.exponent + (Nat.toDigits 10 decimal.digits).length - 1 =
    exponent at hnegative ⊢
  refine ⟨⟨false, ['0'], some (List.replicate (exponent.natAbs - 1) '0' ++
    Nat.toDigits 10 decimal.digits), none⟩,
    saidBy_of_digits ⟨?_, ?_⟩ ?_ (fits_of_isShort hshort) ?_ ?_ ?_, ?_⟩
  · intro c hmem
    rw [List.mem_singleton.mp hmem]
    rfl
  · rintro _ ⟨⟩ c hmem
    rcases List.mem_append.mp hmem with hzero | hdigit
    · rw [List.eq_of_mem_replicate hzero]
      rfl
    · exact isDigit_of_mem_toDigits c hdigit
  · simp [Literal.isWhole]
  · have hzeros := Literal.digitsValue_zeros (exponent.natAbs - 1 + 1)
      (Nat.toDigits 10 decimal.digits)
    rw [List.replicate_succ, hvalue] at hzeros
    rw [pow_zero, mul_one]
    exact hzeros
  · simp [exponentValue]
    omega
  · exact Or.inl rfl
  · simp [Literal.unsigned, fractionChars, exponentChars]

/-- Where the digits end before the point, zeros follow them, one of them behind the point. -/
theorem saidBy_padded (hshort : decimal.IsShort) {places : Nat}
    (hplaces : (places : Int) = decimal.exponent + (Nat.toDigits 10 decimal.digits).length)
    (hgreatest : places ≤ 16) (hlength : (Nat.toDigits 10 decimal.digits).length ≤ places) :
    ∃ literal : Literal, decimal.SaidBy literal ∧
      literal.unsigned = positional (Nat.toDigits 10 decimal.digits) places := by
  have hvalue := Literal.digitsValue_toDigits decimal.digits
  have hbound := (toDigits_bounds hshort.1).2
  have hdigits : ∀ c ∈ Nat.toDigits 10 decimal.digits, c.isDigit = true := isDigit_of_mem_toDigits
  generalize Nat.toDigits 10 decimal.digits = digits at *
  obtain ⟨zeros, hzeros⟩ := Nat.exists_eq_add_of_le hlength
  have hsize : decimal.digits * 10 ^ (zeros + 1) < UInt64.size := by
    calc decimal.digits * 10 ^ (zeros + 1) < 10 ^ digits.length * 10 ^ (zeros + 1) :=
          Nat.mul_lt_mul_of_pos_right hbound (by positivity)
      _ = 10 ^ (places + 1) := by rw [← Nat.pow_add, hzeros, Nat.add_assoc]
      _ ≤ 10 ^ 17 := Nat.pow_le_pow_right (by decide) (by omega)
      _ < UInt64.size := by decide
  refine ⟨⟨false, digits ++ List.replicate zeros '0', some ['0'], none⟩,
    saidBy_of_digits ⟨?_, ?_⟩ ?_ hsize ?_ ?_ ?_, ?_⟩
  · intro c hmem
    rcases List.mem_append.mp hmem with hdigit | hzero
    · exact hdigits c hdigit
    · rw [List.eq_of_mem_replicate hzero]
      rfl
  · rintro _ ⟨⟩ c hmem
    rw [List.mem_singleton.mp hmem]
    rfl
  · simp [Literal.isWhole]
  · have hall := Literal.digitsValue_append_zeros digits (zeros + 1)
    rw [List.replicate_succ', ← List.append_assoc, hvalue] at hall
    exact hall
  · simp [exponentValue]
    omega
  · exact Or.inl rfl
  · simp [Literal.unsigned, fractionChars, exponentChars, positional, hzeros]

theorem saidBy_pointed (hshort : decimal.IsShort) {places : Nat}
    (hplaces : (places : Int) = decimal.exponent + (Nat.toDigits 10 decimal.digits).length)
    (hlength : places < (Nat.toDigits 10 decimal.digits).length) :
    ∃ literal : Literal, decimal.SaidBy literal ∧
      literal.unsigned = positional (Nat.toDigits 10 decimal.digits) places := by
  have hvalue := Literal.digitsValue_toDigits decimal.digits
  have hdigits : ∀ c ∈ Nat.toDigits 10 decimal.digits, c.isDigit = true := isDigit_of_mem_toDigits
  generalize Nat.toDigits 10 decimal.digits = digits at *
  refine ⟨⟨false, digits.take places, some (digits.drop places), none⟩,
    saidBy_of_digits ⟨?_, ?_⟩ ?_ (fits_of_isShort hshort) ?_ ?_ ?_, ?_⟩
  · exact fun c hmem => hdigits c (List.mem_of_mem_take hmem)
  · rintro _ ⟨⟩ c hmem
    exact hdigits c (List.mem_of_mem_drop hmem)
  · simp [Literal.isWhole]
  · rw [Option.getD_some, List.take_append_drop, pow_zero, mul_one, hvalue]
  · simp [exponentValue]
    omega
  · exact Or.inl rfl
  · have hfraction : ¬digits.length ≤ places := by omega
    simp [Literal.unsigned, fractionChars, exponentChars, positional, hfraction,
      show places - digits.length = 0 by omega]

/-- The parts of the text of a decimal say the decimal. -/
theorem exists_saidBy (hshort : decimal.IsShort) :
    ∃ literal : Literal, decimal.SaidBy literal ∧ literal.unsigned = decimal.text := by
  unfold text
  dsimp only
  split
  · exact saidBy_scientific hshort
  next hbetween =>
    rw [not_or, not_lt, not_lt] at hbetween
    split
    next hnegative => exact saidBy_small hshort hnegative
    next hpositive =>
      have hgreatest : greatestPositional = 15 := rfl
      rw [not_lt] at hpositive
      generalize hplaces : (decimal.exponent + (Nat.toDigits 10 decimal.digits).length - 1).natAbs +
        1 = places
      rcases Nat.lt_or_ge places (Nat.toDigits 10 decimal.digits).length with hless | hmore
      · exact saidBy_pointed hshort (by omega) hless
      · exact saidBy_padded hshort (by omega) (by omega) hmore

end Decimal
end QueryBody
