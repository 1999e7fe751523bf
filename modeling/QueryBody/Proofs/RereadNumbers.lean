import QueryBody.Proofs.DecimalText
import QueryBody.Proofs.Reread
import Mathlib.Tactic

/-!
# Numbers that are read from their texts

Integers, and literals out of range, are read from their texts as they are.  A float is written
with digits that lie nearer to it than to any other float, but they are read with a rounding of
the digits, of the power of ten and of the result; the float comes back where only the last one
rounds.
-/

namespace QueryBody

open Decimal (Binary)
open Decimal.Binary (mantissas)

namespace Literal

/-- The digits of the literal are those of a float, and so is the power of ten that scales
them. -/
def IsExact (literal : Literal) : Prop :=
  ∃ m t : Nat, m < 2 * mantissas ∧ literal.scaled.1 = m * 2 ^ t ∧ literal.scaled.2.natAbs ≤ 22

variable {literal : Literal} {decimal : Decimal} {b : Binary}

theorem value_lt_of_isExact (hsaid : decimal.SaidBy literal) (hexact : literal.IsExact) :
    decimal.value < 2 ^ (200 : Int) := by
  obtain ⟨m, t, -, -, hpower⟩ := hexact
  have hdigits : (literal.scaled.1 : ℚ) ≤ 18446744073709551616 := by
    exact_mod_cast hsaid.size.le
  rw [← hsaid.value]
  calc (literal.scaled.1 : ℚ) * 10 ^ literal.scaled.2
      ≤ 18446744073709551616 * 10 ^ (22 : Int) := by
        gcongr
        · norm_num
        · omega
    _ < 2 ^ (200 : Int) := by norm_num

theorem number?_of_covers (hsaid : decimal.SaidBy literal) (hexact : literal.IsExact)
    (hfloat : b.IsFloat) (hcovers : b.Covers decimal.value) :
    literal.number? = some (.float (Binary.float literal.isNegative hfloat)) := by
  obtain ⟨m, t, hlt, hdigits, hpower⟩ := hexact
  have hpos : 0 < m := by
    by_contra hzero
    have hvalue := hcovers.value_pos hfloat.pos
    rw [← hsaid.value, hdigits, show m = 0 by omega] at hvalue
    simp at hvalue
  have hexponent := hsaid.exponent
  have hmagnitude : literal.magnitude? = some (Binary.float false hfloat) := by
    rw [magnitude?_eq_scale (by simp only [exponentLimit]; omega)
      (by simp only [exponentLimit]; omega)]
    exact Binary.scale_eq hpos hlt hdigits hsaid.size hpower hfloat (hsaid.value ▸ hcovers)
  simp only [number?, hsaid.isWhole, hmagnitude]
  cases literal.isNegative with
  | true => simp [Binary.neg_float]
  | false => simp

end Literal

namespace Number

open Decimal.Binary Rounding

variable {value : Float}

theorem chars_float (value : Float) :
    chars (.float value) = (if isNegative value then ['-'] else []) ++ floatMagnitude value := by
  unfold chars isNegative
  by_cases hsign : value.toBits.toNat < UInt64.size / 2
  · simp [hsign]
  · simp [hsign]

theorem read_zero (hzero : (ofFloat value).m = 0) :
    Numeral.read (chars (.float value)) = .finite (.float value) ∧ (value == value) = true := by
  have hmagnitude : floatMagnitude value = ['0', '.', '0'] := by
    have hshortest : Decimal.shortest? ⟨0, -1074, false⟩ = some ⟨0, 0⟩ := by decide +kernel
    rw [floatMagnitude, ofFloat_eq_of_m_eq_zero hzero, hshortest]
    decide
  have hbits := toNat_toBits value
  rw [ofFloat_eq_of_m_eq_zero hzero] at hbits
  rw [chars_float, hmagnitude]
  cases hsign : isNegative value with
  | true =>
      have hvalue : value = Float.ofBits 0x8000000000000000 := by
        apply eq_of_toBits
        apply UInt64.toNat_inj.mp
        rw [hbits, hsign]
        decide +kernel
      rw [hvalue]
      decide +kernel
  | false =>
      have hvalue : value = Float.ofBits 0 := by
        apply eq_of_toBits
        apply UInt64.toNat_inj.mp
        rw [hbits, hsign]
        decide +kernel
      rw [hvalue]
      decide +kernel

theorem read_float (hexact : (Literal.split (chars (.float value))).IsExact) :
    Numeral.read (chars (.float value)) = .finite (.float value) ∧ (value == value) = true := by
  rcases Nat.eq_zero_or_pos (ofFloat value).m with hzero | hpos
  · exact read_zero hzero
  obtain ⟨decimal, hfound, hcovers, hdigits⟩ :=
    Decimal.exists_shortest? hpos (lt_of_ofFloat value) m_of_isLowest
  have hshort : decimal.IsShort := ⟨Decimal.digits_pos_of_covers hpos hcovers, hdigits⟩
  obtain ⟨literal, hsaid, hunsigned⟩ := Decimal.exists_saidBy hshort
  let signed : Literal := { literal with isNegative := isNegative value }
  have hsigned : decimal.SaidBy signed := hsaid.withSign _
  have hchars : chars (.float value) = signed.chars := by
    rw [chars_float, floatMagnitude, hfound]
    exact congrArg ((if isNegative value then ['-'] else []) ++ ·) hunsigned.symm
  rw [hchars, Literal.split_chars hsigned.hasDigits] at hexact
  have hfinite : (ofFloat value).q < 972 :=
    (hcovers.unit_lt hpos (Literal.value_lt_of_isExact hsigned hexact)).trans (by decide)
  have hfloat := isFloat_ofFloat value hpos hfinite
  have hnumber := Literal.number?_of_covers hsigned hexact hfloat hcovers
  have hsame : value = Binary.float (isNegative value) hfloat := eq_float hfloat
  constructor
  · rw [Numeral.read, hchars, Literal.split_chars hsigned.hasDigits, hnumber]
    exact congrArg (fun found => Numeral.finite (.float found)) hsame.symm
  · rw [hsame]
    exact beq_float _ hfloat

end Number

/-- The text of what is read from a number is a number, and reading it gives the same number with
the same text, unless that is a float whose text is not exact. -/
theorem read_text_of_read {text : List Char} (hshape : Shape.of text = .complete) :
    let number := Numeral.read text
    let again := Numeral.read number.text.toList
    Shape.of number.text.toList = .complete ∧
      ((∀ value, number = .finite (.float value) →
          (Literal.split number.text.toList).IsExact) →
        again.same number = true ∧ again.text = number.text) := by
  intro number again
  have hlegible := Scalar.isLegible_of_read hshape
  refine ⟨Scalar.shape_of_isLegible hlegible, fun hexact => ?_⟩
  have hagain : again = number ∧ number.same number = true := by
    change Numeral.read number.text.toList = number ∧ number.same number = true
    cases hnumber : number with
    | finite found =>
        rw [Numeral.text, Number.toList_text]
        cases found with
        | integer value =>
            have hread := Number.read_integer (Number.fits_of_read hnumber)
            exact ⟨hread, by simp [Numeral.same, Number.same]⟩
        | float value =>
            have htext := hexact value hnumber
            rw [hnumber, Numeral.text, Number.toList_text] at htext
            exact Number.read_float htext
    | outOfRange kept =>
        have hkept : (Scalar.number (.outOfRange kept)).IsLegible := hnumber ▸ hlegible
        exact ⟨hkept.2, by simp [Numeral.same]⟩
  rw [hagain.1]
  exact ⟨hagain.2, rfl⟩

theorem read_text_of_read_whole :
    let number := Numeral.read "-12.50e3".toList
    number.text = "-12500.0" ∧ (Numeral.read number.text.toList).same number = true ∧
      (Numeral.read number.text.toList).text = number.text := by
  intro number
  have hshape : Shape.of "-12.50e3".toList = .complete := by decide +kernel
  have htext : number.text = "-12500.0" := by decide +kernel
  have hscaled : (Literal.split number.text.toList).scaled = (125000, -1) := by decide +kernel
  have hexact : (Literal.split number.text.toList).IsExact := by
    refine ⟨125000, 0, by decide, ?_, ?_⟩
    · rw [hscaled]
      rfl
    · rw [hscaled]
      decide
  exact ⟨htext, (read_text_of_read hshape).2 fun _ _ => hexact⟩

/-- The power of ten that divides the digits is no float, and the quotient is rounded away from
the number; what is read the second time is another number. -/
theorem not_same_read_text_of_power :
    let number := Numeral.read "1e-24".toList
    let again := Numeral.read number.text.toList
    Shape.of "1e-24".toList = .complete ∧ number.text = "1.0000000000000001e-24" ∧
      again.same number = false ∧ again.text = "1e-24" := by
  decide +kernel

end QueryBody
