import QueryBody.Proofs.Binary64
import Mathlib.Tactic

/-!
# Rounding to the nearest float

A product or a quotient of floats is rounded to the nearest float, a tie to the one with an
even mantissa.  So if it lies between the midpoints to the neighbours of a float, or on one of
them where the mantissa is even, it is that float.
-/

namespace QueryBody

open Float.Model (Format UnpackedFloat totalExponent)
open Float.Model.UnpackedFloat (Sign ExtendedMantissa Accuracy accuracyOfFraction
  shiftToTargetExponent roundWithAccuracy)

namespace Rounding

/-! ### Mantissas with a remainder -/

/-- The mantissa is the quotient, and the bits after it tell whether the remainder is nothing, less
than a half, a half or more. -/
structure Shows (num den : Nat) (em : ExtendedMantissa) : Prop where
  mantissa : em.mantissa = num / den
  roundBit : em.roundBit = true ↔ den ≤ 2 * (num % den)
  stickyBit : em.stickyBit = true ↔ num % den ≠ 0 ∧ 2 * (num % den) ≠ den

variable {num den : Nat} {em : ExtendedMantissa}

theorem shows_ofMantissaAndAccuracy (num : Nat) (hden : 0 < den) :
    Shows num den (.ofMantissaAndAccuracy (num / den) (accuracyOfFraction (num % den) den)) := by
  unfold accuracyOfFraction
  by_cases hexact : num % den = 0
  · rw [if_pos hexact]
    refine ⟨rfl, ?_, ?_⟩
    · simp [ExtendedMantissa.ofMantissaAndAccuracy, hexact]
      omega
    · simp [ExtendedMantissa.ofMantissaAndAccuracy, hexact]
  · rw [if_neg hexact]
    rcases lt_trichotomy (2 * (num % den)) den with hless | hhalf | hmore
    · rw [Nat.compare_eq_lt.mpr hless]
      refine ⟨rfl, ?_, ?_⟩
      · simp [ExtendedMantissa.ofMantissaAndAccuracy]
        omega
      · simp [ExtendedMantissa.ofMantissaAndAccuracy, hexact]
        omega
    · rw [Nat.compare_eq_eq.mpr hhalf]
      refine ⟨rfl, ?_, ?_⟩
      · simp [ExtendedMantissa.ofMantissaAndAccuracy]
        omega
      · simp [ExtendedMantissa.ofMantissaAndAccuracy, hexact]
        omega
    · rw [Nat.compare_eq_gt.mpr hmore]
      refine ⟨rfl, ?_, ?_⟩
      · simp [ExtendedMantissa.ofMantissaAndAccuracy]
        omega
      · simp [ExtendedMantissa.ofMantissaAndAccuracy, hexact]
        omega

/-- One bit less of the mantissa is a denominator twice as large. -/
theorem Shows.shiftRightOne (hshows : Shows num den em) (hden : 0 < den) :
    Shows num (den * 2) em.shiftRightOne := by
  have hrest : num % (den * 2) = num % den + den * (num / den % 2) := Nat.mod_mul
  have hless : num % den < den := Nat.mod_lt num hden
  have hbits : (em.roundBit || em.stickyBit) = true ↔ num % den ≠ 0 := by
    rw [Bool.or_eq_true, hshows.roundBit, hshows.stickyBit]
    omega
  refine ⟨?_, ?_, ?_⟩
  · rw [ExtendedMantissa.shiftRightOne, hshows.mantissa, Nat.div_div_eq_div_mul]
  · rw [hrest]
    simp only [ExtendedMantissa.shiftRightOne, hshows.mantissa]
    rcases Nat.mod_two_eq_zero_or_one (num / den) with heven | hodd
    · simp [heven]
      omega
    · simp [hodd]
      omega
  · rw [hrest]
    simp only [ExtendedMantissa.shiftRightOne, hbits]
    rcases Nat.mod_two_eq_zero_or_one (num / den) with heven | hodd
    · simp [heven]
      omega
    · simp [hodd]
      omega

theorem Shows.shiftRight (hshows : Shows num den em) (hden : 0 < den) (count : Nat) :
    Shows num (den * 2 ^ count) (em >>> count) := by
  induction count with
  | zero =>
      rw [pow_zero, mul_one]
      exact hshows
  | succ count ih =>
      have hnext := ih.shiftRightOne (by positivity)
      rw [mul_assoc, ← pow_succ] at hnext
      exact hnext

/-- The number is nearest to the quotient, and even where the quotient is a half away from it. -/
structure IsNearest (num den nearest : Nat) : Prop where
  low : 2 * nearest * den ≤ 2 * num + den
  high : 2 * num ≤ (2 * nearest + 1) * den
  odd : nearest % 2 = 1 → 2 * nearest * den < 2 * num + den ∧ 2 * num < (2 * nearest + 1) * den

theorem isNearest_of_div (hden : 0 < den) {nearest : Nat}
    (hlow : (nearest : ℚ) - 1 / 2 ≤ num / den) (hhigh : (num : ℚ) / den ≤ nearest + 1 / 2)
    (hodd : nearest % 2 = 1 → (nearest : ℚ) - 1 / 2 < num / den ∧
      (num : ℚ) / den < nearest + 1 / 2) : IsNearest num den nearest := by
  have hpos : (0 : ℚ) < den := by exact_mod_cast hden
  rw [le_div_iff₀ hpos] at hlow
  rw [div_le_iff₀ hpos] at hhigh
  rw [lt_div_iff₀ hpos, div_lt_iff₀ hpos] at hodd
  refine ⟨?_, ?_, ?_⟩
  · have hcast : (2 : ℚ) * nearest * den ≤ 2 * num + den := by linarith
    exact_mod_cast hcast
  · have hcast : (2 : ℚ) * num ≤ (2 * nearest + 1) * den := by linarith
    exact_mod_cast hcast
  · intro hparity
    obtain ⟨hless, hmore⟩ := hodd hparity
    have hcast : (2 : ℚ) * nearest * den < 2 * num + den ∧
        (2 : ℚ) * num < (2 * nearest + 1) * den := by
      constructor <;> linarith
    exact_mod_cast hcast

theorem IsNearest.eq_or_eq_add_one {nearest : Nat} (hnearest : IsNearest num den nearest)
    (hden : 0 < den) : nearest = num / den ∨ nearest = num / den + 1 := by
  have hsum : den * (num / den) + num % den = num := Nat.div_add_mod num den
  have hless : num % den < den := Nat.mod_lt num hden
  obtain ⟨hlow, hhigh, -⟩ := hnearest
  generalize num / den = quotient at *
  generalize num % den = rest at *
  subst hsum
  have hupper : 2 * nearest < 2 * quotient + 3 := by
    apply Nat.lt_of_mul_lt_mul_right (a := den)
    linarith
  have hlower : 2 * quotient < 2 * nearest + 2 := by
    apply Nat.lt_of_mul_lt_mul_right (a := den)
    linarith
  omega

theorem Shows.roundedMantissa_eq (hshows : Shows num den em) (hden : 0 < den) {nearest : Nat}
    (hnearest : IsNearest num den nearest) : em.roundedMantissa = nearest := by
  have hsum : den * (num / den) + num % den = num := Nat.div_add_mod num den
  have heither := hnearest.eq_or_eq_add_one hden
  obtain ⟨hlow, hhigh, hodd⟩ := hnearest
  obtain ⟨hmantissa, hround, hsticky⟩ := hshows
  obtain ⟨mantissa, round, sticky⟩ := em
  dsimp only at hmantissa hround hsticky
  generalize num / den = quotient at *
  generalize num % den = rest at *
  subst hsum hmantissa
  rcases heither with rfl | rfl
  · have hhalf : 2 * rest ≤ den := by linarith
    have heven : nearest % 2 = 1 → 2 * rest < den := by
      intro hparity
      linarith [(hodd hparity).2]
    cases round with
    | false => cases sticky <;> rfl
    | true =>
        have htie : den ≤ 2 * rest := hround.mp rfl
        cases sticky with
        | false =>
            change nearest + nearest % 2 = nearest
            omega
        | true =>
            have huneven := hsticky.mp rfl
            omega
  · have hhalf : den ≤ 2 * rest := by linarith
    have heven : mantissa % 2 = 0 → den < 2 * rest := by
      intro hparity
      have hless := (hodd (by omega)).1
      linarith
    obtain rfl : round = true := hround.mpr hhalf
    cases sticky with
    | false =>
        have htie : ¬(rest ≠ 0 ∧ 2 * rest ≠ den) :=
          fun huneven => by simpa using hsticky.mpr huneven
        change mantissa + mantissa % 2 = mantissa + 1
        omega
    | true => rfl

/-! ### Exponents -/

theorem targetExponent_eq (mantissa : Nat) (exponent : Int) :
    Format.binary64.targetExponent (totalExponent mantissa exponent) =
      max ((mantissa.log2 : Int) + exponent - 52) (-1074) := by
  change max ((mantissa.log2 : Int) + 1 + exponent - 53) (3 - 2 ^ 10 - 53) = _
  norm_num
  omega

/-- The value has 53 bits down to the exponent, or fewer if that is the least one. -/
structure HasBits (value : ℚ) (exponent : Int) : Prop where
  least : -1074 ≤ exponent
  lt : value < 2 ^ (exponent + 53)
  full : exponent = -1074 ∨ (2 : ℚ) ^ (exponent + 52) ≤ value

theorem two_zpow_pos (exponent : Int) : (0 : ℚ) < 2 ^ exponent := zpow_pos (by norm_num) exponent

theorem two_zpow_le_iff {first second : Int} : (2 : ℚ) ^ first ≤ 2 ^ second ↔ first ≤ second :=
  zpow_le_zpow_iff_right₀ (by norm_num)

theorem two_zpow_lt_iff {first second : Int} : (2 : ℚ) ^ first < 2 ^ second ↔ first < second :=
  zpow_lt_zpow_iff_right₀ (by norm_num)

theorem two_zpow_add (first second : Int) : (2 : ℚ) ^ (first + second) = 2 ^ first * 2 ^ second :=
  zpow_add₀ (by norm_num) first second

/-- A quotient with enough bits shows how many bits the value has. -/
theorem hasBits_of_quotient (hden : 0 < den) {exponent target : Int}
    (htarget : Format.binary64.targetExponent (totalExponent (num / den) exponent) = target)
    (hfine : exponent ≤ target) : HasBits ((num : ℚ) / den * 2 ^ exponent) target := by
  rw [targetExponent_eq] at htarget
  have hpos : (0 : ℚ) < den := by exact_mod_cast hden
  have hunit := two_zpow_pos exponent
  -- the quotient is the value in units of the exponent, rounded down
  have hbelow : ((num / den : Nat) : ℚ) * 2 ^ exponent ≤ (num : ℚ) / den * 2 ^ exponent := by
    gcongr
    exact Nat.cast_div_le
  have habove : (num : ℚ) / den * 2 ^ exponent < ((num / den : Nat) + 1) * 2 ^ exponent := by
    gcongr
    rw [div_lt_iff₀ hpos]
    exact_mod_cast Nat.lt_mul_of_div_lt (Nat.lt_succ_self (num / den)) hden
  generalize (num : ℚ) / den * 2 ^ exponent = value at *
  generalize num / den = quotient at *
  refine ⟨by omega, ?_, ?_⟩
  · have hlog : ((quotient + 1 : Nat) : ℚ) ≤ 2 ^ ((quotient.log2 : Int) + 1) := by
      exact_mod_cast Nat.lt_log2_self (n := quotient)
    calc value < (quotient + 1) * 2 ^ exponent := habove
      _ ≤ 2 ^ ((quotient.log2 : Int) + 1) * 2 ^ exponent := by
          gcongr
          exact_mod_cast hlog
      _ = 2 ^ ((quotient.log2 : Int) + 1 + exponent) := (two_zpow_add _ _).symm
      _ ≤ 2 ^ (target + 53) := two_zpow_le_iff.mpr (by omega)
  · by_cases hzero : quotient = 0
    · subst hzero
      rw [Nat.log2_zero] at htarget
      omega
    · have hlog : (2 : ℚ) ^ (quotient.log2 : Int) ≤ quotient := by
        exact_mod_cast Nat.log2_self_le hzero
      refine or_iff_not_imp_left.mpr fun hmore => ?_
      calc (2 : ℚ) ^ (target + 52) = 2 ^ (quotient.log2 : Int) * 2 ^ exponent := by
            rw [← two_zpow_add]
            congr 1
            omega
        _ ≤ quotient * 2 ^ exponent := by gcongr
        _ ≤ value := hbelow

end Rounding

/-! ### Between the midpoints -/

namespace Decimal.Binary

open Rounding

variable {b : Binary} {value : ℚ}

/-- The value lies between the midpoints to the neighbours of a binary value, or on one of them
where the mantissa is even. -/
structure Covers (b : Binary) (value : ℚ) : Prop where
  low : (b.below : ℚ) * 2 ^ b.q ≤ 4 * value
  high : 4 * value ≤ b.above * 2 ^ b.q
  odd : b.m % 2 = 1 → (b.below : ℚ) * 2 ^ b.q < 4 * value ∧ 4 * value < b.above * 2 ^ b.q

theorem cast_above (b : Binary) : (b.above : ℚ) = 4 * b.m + 2 := by
  rw [above]
  push_cast
  ring

theorem cast_below (hpos : 0 < b.m) :
    (b.below : ℚ) = if b.isLowest then 4 * (b.m : ℚ) - 1 else 4 * (b.m : ℚ) - 2 := by
  unfold below
  split
  · rw [Nat.cast_sub (by omega)]
    push_cast
    rfl
  · rw [Nat.cast_sub (by omega)]
    push_cast
    rfl

theorem le_cast_below (hpos : 0 < b.m) : 4 * (b.m : ℚ) - 2 ≤ b.below := by
  rw [cast_below hpos]
  split <;> linarith

theorem Covers.value_pos (hcovers : b.Covers value) (hpos : 0 < b.m) : 0 < value := by
  have hbelow := le_cast_below hpos
  have hone : (1 : ℚ) ≤ b.m := by exact_mod_cast hpos
  have hunit := two_zpow_pos b.q
  have hlow := hcovers.low
  nlinarith

theorem Covers.unit_lt (hcovers : b.Covers value) (hpos : 0 < b.m) {exponent : Int}
    (hless : value < 2 ^ exponent) : b.q < exponent + 1 := by
  have hbelow := le_cast_below hpos
  have hone : (1 : ℚ) ≤ b.m := by exact_mod_cast hpos
  have hunit := two_zpow_pos b.q
  have hlow := hcovers.low
  rw [← two_zpow_lt_iff, two_zpow_add]
  norm_num
  nlinarith

theorem Covers.lt (hcovers : b.Covers value) (hfloat : b.IsFloat) : value < 2 ^ (b.q + 53) := by
  have hm : (b.m : ℚ) + 1 ≤ 9007199254740992 := by exact_mod_cast hfloat.lt
  have hunit := two_zpow_pos b.q
  have hhigh := hcovers.high
  rw [cast_above] at hhigh
  rw [two_zpow_add]
  norm_num
  nlinarith

theorem Covers.full (hcovers : b.Covers value) (hmore : mantissas < b.m) :
    (2 : ℚ) ^ (b.q + 52) ≤ value := by
  have hm : (4503599627370497 : ℚ) ≤ b.m := by exact_mod_cast hmore
  have hbelow := le_cast_below (Nat.zero_lt_of_lt hmore)
  have hunit := two_zpow_pos b.q
  have hlow := hcovers.low
  rw [two_zpow_add]
  norm_num
  nlinarith

theorem Covers.half_full (hcovers : b.Covers value) (hnormal : mantissas ≤ b.m) :
    (2 : ℚ) ^ (b.q + 51) ≤ value := by
  have hm : (4503599627370496 : ℚ) ≤ b.m := by exact_mod_cast hnormal
  have hpos : 0 < b.m := (show 0 < mantissas by decide).trans_le hnormal
  have hbelow := le_cast_below hpos
  have hunit := two_zpow_pos b.q
  have hlow := hcovers.low
  rw [two_zpow_add]
  norm_num
  nlinarith

/-- The value has as many bits as the float, or one more just below a power of two. -/
theorem Covers.exponent (hcovers : b.Covers value) (hfloat : b.IsFloat) {exponent : Int}
    (hbits : HasBits value exponent) :
    exponent = b.q ∨ exponent = b.q - 1 ∧ b.isLowest = true := by
  have hleast := hbits.least
  have hle : exponent ≤ b.q := by
    rcases hbits.full with hfull | hfull
    · rw [hfull]
      exact hfloat.least
    · have hlt := two_zpow_lt_iff.mp (hfull.trans_lt (hcovers.lt hfloat))
      omega
  rcases hfloat.normal with hnormal | hq
  · rcases Nat.eq_or_lt_of_le hnormal with heq | hmore
    · by_cases hq : b.q = -1074
      · exact Or.inl (by omega)
      · have hlowest : b.isLowest = true := by
          have hfloor := hfloat.least
          exact hfloat.lowest.mpr ⟨heq.symm, by omega⟩
        have hlt := two_zpow_lt_iff.mp ((hcovers.half_full hnormal).trans_lt hbits.lt)
        exact (show exponent = b.q ∨ exponent = b.q - 1 by omega).imp_right fun h => ⟨h, hlowest⟩
    · have hlt := two_zpow_lt_iff.mp ((hcovers.full hmore).trans_lt hbits.lt)
      exact Or.inl (by omega)
  · exact Or.inl (by omega)

/-! ### Rounding -/

theorem shiftToTargetExponent_eq (count : Nat) {mantissa : Nat} {exponent target : Int}
    (htarget : Format.binary64.targetExponent (totalExponent mantissa exponent) = target)
    (hcount : target = exponent + count) (accuracy : Accuracy) :
    shiftToTargetExponent Format.binary64 mantissa exponent accuracy =
      (ExtendedMantissa.ofMantissaAndAccuracy mantissa accuracy >>> count, target) := by
  have hamount : (target - exponent).toNat = count := by omega
  simp only [shiftToTargetExponent, Float.Model.UnpackedFloat.shiftToExponent, htarget, hamount]
  rw [hcount]

/-- The rounded mantissa is shifted once more, to the exponent that it asks for. -/
theorem roundWithAccuracy_of_shift (s : Sign) {mantissa rounded count : Nat}
    {exponent middle last : Int} {accuracy : Accuracy} {first : ExtendedMantissa}
    (hshift : shiftToTargetExponent Format.binary64 mantissa exponent accuracy = (first, middle))
    (hrounded : first.roundedMantissa = rounded)
    (htarget : Format.binary64.targetExponent (totalExponent rounded middle) = last)
    (hcount : last = middle + count)
    (hpos : 0 < (ExtendedMantissa.ofMantissaAndAccuracy rounded .exact >>> count).mantissa) :
    roundWithAccuracy Format.binary64 s mantissa exponent accuracy =
      .finite s (ExtendedMantissa.ofMantissaAndAccuracy rounded .exact >>> count).mantissa last
        hpos := by
  unfold roundWithAccuracy
  rw [hshift]
  dsimp only
  rw [hrounded, shiftToTargetExponent_eq count htarget hcount]
  exact dif_neg hpos.ne'

theorem IsFloat.target (hfloat : b.IsFloat) :
    Format.binary64.targetExponent (totalExponent b.m b.q) = b.q := by
  have hleast := hfloat.least
  rw [targetExponent_eq]
  by_cases hnormal : mantissas ≤ b.m
  · rw [log2_eq_of_normal hfloat hnormal]
    omega
  · have hlog := log2_lt_of_subnormal hfloat (by omega)
    have hq := hfloat.normal.resolve_left hnormal
    omega

/-- In the unit of the float, the value is rounded to its mantissa. -/
theorem Covers.isNearest {num den : Nat} (hden : 0 < den)
    (hcovers : b.Covers ((num : ℚ) / den * 2 ^ b.q)) (hpos : 0 < b.m) :
    IsNearest num den b.m := by
  have hunit := two_zpow_pos b.q
  have hbelow := le_cast_below hpos
  have hlow := hcovers.low
  have hhigh := hcovers.high
  rw [cast_above] at hhigh
  refine isNearest_of_div hden ?_ ?_ ?_
  · nlinarith
  · nlinarith
  · intro hparity
    obtain ⟨hless, hmore⟩ := hcovers.odd hparity
    rw [cast_above] at hmore
    constructor
    · nlinarith
    · nlinarith

/-- In half the unit, the value below a power of two is rounded up to that power. -/
theorem Covers.isNearest_carry {num den : Nat} (hden : 0 < den) (hfloat : b.IsFloat)
    (hcovers : b.Covers ((num : ℚ) / den * 2 ^ (b.q - 1))) (hlowest : b.isLowest = true)
    (hless : (num : ℚ) / den * 2 ^ (b.q - 1) < 2 ^ (b.q - 1 + 53)) :
    IsNearest num den (2 * mantissas) := by
  have hm : (b.m : ℚ) = 4503599627370496 := by exact_mod_cast (hfloat.lowest.mp hlowest).1
  have hcarry : ((2 * mantissas : Nat) : ℚ) = 9007199254740992 := by norm_num [mantissas]
  have hunit := two_zpow_pos (b.q - 1)
  have hdouble : (2 : ℚ) ^ b.q = 2 * 2 ^ (b.q - 1) := by
    rw [← zpow_one_add₀ (by norm_num)]
    congr 1
    omega
  have hlow := hcovers.low
  rw [cast_below hfloat.pos, hlowest, if_pos rfl, hm, hdouble] at hlow
  rw [two_zpow_add] at hless
  norm_num at hless
  refine isNearest_of_div hden ?_ ?_ ?_
  · rw [hcarry]
    nlinarith
  · rw [hcarry]
    nlinarith
  · intro hparity
    exact absurd hparity (by decide)

/-- A quotient that is covered by a float is rounded to it. -/
theorem roundWithAccuracy_eq (hfloat : b.IsFloat) (num : Nat) {den : Nat} (hden : 0 < den)
    {exponent : Int} (hfine : exponent ≤
      Format.binary64.targetExponent (totalExponent (num / den) exponent))
    (hcovers : b.Covers ((num : ℚ) / den * 2 ^ exponent)) (isNegative : Bool) :
    roundWithAccuracy Format.binary64 (sign isNegative) (num / den) exponent
      (accuracyOfFraction (num % den) den) = parts isNegative hfloat := by
  generalize htarget : Format.binary64.targetExponent (totalExponent (num / den) exponent) =
    target at hfine
  obtain ⟨count, hcount⟩ := Int.le.dest hfine
  have hbits := hasBits_of_quotient hden htarget hfine
  have hshows := (shows_ofMantissaAndAccuracy num hden).shiftRight hden count
  -- in units of the target, the value is the quotient by the larger denominator
  have hvalue : (num : ℚ) / den * 2 ^ exponent =
      (num : ℚ) / (den * 2 ^ count : Nat) * 2 ^ target := by
    rw [← hcount, two_zpow_add]
    push_cast
    field_simp
    rw [zpow_natCast]
  rw [hvalue] at hcovers hbits
  have hlarger : 0 < den * 2 ^ count := by positivity
  have hshift := shiftToTargetExponent_eq count htarget hcount.symm
    (accuracyOfFraction (num % den) den)
  rcases hcovers.exponent hfloat hbits with rfl | ⟨rfl, hlowest⟩
  · have hrounded := hshows.roundedMantissa_eq hlarger (hcovers.isNearest hlarger hfloat.pos)
    exact roundWithAccuracy_of_shift _ hshift hrounded hfloat.target (Int.add_zero _).symm
      hfloat.pos
  · -- rounding up carries into a bit more, which the second shift takes away again
    have hrounded := hshows.roundedMantissa_eq hlarger
      (hcovers.isNearest_carry hlarger hfloat hlowest hbits.lt)
    obtain ⟨hm, hq⟩ := hfloat.lowest.mp hlowest
    have htwice : Format.binary64.targetExponent (totalExponent (2 * mantissas) (b.q - 1)) =
        b.q := by
      have hlog : (2 * mantissas).log2 = 53 := by decide
      rw [targetExponent_eq, hlog]
      omega
    have hhalf : (ExtendedMantissa.ofMantissaAndAccuracy (2 * mantissas) .exact >>> 1).mantissa =
        b.m := by
      rw [hm]
      rfl
    have hstep : b.q = b.q - 1 + (1 : Nat) := by omega
    rw [roundWithAccuracy_of_shift _ hshift hrounded htwice hstep (hhalf.symm ▸ hfloat.pos)]
    exact finite_eq_parts hfloat _ rfl hhalf rfl

end Decimal.Binary
end QueryBody
