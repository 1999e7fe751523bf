import QueryBody.Number.Reading
import QueryBody.Proofs.Rounding
import Mathlib.Tactic

/-!
# Digits that are scaled in one rounding

A significand and a power of ten that are both floats are multiplied or divided exactly but for
one rounding.  So the number that is read from them is the float nearest to what they say.
-/

namespace QueryBody

open Float.Model (Format UnpackedFloat totalExponent)
open Float.Model.UnpackedFloat (accuracyOfFraction roundWithAccuracy)
open Rounding

namespace Decimal.Binary

variable {a b c : Binary}

def value (b : Binary) : ℚ := b.m * 2 ^ b.q

theorem covers_value (hfloat : b.IsFloat) : b.Covers b.value := by
  have hunit := two_zpow_pos b.q
  have hbelow : (b.below : ℚ) ≤ 4 * b.m - 1 := by
    rw [cast_below hfloat.pos]
    split <;> linarith
  have hlow : (b.below : ℚ) * 2 ^ b.q < 4 * b.value := by
    rw [value]
    nlinarith
  have hhigh : 4 * b.value < b.above * 2 ^ b.q := by
    rw [value, cast_above]
    nlinarith
  exact ⟨hlow.le, hhigh.le, fun _ => ⟨hlow, hhigh⟩⟩

/-! ### Products and quotients -/

theorem roundWithAccuracy_exact (hfloat : c.IsFloat) (mantissa : Nat) (exponent : Int)
    (hfine : exponent ≤ Format.binary64.targetExponent (totalExponent mantissa exponent))
    (hcovers : c.Covers ((mantissa : ℚ) * 2 ^ exponent)) :
    roundWithAccuracy Format.binary64 .positive mantissa exponent .exact = parts false hfloat := by
  have hround := roundWithAccuracy_eq hfloat mantissa one_pos
    (by rwa [Nat.div_one]) (by simpa using hcovers) false
  rw [Nat.div_one, Nat.mod_one] at hround
  exact hround

theorem float_mul (ha : a.IsFloat) (hb : b.IsFloat) (hc : c.IsFloat) (hnormal : mantissas ≤ a.m)
    (hcovers : c.Covers (a.value * b.value)) :
    float false ha * float false hb = float false hc := by
  have hexact : (a.m * b.m : Nat) * 2 ^ (a.q + b.q) = a.value * b.value := by
    rw [two_zpow_add, value, value]
    push_cast
    ring
  have hlog : 52 ≤ (a.m * b.m).log2 := by
    have hpos := Nat.mul_pos ha.pos hb.pos
    refine (Nat.le_log2 hpos.ne').mpr ?_
    calc 2 ^ 52 ≤ a.m := hnormal
      _ ≤ a.m * b.m := Nat.le_mul_of_pos_right _ hb.pos
  have hround := roundWithAccuracy_exact hc (a.m * b.m) (a.q + b.q)
    (by rw [targetExponent_eq]; omega) (hexact ▸ hcovers)
  change Float.ofModel (.pack (UnpackedFloat.mul Format.binary64
    (float false ha).toModel.unpack (float false hb).toModel.unpack)) = _
  rw [unpack_float, unpack_float]
  exact congrArg (fun unpacked => Float.ofModel (.pack unpacked)) hround

/-- The quotient of the mantissas is taken with enough bits. -/
theorem fine_of_quotient {a b : Nat} (hb : 0 < b) (ha : 0 < a) {first second target : Int}
    (htarget : target ≤ Format.binary64.targetExponent
      (totalExponent a first - totalExponent b second)) {count : Nat}
    (hcount : first - second = target + count) :
    target ≤ Format.binary64.targetExponent (totalExponent (a * 2 ^ count / b) target) := by
  rw [targetExponent_eq]
  change target ≤ max ((a.log2 : Int) + 1 + first - ((b.log2 : Int) + 1 + second) - 53)
    (3 - 2 ^ 10 - 53) at htarget
  norm_num at htarget
  rcases htarget with hnormal | hleast
  · have hbits : 53 + b.log2 ≤ a.log2 + count := by omega
    have hquotient : 2 ^ 52 ≤ a * 2 ^ count / b := by
      rw [Nat.le_div_iff_mul_le hb]
      calc 2 ^ 52 * b ≤ 2 ^ 52 * 2 ^ (b.log2 + 1) := Nat.mul_le_mul_left _ Nat.lt_log2_self.le
        _ = 2 ^ (53 + b.log2) := by ring
        _ ≤ 2 ^ (a.log2 + count) := Nat.pow_le_pow_right (by decide) hbits
        _ = 2 ^ a.log2 * 2 ^ count := Nat.pow_add 2 _ _
        _ ≤ a * 2 ^ count := Nat.mul_le_mul_right _ (Nat.log2_self_le ha.ne')
    have hlog := (Nat.le_log2 (by omega)).mpr hquotient
    omega
  · omega

/-- The mantissa is shifted so that its quotient has enough bits for the exponent. -/
theorem divCore_eq {a b count : Nat} {first second target : Int}
    (htarget : min (first - second) (Format.binary64.targetExponent
      (totalExponent a first - totalExponent b second)) = target)
    (hcount : (first - second - target).toNat = count) :
    UnpackedFloat.divCore Format.binary64 a first b second =
      (a * 2 ^ count / b, target, accuracyOfFraction (a * 2 ^ count % b) b) := by
  subst htarget hcount
  rw [← Nat.shiftLeft_eq]
  rfl

theorem float_div (ha : a.IsFloat) (hb : b.IsFloat) (hc : c.IsFloat)
    (hcovers : c.Covers (a.value / b.value)) :
    float false ha / float false hb = float false hc := by
  change Float.ofModel (.pack (UnpackedFloat.div Format.binary64
    (float false ha).toModel.unpack (float false hb).toModel.unpack)) = _
  rw [unpack_float, unpack_float]
  apply congrArg (fun unpacked => Float.ofModel (.pack unpacked))
  obtain ⟨target, htarget⟩ : ∃ target, min (a.q - b.q) (Format.binary64.targetExponent
    (totalExponent a.m a.q - totalExponent b.m b.q)) = target := ⟨_, rfl⟩
  obtain ⟨count, hcount⟩ := Int.le.dest (show target ≤ a.q - b.q by omega)
  have hamount : (a.q - b.q - target).toNat = count := by omega
  have hvalue : a.value / b.value = ((a.m * 2 ^ count : Nat) : ℚ) / b.m * 2 ^ target := by
    have hunit := (two_zpow_pos b.q).ne'
    have hm : (b.m : ℚ) ≠ 0 := by exact_mod_cast hb.pos.ne'
    have hpower : (2 : ℚ) ^ a.q = 2 ^ b.q * 2 ^ target * 2 ^ count := by
      rw [← zpow_natCast, ← two_zpow_add, ← two_zpow_add]
      congr 1
      omega
    rw [value, value, hpower]
    push_cast
    field_simp
  change roundWithAccuracy Format.binary64 (sign false)
    (UnpackedFloat.divCore Format.binary64 a.m a.q b.m b.q).1
    (UnpackedFloat.divCore Format.binary64 a.m a.q b.m b.q).2.1
    (UnpackedFloat.divCore Format.binary64 a.m a.q b.m b.q).2.2 = parts false hc
  rw [divCore_eq htarget hamount]
  exact roundWithAccuracy_eq hc _ hb.pos
    (fine_of_quotient hb.pos ha.pos (by omega) hcount.symm) (hvalue ▸ hcovers) false

/-! ### Whole numbers and powers of ten -/

theorem log2_mul_two_pow {number : Nat} (hpos : 0 < number) (count : Nat) :
    (number * 2 ^ count).log2 = number.log2 + count := by
  refine (Nat.log2_eq_iff (by positivity)).mpr ⟨?_, ?_⟩
  · rw [Nat.pow_add]
    exact Nat.mul_le_mul_right _ (Nat.log2_self_le hpos.ne')
  · rw [Nat.add_right_comm, Nat.pow_add]
    exact Nat.mul_lt_mul_of_pos_right Nat.lt_log2_self (by positivity)

theorem toFloat_eq (hc : c.IsFloat) {number : UInt64} (hpos : 0 < number.toNat)
    (hcovers : c.Covers number.toNat) : number.toFloat = float false hc := by
  have hcompare : compare (number.toNat : Int) 0 = .gt := Int.compare_eq_gt.mpr (by omega)
  change Float.ofModel (.pack (UnpackedFloat.normalize Format.binary64 (number.toNat : Int) 0
    .positive)) = _
  apply congrArg (fun unpacked => Float.ofModel (.pack unpacked))
  simp only [UnpackedFloat.normalize, hcompare, Int.toNat_natCast, UnpackedFloat.round,
    UnpackedFloat.decreaseExponent]
  generalize htarget : Format.binary64.targetExponent (totalExponent number.toNat 0) = target
  generalize hcount : (0 - target).toNat = count
  rw [targetExponent_eq] at htarget
  have hexact : ((number.toNat <<< count : Nat) : ℚ) * 2 ^ (0 - (count : Int)) = number.toNat := by
    rw [Nat.shiftLeft_eq, zero_sub, zpow_neg, zpow_natCast]
    push_cast
    field_simp
  have hlog : (number.toNat <<< count).log2 = number.toNat.log2 + count := by
    rw [Nat.shiftLeft_eq, log2_mul_two_pow hpos]
  exact roundWithAccuracy_exact hc _ _ (by rw [targetExponent_eq, hlog]; omega)
    (hexact.symm ▸ hcovers)

/-- A number of 53 bits, shifted to the left, is the value of a float. -/
theorem exists_isFloat {m t : Nat} (hpos : 0 < m) (hlt : m < 2 * mantissas) (ht : t ≤ 971) :
    ∃ c : Binary, c.IsFloat ∧ mantissas ≤ c.m ∧ c.value = m * 2 ^ t := by
  have hbits : m.log2 < 53 := (Nat.log2_lt hpos.ne').mpr hlt
  obtain ⟨count, hcount⟩ := Nat.exists_eq_add_of_le (show m.log2 ≤ 52 by omega)
  have hlow : mantissas ≤ m * 2 ^ count := by
    calc mantissas = 2 ^ m.log2 * 2 ^ count := by rw [← Nat.pow_add, ← hcount]; rfl
      _ ≤ m * 2 ^ count := Nat.mul_le_mul_right _ (Nat.log2_self_le hpos.ne')
  have hhigh : m * 2 ^ count < 2 * mantissas := by
    calc m * 2 ^ count < 2 ^ (m.log2 + 1) * 2 ^ count :=
          Nat.mul_lt_mul_of_pos_right Nat.lt_log2_self (by positivity)
      _ = 2 * mantissas := by rw [← Nat.pow_add, Nat.add_right_comm, ← hcount]; rfl
  refine ⟨⟨m * 2 ^ count, t - count, m * 2 ^ count = mantissas⟩, ?_, hlow, ?_⟩
  · refine ⟨by positivity, hhigh, ?_, ?_, Or.inl hlow, ?_⟩
    · dsimp only
      omega
    · dsimp only
      omega
    · rw [decide_eq_true_iff]
      exact ⟨fun heq => ⟨heq, by dsimp only; omega⟩, And.left⟩
  · rw [value, zpow_sub₀ (by norm_num), zpow_natCast, zpow_natCast]
    push_cast
    field_simp

theorem zpow_mul_toNat (base : ℚ) (hbase : base ≠ 0) (exponent : Int) :
    base ^ exponent * base ^ (-exponent).toNat = base ^ exponent.toNat := by
  rw [← zpow_natCast, ← zpow_natCast, ← zpow_add₀ hbase]
  congr 1
  omega

theorem bits_powerOfTen : ∀ power < 23,
    mantissas ≤ (ofFloat (Literal.powerOfTen power)).m ∧
      (ofFloat (Literal.powerOfTen power)).q < 972 ∧
      isNegative (Literal.powerOfTen power) = false ∧
      (ofFloat (Literal.powerOfTen power)).m * 2 ^ (ofFloat (Literal.powerOfTen power)).q.toNat =
        10 ^ power * 2 ^ (-(ofFloat (Literal.powerOfTen power)).q).toNat := by
  decide +kernel

theorem exists_powerOfTen {power : Nat} (hpower : power ≤ 22) :
    ∃ (c : Binary) (hc : c.IsFloat), c.value = 10 ^ power ∧
      Literal.powerOfTen power = float false hc := by
  obtain ⟨hnormal, hfinite, hsign, hexact⟩ := bits_powerOfTen power (by omega)
  have hpos : 0 < (ofFloat (Literal.powerOfTen power)).m := lt_of_lt_of_le (by decide) hnormal
  have hc := isFloat_ofFloat _ hpos hfinite
  refine ⟨_, hc, ?_, hsign ▸ eq_float hc⟩
  have hcast : ((ofFloat (Literal.powerOfTen power)).m : ℚ) *
      2 ^ (ofFloat (Literal.powerOfTen power)).q.toNat =
        10 ^ power * 2 ^ (-(ofFloat (Literal.powerOfTen power)).q).toNat := by
    exact_mod_cast hexact
  rw [← zpow_mul_toNat 2 (by norm_num), ← mul_assoc] at hcast
  exact mul_right_cancel₀ (by positivity) hcast

/-! ### Scaling -/

theorem exists_ofSignificand {significand m t : Nat} (hpos : 0 < m) (hlt : m < 2 * mantissas)
    (hexact : significand = m * 2 ^ t) (hsize : significand < UInt64.size) :
    ∃ (c : Binary) (hc : c.IsFloat), mantissas ≤ c.m ∧ c.value = significand ∧
      Literal.ofSignificand significand = float false hc := by
  have hsome : 0 < significand := hexact ▸ by positivity
  have ht : t ≤ 971 := by
    have hless : 2 ^ t < 2 ^ 64 := by
      calc 2 ^ t ≤ m * 2 ^ t := Nat.le_mul_of_pos_left _ hpos
        _ < 2 ^ 64 := hexact ▸ hsize
    have hlog := (Nat.pow_lt_pow_iff_right (by decide)).mp hless
    omega
  obtain ⟨c, hc, hnormal, hvalue⟩ := exists_isFloat hpos hlt ht
  have hsignificand : c.value = significand := by
    rw [hvalue, hexact]
    push_cast
    rfl
  have hnumber : significand.toUInt64.toNat = significand := Nat.mod_eq_of_lt hsize
  refine ⟨c, hc, hnormal, hsignificand, toFloat_eq hc (by omega) ?_⟩
  rw [hnumber, ← hsignificand]
  exact covers_value hc

/-- A significand that is a float, scaled by a small power of ten, is the float that covers it. -/
theorem scale_eq {significand m t : Nat} (hpos : 0 < m) (hlt : m < 2 * mantissas)
    (hexact : significand = m * 2 ^ t) (hsize : significand < UInt64.size) {power : Int}
    (hpower : power.natAbs ≤ 22) (hc : c.IsFloat)
    (hcovers : c.Covers ((significand : ℚ) * 10 ^ power)) :
    Literal.scale significand power = some (float false hc) := by
  obtain ⟨a, ha, hnormal, hsignificand, hconvert⟩ := exists_ofSignificand hpos hlt hexact hsize
  obtain ⟨p, hp, htens, hten⟩ := exists_powerOfTen hpower
  unfold Literal.scale
  simp only [hconvert]
  by_cases hnegative : power < 0
  · rw [if_pos hnegative, Literal.divide, if_pos (by omega), hten]
    have hquotient : a.value / p.value = significand * 10 ^ power := by
      rw [hsignificand, htens, div_eq_mul_inv, ← zpow_natCast, ← zpow_neg]
      congr 2
      omega
    rw [float_div ha hp hc (hquotient ▸ hcovers)]
  · rw [if_neg hnegative, if_neg (by omega), hten]
    have hproduct : a.value * p.value = significand * 10 ^ power := by
      rw [hsignificand, htens, ← zpow_natCast]
      congr 2
      omega
    rw [float_mul ha hp hc hnormal (hproduct ▸ hcovers)]
    have hfinite : (float false hc).isInf = false := by
      change (float false hc).toModel.unpack.isInf = false
      rw [unpack_float]
      rfl
    simp [hfinite]

end Decimal.Binary
end QueryBody
