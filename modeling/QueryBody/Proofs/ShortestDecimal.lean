import QueryBody.Proofs.ExactScaling
import Mathlib.Tactic

/-!
# The shortest decimal reads back

Whatever the binary value is, one of the decimals with seventeen digits next to it lies between
the midpoints to its neighbours.  So a shortest decimal is found, it lies between them, and it
has no more digits than that.
-/

namespace QueryBody
namespace Decimal

open Rounding Binary

def value (decimal : Decimal) : ℚ := decimal.digits * 10 ^ decimal.exponent

theorem ten_zpow_pos (exponent : Int) : (0 : ℚ) < 10 ^ exponent := zpow_pos (by norm_num) exponent

/-! ### The common scale -/

/-- What the quarters of a unit and the steps of a grid are multiplied with. -/
def commonScale (q g : Int) : ℚ := 2 ^ (2 - q).toNat * 10 ^ (-g).toNat

theorem commonScale_pos (q g : Int) : 0 < commonScale q g := by
  unfold commonScale
  positivity

theorem cast_quarterScale (q g : Int) :
    (quarterScale q g : ℚ) = 2 ^ (q - 2) * commonScale q g := by
  have hpower := zpow_mul_toNat 2 (by norm_num) (q - 2)
  rw [neg_sub] at hpower
  rw [quarterScale, commonScale, ← mul_assoc, hpower, Nat.pow_eq, Nat.pow_eq]
  push_cast
  rfl

theorem cast_stepScale (q g : Int) : (stepScale q g : ℚ) = 10 ^ g * commonScale q g := by
  have hpower := zpow_mul_toNat 10 (by norm_num) g
  rw [stepScale, commonScale, mul_left_comm, hpower, Nat.pow_eq, Nat.pow_eq]
  push_cast
  rfl

variable {b : Binary} {g : Int}

theorem quarters_cast (b : Binary) (g : Int) (quarters : Nat) :
    ((quarters * quarterScale b.q g : Nat) : ℚ) * 4 =
      quarters * 2 ^ b.q * commonScale b.q g := by
  have hfour : (2 : ℚ) ^ (b.q - 2) * 4 = 2 ^ b.q := by
    rw [zpow_sub₀ (by norm_num)]
    norm_num
  push_cast
  rw [cast_quarterScale, ← hfour]
  ring

theorem steps_cast (b : Binary) (g : Int) (point : Nat) :
    ((point * stepScale b.q g : Nat) : ℚ) * 4 = 4 * (point * 10 ^ g) * commonScale b.q g := by
  push_cast
  rw [cast_stepScale]
  ring

theorem quarters_le_steps_iff (b : Binary) (g : Int) (quarters point : Nat) :
    quarters * quarterScale b.q g ≤ point * stepScale b.q g ↔
      (quarters : ℚ) * 2 ^ b.q ≤ 4 * (point * 10 ^ g) := by
  rw [← mul_le_mul_iff_of_pos_right (commonScale_pos b.q g), ← quarters_cast, ← steps_cast,
    mul_le_mul_iff_of_pos_right (by norm_num), Nat.cast_le]

theorem steps_le_quarters_iff (b : Binary) (g : Int) (quarters point : Nat) :
    point * stepScale b.q g ≤ quarters * quarterScale b.q g ↔
      4 * ((point : ℚ) * 10 ^ g) ≤ quarters * 2 ^ b.q := by
  rw [← mul_le_mul_iff_of_pos_right (commonScale_pos b.q g), ← quarters_cast, ← steps_cast,
    mul_le_mul_iff_of_pos_right (by norm_num), Nat.cast_le]

variable {b : Binary} {g : Int}

/-- A point of a grid reads back exactly if it is between the midpoints. -/
theorem readsBack_iff (point : Nat) : readsBack b g point = true ↔ b.Covers (point * 10 ^ g) := by
  have hlow := quarters_le_steps_iff b g b.below point
  have hhigh := steps_le_quarters_iff b g b.above point
  have hless := (steps_le_quarters_iff b g b.below point).not
  have hmore := (quarters_le_steps_iff b g b.above point).not
  rw [not_le, not_le] at hless hmore
  unfold readsBack
  dsimp only
  rcases Nat.mod_two_eq_zero_or_one b.m with heven | hodd
  · rw [if_pos heven, Bool.and_eq_true, decide_eq_true_iff, decide_eq_true_iff, hlow, hhigh]
    exact ⟨fun ⟨hbelow, habove⟩ => ⟨hbelow, habove, by omega⟩,
      fun hcovers => ⟨hcovers.low, hcovers.high⟩⟩
  · rw [if_neg (by omega), Bool.and_eq_true, decide_eq_true_iff, decide_eq_true_iff, hless, hmore]
    exact ⟨fun ⟨hbelow, habove⟩ => ⟨hbelow.le, habove.le, fun _ => ⟨hbelow, habove⟩⟩,
      fun hcovers => hcovers.odd hodd⟩

/-! ### Points of a grid -/

/-- The point of the grid just below the value. -/
def lowPoint (b : Binary) (g : Int) : Nat := b.centre * quarterScale b.q g / stepScale b.q g

theorem lowPoint_bounds (b : Binary) (g : Int) :
    (lowPoint b g : ℚ) * 10 ^ g ≤ b.value ∧ b.value < (lowPoint b g + 1) * 10 ^ g := by
  have hstep : 0 < stepScale b.q g :=
    Nat.mul_pos (Nat.pow_pos (by decide)) (Nat.pow_pos (by decide))
  have hlow := (steps_le_quarters_iff b g b.centre (lowPoint b g)).mp (Nat.div_mul_le_self _ _)
  have hhigh := (steps_le_quarters_iff b g b.centre (lowPoint b g + 1)).not.mp
    (not_le.mpr (Nat.lt_mul_of_div_lt (Nat.lt_succ_self _) hstep))
  rw [not_le] at hhigh
  have hcentre : (b.centre : ℚ) * 2 ^ b.q = 4 * b.value := by
    rw [centre, Binary.value]
    push_cast
    ring
  rw [hcentre] at hlow hhigh
  push_cast at hhigh
  constructor <;> linarith

/-- What is found on a grid reads back, and it is next to the value. -/
theorem of_onGrid? {decimal : Decimal} (hfound : onGrid? b g = some decimal) :
    b.Covers decimal.value ∧ decimal.exponent = g ∧ decimal.digits ≤ lowPoint b g + 1 := by
  have hcovers : ∀ point, readsBack b g point = true → b.Covers (value ⟨point, g⟩) :=
    fun point hreads => (readsBack_iff point).mp hreads
  unfold onGrid? at hfound
  dsimp only at hfound
  split at hfound
  · contradiction
  next hreads _ =>
    cases hfound
    exact ⟨hcovers _ hreads, rfl, Nat.le_succ _⟩
  next _ hreads =>
    cases hfound
    exact ⟨hcovers _ hreads, rfl, le_refl _⟩
  next hreads hreadsHigh =>
    split at hfound
    · cases hfound
      exact ⟨hcovers _ hreads, rfl, Nat.le_succ _⟩
    · cases hfound
      exact ⟨hcovers _ hreadsHigh, rfl, le_refl _⟩

theorem onGrid?_isSome (hreads : readsBack b g (lowPoint b g) = true ∨
    readsBack b g (lowPoint b g + 1) = true) : (onGrid? b g).isSome = true := by
  unfold lowPoint at hreads
  unfold onGrid?
  dsimp only
  split
  next hlow hhigh =>
    rw [hlow, hhigh] at hreads
    simp at hreads
  · rfl
  · rfl
  · split <;> rfl

/-! ### Seventeen digits -/

theorem toDigits_bounds {number : Nat} (hpos : 0 < number) :
    10 ^ ((Nat.toDigits 10 number).length - 1) ≤ number ∧
      number < 10 ^ (Nat.toDigits 10 number).length := by
  have hlength : 0 < (Nat.toDigits 10 number).length := Nat.length_toDigits_pos
  constructor
  · by_contra hless
    by_cases hone : (Nat.toDigits 10 number).length = 1
    · rw [hone] at hless
      omega
    · have hshorter := (Nat.length_toDigits_le_iff (by decide) (by omega)).mpr (not_le.mp hless)
      omega
  · exact (Nat.length_toDigits_le_iff (by decide) hlength).mp (le_refl _)

theorem quotient_bounds {whole parts : Nat} (hparts : 0 < parts) (hwhole : 0 < whole / parts) :
    (10 : ℚ) ^ (((Nat.toDigits 10 (whole / parts)).length : Int) - 1) ≤ (whole : ℚ) / parts ∧
      (whole : ℚ) / parts ≤ 10 ^ ((Nat.toDigits 10 (whole / parts)).length : Int) := by
  obtain ⟨hlow, hhigh⟩ := toDigits_bounds hwhole
  have hlength : 0 < (Nat.toDigits 10 (whole / parts)).length := Nat.length_toDigits_pos
  generalize (Nat.toDigits 10 (whole / parts)).length = length at *
  have hbelow : 10 ^ (length - 1) * parts ≤ whole :=
    (Nat.mul_le_mul_right _ hlow).trans (Nat.div_mul_le_self _ _)
  have habove : whole ≤ 10 ^ length * parts := by
    have hquotient := Nat.lt_mul_of_div_lt hhigh hparts
    linarith
  have hpartsCast : (0 : ℚ) < parts := by exact_mod_cast hparts
  constructor
  · rw [show (length : Int) - 1 = ((length - 1 : Nat) : Int) by omega, zpow_natCast,
      le_div_iff₀ hpartsCast]
    exact_mod_cast hbelow
  · rw [zpow_natCast, div_le_iff₀ hpartsCast]
    exact_mod_cast habove

theorem leadingExponent_bounds (hpos : 0 < b.m) :
    (10 : ℚ) ^ b.leadingExponent ≤ b.value ∧ b.value ≤ 10 ^ (b.leadingExponent + 1) := by
  have htimes : 0 < Nat.pow 2 b.q.toNat := Nat.pow_pos (by decide)
  have hparts : 0 < Nat.pow 2 (-b.q).toNat := Nat.pow_pos (by decide)
  have hvalue : b.value = (b.m * Nat.pow 2 b.q.toNat : Nat) / (Nat.pow 2 (-b.q).toNat : Nat) := by
    have hpower := zpow_mul_toNat 2 (by norm_num) b.q
    rw [Binary.value, Nat.pow_eq, Nat.pow_eq]
    push_cast
    rw [← hpower]
    field_simp
  unfold leadingExponent
  dsimp only
  by_cases hwhole : b.m * Nat.pow 2 b.q.toNat / Nat.pow 2 (-b.q).toNat = 0
  · -- below one, the inverse of the value is a quotient that is at least one
    have hless := (Nat.div_eq_zero_iff_lt hparts).mp hwhole
    have hone : Nat.pow 2 b.q.toNat = 1 := by
      by_contra hmore
      have hexponent : (-b.q).toNat = 0 := by
        by_contra hnegative
        exact hmore (by rw [show b.q.toNat = 0 by omega])
      have hsome := Nat.mul_pos hpos htimes
      rw [hexponent] at hless
      change _ < 1 at hless
      omega
    rw [hone, mul_one] at hless hvalue
    rw [if_pos hwhole, hvalue]
    obtain ⟨hlow, hhigh⟩ := quotient_bounds hpos (Nat.div_pos hless.le hpos)
    have hinverse : (b.m : ℚ) / (Nat.pow 2 (-b.q).toNat : Nat) =
        ((Nat.pow 2 (-b.q).toNat : Nat) / (b.m : ℚ))⁻¹ := (inv_div _ _).symm
    have hquotient : (0 : ℚ) < (Nat.pow 2 (-b.q).toNat : Nat) / (b.m : ℚ) := by positivity
    rw [hinverse, neg_add_eq_sub, ← neg_sub, zpow_neg, zpow_neg]
    exact ⟨inv_anti₀ hquotient hhigh, inv_anti₀ (ten_zpow_pos _) hlow⟩
  · rw [if_neg hwhole, hvalue, sub_add_cancel]
    exact quotient_bounds hparts (Nat.pos_of_ne_zero hwhole)

/-- Among seventeen digits, the nearer neighbour of the value is between the midpoints. -/
theorem readsBack_of_seventeen (hpos : 0 < b.m) (hlt : b.m < 2 * mantissas)
    (hlowest : b.isLowest = true → b.m = mantissas) (hgrid : g = b.leadingExponent - 16) :
    readsBack b g (lowPoint b g) = true ∨ readsBack b g (lowPoint b g + 1) = true := by
  obtain ⟨hlow, hhigh⟩ := lowPoint_bounds b g
  have hstep := ten_zpow_pos g
  have hunit := two_zpow_pos b.q
  have hdigits : 10 ^ 16 * (10 : ℚ) ^ g ≤ b.value := by
    have hleading := (leadingExponent_bounds hpos).1
    rw [show b.leadingExponent = 16 + g by omega, zpow_add₀ (by norm_num)] at hleading
    exact_mod_cast hleading
  have hm : (b.m : ℚ) ≤ 9007199254740991 := by exact_mod_cast Nat.le_of_lt_succ hlt
  have hvalue : b.value = b.m * 2 ^ b.q := rfl
  -- a step is smaller than the distance to the upper neighbour
  have hsteps : (10 : ℚ) ^ g < 2 ^ b.q := by
    norm_num at hdigits
    nlinarith
  have hbelow : (b.below : ℚ) * 2 ^ b.q + 2 * 10 ^ g < 4 * b.value := by
    rw [cast_below hpos]
    cases hset : b.isLowest with
    | true =>
        have hpower : (b.m : ℚ) = 4503599627370496 := by exact_mod_cast hlowest hset
        rw [if_pos rfl, hvalue, hpower]
        rw [hvalue, hpower] at hdigits
        norm_num at hdigits
        linarith
    | false =>
        rw [if_neg (by simp), hvalue]
        linarith
  have habove : 4 * b.value + 2 * 10 ^ g < b.above * 2 ^ b.q := by
    rw [cast_above, hvalue]
    linarith
  rw [readsBack_iff, readsBack_iff]
  push_cast
  by_cases hnear : 2 * b.value ≤ 2 * ((lowPoint b g : ℚ) * 10 ^ g) + 10 ^ g
  · have hless : (b.below : ℚ) * 2 ^ b.q < 4 * (lowPoint b g * 10 ^ g) := by linarith
    have hmore : 4 * ((lowPoint b g : ℚ) * 10 ^ g) < b.above * 2 ^ b.q := by linarith
    exact Or.inl ⟨hless.le, hmore.le, fun _ => ⟨hless, hmore⟩⟩
  · have hless : (b.below : ℚ) * 2 ^ b.q < 4 * ((lowPoint b g + 1) * 10 ^ g) := by linarith
    have hmore : 4 * (((lowPoint b g : ℚ) + 1) * 10 ^ g) < b.above * 2 ^ b.q := by linarith
    exact Or.inr ⟨hless.le, hmore.le, fun _ => ⟨hless, hmore⟩⟩

/-- A shortest decimal is found, it lies between the midpoints, and it has few digits. -/
theorem exists_shortest? (hpos : 0 < b.m) (hlt : b.m < 2 * mantissas)
    (hlowest : b.isLowest = true → b.m = mantissas) :
    ∃ decimal, shortest? b = some decimal ∧ b.Covers decimal.value ∧
      decimal.digits ≤ 10 ^ 17 + 1 := by
  have hsome : (shortest? b).isSome = true := by
    rw [shortest?, List.findSome?_isSome_iff]
    refine ⟨b.leadingExponent - 16, ?_,
      onGrid?_isSome (readsBack_of_seventeen hpos hlt hlowest rfl)⟩
    exact List.mem_map.mpr ⟨17, by decide, by omega⟩
  obtain ⟨decimal, hfound⟩ := Option.isSome_iff_exists.mp hsome
  obtain ⟨g, hgrid, hpoint⟩ := List.exists_of_findSome?_eq_some hfound
  obtain ⟨hcovers, -, hdigits⟩ := of_onGrid? hpoint
  refine ⟨decimal, hfound, hcovers, hdigits.trans (Nat.succ_le_succ ?_)⟩
  obtain ⟨further, hfurther, rfl⟩ := List.mem_map.mp hgrid
  rw [List.mem_range] at hfurther
  generalize hg : b.leadingExponent + 1 - (further : Int) = g
  have hstep := ten_zpow_pos g
  have hless : (lowPoint b g : ℚ) * 10 ^ g ≤ 10 ^ 17 * 10 ^ g := by
    calc (lowPoint b g : ℚ) * 10 ^ g ≤ b.value := (lowPoint_bounds b g).1
      _ ≤ 10 ^ (b.leadingExponent + 1) := (leadingExponent_bounds hpos).2
      _ ≤ 10 ^ ((17 : Int) + g) := zpow_le_zpow_right₀ (by norm_num) (by omega)
      _ = 10 ^ 17 * 10 ^ g := by
          rw [zpow_add₀ (by norm_num)]
          norm_cast
  have hcast : (lowPoint b g : ℚ) ≤ 10 ^ 17 := le_of_mul_le_mul_right hless hstep
  exact_mod_cast hcast

theorem digits_pos_of_covers {decimal : Decimal} (hpos : 0 < b.m)
    (hcovers : b.Covers decimal.value) : 0 < decimal.digits := by
  by_contra hzero
  have hvalue := hcovers.value_pos hpos
  rw [value, show decimal.digits = 0 by omega] at hvalue
  simp at hvalue

end Decimal
end QueryBody
