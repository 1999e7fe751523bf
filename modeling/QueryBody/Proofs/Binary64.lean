import QueryBody.Number.Writing
import Mathlib.Tactic

/-!
# Floats and their binary values

A finite float other than zero is a sign and a binary value `m · 2 ^ q`, where `m` has 53 bits
unless `q` is the least exponent.  Putting the two together gives a float with these parts, and
taking a float apart and putting it together again changes nothing.
-/

namespace QueryBody

open Float.Model (Format UnpackedFloat)
open Float.Model.UnpackedFloat (Sign packComponents unpackSign unpackMantissa unpackExponent)

namespace Decimal.Binary

/-- The binary value is one of a float. -/
structure IsFloat (b : Binary) : Prop where
  pos : 0 < b.m
  lt : b.m < 2 * mantissas
  least : -1074 ≤ b.q
  greatest : b.q ≤ 971
  normal : mantissas ≤ b.m ∨ b.q = -1074
  lowest : b.isLowest = true ↔ b.m = mantissas ∧ -1074 < b.q

def sign (isNegative : Bool) : Sign := if isNegative then .negative else .positive

variable {b : Binary}

def parts (isNegative : Bool) (hfloat : b.IsFloat) : UnpackedFloat :=
  .finite (sign isNegative) b.m b.q hfloat.pos

/-- The float with a sign and a binary value. -/
def float (isNegative : Bool) (hfloat : b.IsFloat) : Float :=
  .ofModel (.pack (parts isNegative hfloat))

/-! ### Packing -/

theorem toNat_packComponents (s : Sign) (exponent : BitVec 11) (mantissa : BitVec 52) :
    (packComponents Format.binary64 s exponent mantissa).toNat =
      s.toBitVec.toNat * 2 ^ 63 + exponent.toNat * 2 ^ 52 + mantissa.toNat := by
  have hfront : (s.toBitVec ++ exponent).toNat = s.toBitVec.toNat * 2 ^ 11 + exponent.toNat := by
    rw [BitVec.toNat_append, ← Nat.shiftLeft_add_eq_or_of_lt exponent.isLt, Nat.shiftLeft_eq]
  rw [packComponents, BitVec.toNat_append, ← Nat.shiftLeft_add_eq_or_of_lt mantissa.isLt,
    Nat.shiftLeft_eq, hfront]
  omega

theorem unpackSign_packComponents (s : Sign) (exponent : BitVec 11) (mantissa : BitVec 52) :
    Sign.ofBitVec (unpackSign (packComponents Format.binary64 s exponent mantissa)) = s := by
  have hsign : unpackSign (packComponents Format.binary64 s exponent mantissa) = s.toBitVec := by
    apply BitVec.eq_of_toNat_eq
    have hbits := toNat_packComponents s exponent mantissa
    have hbit := s.toBitVec.isLt
    have hexponent := exponent.isLt
    have hmantissa := mantissa.isLt
    change (BitVec.extractLsb 63 63 (packComponents Format.binary64 s exponent mantissa)).toNat = _
    rw [BitVec.extractLsb_toNat, Nat.shiftRight_eq_div_pow, hbits]
    omega
  rw [hsign]
  cases s <;> rfl

theorem log2_eq_of_normal (hfloat : b.IsFloat) (hnormal : mantissas ≤ b.m) : b.m.log2 = 52 := by
  have hlt := hfloat.lt
  simp only [mantissas] at hnormal hlt
  exact (Nat.log2_eq_iff hfloat.pos.ne').mpr ⟨by omega, by omega⟩

theorem log2_lt_of_subnormal (hfloat : b.IsFloat) (hsubnormal : b.m < mantissas) :
    b.m.log2 < 52 := by
  simp only [mantissas] at hsubnormal
  exact (Nat.log2_lt hfloat.pos.ne').mpr (by omega)

def biased (b : Binary) : Nat := if mantissas ≤ b.m then (b.q + 1075).toNat else 0

theorem pack_finite (s : Sign) (m : Nat) (q : Int) (hpos : 0 < m) :
    UnpackedFloat.pack Format.binary64 (.finite s m q hpos) =
      if 2 ^ 11 ≤ (q + 1023 + 52).toNat + 1 then UnpackedFloat.packedInfinity Format.binary64 s
      else if m.log2 + 1 = 53 then
        packComponents Format.binary64 s (BitVec.ofNat 11 (q + 1023 + 52).toNat) (BitVec.ofNat 52 m)
      else packComponents Format.binary64 s 0#11 (BitVec.ofNat 52 m) := rfl

theorem pack_parts (isNegative : Bool) (hfloat : b.IsFloat) :
    UnpackedFloat.pack Format.binary64 (parts isNegative hfloat) =
      packComponents Format.binary64 (sign isNegative) (BitVec.ofNat 11 b.biased)
        (BitVec.ofNat 52 b.m) := by
  have hleast := hfloat.least
  have hgreatest := hfloat.greatest
  have hexponent : b.q + 1023 + 52 = b.q + 1075 := by omega
  have hfits : ¬2 ^ 11 ≤ (b.q + 1075).toNat + 1 := by omega
  rw [parts, pack_finite, hexponent, if_neg hfits, biased]
  by_cases hnormal : mantissas ≤ b.m
  · have hbits : b.m.log2 + 1 = 53 := by rw [log2_eq_of_normal hfloat hnormal]
    rw [if_pos hbits, if_pos hnormal]
  · have hbits : ¬b.m.log2 + 1 = 53 := by
      have hlog := log2_lt_of_subnormal hfloat (by omega)
      omega
    rw [if_neg hbits, if_neg hnormal]

theorem biased_lt (hfloat : b.IsFloat) : b.biased < 2047 := by
  have hleast := hfloat.least
  have hgreatest := hfloat.greatest
  unfold biased
  split <;> omega

theorem ofNat_ne_zero {width number : Nat} (hpos : 0 < number) (hlt : number < 2 ^ width) :
    BitVec.ofNat width number ≠ BitVec.ofNat width 0 := by
  intro heq
  have hnat := congrArg BitVec.toNat heq
  rw [BitVec.toNat_ofNat, Nat.mod_eq_of_lt hlt, BitVec.toNat_zero] at hnat
  omega

/-- The mantissa of a normal float has a bit more than is packed. -/
theorem toNat_implicit_append (hfloat : b.IsFloat) (hnormal : mantissas ≤ b.m) :
    (1#1 ++ BitVec.ofNat 52 b.m).toNat = b.m := by
  have hlt := hfloat.lt
  simp only [mantissas] at hnormal hlt
  rw [BitVec.toNat_append, ← Nat.shiftLeft_add_eq_or_of_lt (BitVec.isLt _), BitVec.toNat_ofNat]
  simp [Nat.shiftLeft_eq]
  omega

/-! ### Unpacking -/

theorem unpack_of_normal {bits : BitVec Format.binary64.numBits}
    (hfinite : unpackExponent bits ≠ -1#_) (hnormal : unpackExponent bits ≠ 0#_) :
    ∃ hpos, UnpackedFloat.unpack Format.binary64 bits =
      .finite (Sign.ofBitVec (unpackSign bits)) (1#1 ++ unpackMantissa bits).toNat
        ((unpackExponent bits).toNat - (1023 + 52)) hpos :=
  ⟨_, (if_neg hfinite).trans (if_neg hnormal)⟩

theorem unpack_of_subnormal {bits : BitVec Format.binary64.numBits}
    (hfinite : unpackExponent bits ≠ -1#_) (hsubnormal : unpackExponent bits = 0#_)
    (hmantissa : unpackMantissa bits ≠ 0#_) :
    ∃ hpos, UnpackedFloat.unpack Format.binary64 bits =
      .finite (Sign.ofBitVec (unpackSign bits)) (unpackMantissa bits).toNat
        ((unpackExponent bits).toNat - (1023 + 52) + 1) hpos :=
  ⟨_, (if_neg hfinite).trans ((if_pos hsubnormal).trans (dif_neg hmantissa))⟩

theorem finite_eq_parts {isNegative : Bool} (hfloat : b.IsFloat) {s : Sign} {m : Nat} {q : Int}
    (hpos : 0 < m) (hs : s = sign isNegative) (hm : m = b.m) (hq : q = b.q) :
    UnpackedFloat.finite s m q hpos = parts isNegative hfloat := by
  subst hs hm hq
  rfl

/-- A float has the parts from which it was put together. -/
theorem unpack_float (isNegative : Bool) (hfloat : b.IsFloat) :
    (float isNegative hfloat).toModel.unpack = parts isNegative hfloat := by
  have hleast := hfloat.least
  have hnormal := hfloat.normal
  have hbiased := biased_lt hfloat
  change UnpackedFloat.unpack Format.binary64 (UnpackedFloat.pack Format.binary64 _) = _
  rw [pack_parts]
  generalize hbits : packComponents Format.binary64 (sign isNegative) (BitVec.ofNat 11 b.biased)
    (BitVec.ofNat 52 b.m) = bits
  have hsign : Sign.ofBitVec (unpackSign bits) = sign isNegative :=
    hbits ▸ unpackSign_packComponents _ _ _
  have hexponent : unpackExponent bits = BitVec.ofNat 11 b.biased :=
    hbits ▸ Float.Model.UnpackedFloat.unpackExponent_packComponents
  have hmantissa : unpackMantissa bits = BitVec.ofNat 52 b.m :=
    hbits ▸ Float.Model.UnpackedFloat.unpackMantissa_packComponents
  have hfinite : unpackExponent bits ≠ -1#_ := by
    rw [hexponent]
    intro heq
    have hnat := congrArg BitVec.toNat heq
    simp at hnat
    omega
  -- the packed exponent is zero exactly for the mantissas without the implicit bit
  by_cases hlarge : mantissas ≤ b.m
  · have hpacked : b.biased = (b.q + 1075).toNat := if_pos hlarge
    have hnonzero : unpackExponent bits ≠ 0#_ := by
      rw [hexponent]
      exact ofNat_ne_zero (by omega) (by omega)
    obtain ⟨hpos, hunpack⟩ := unpack_of_normal hfinite hnonzero
    rw [hunpack]
    apply finite_eq_parts hfloat hpos hsign
    · rw [hmantissa]
      exact toNat_implicit_append hfloat hlarge
    · rw [hexponent, BitVec.toNat_ofNat, Nat.mod_eq_of_lt (show b.biased < 2 ^ 11 by omega)]
      omega
  · have hpacked : b.biased = 0 := if_neg hlarge
    have hless : b.m < 2 ^ 52 := by simpa [mantissas] using hlarge
    have hzero : unpackExponent bits = 0#_ := by rw [hexponent, hpacked]
    have hnonzero : unpackMantissa bits ≠ 0#_ := by
      rw [hmantissa]
      exact ofNat_ne_zero hfloat.pos hless
    obtain ⟨hpos, hunpack⟩ := unpack_of_subnormal hfinite hzero hnonzero
    rw [hunpack]
    apply finite_eq_parts hfloat hpos hsign
    · rw [hmantissa, BitVec.toNat_ofNat, Nat.mod_eq_of_lt hless]
    · rw [hexponent, hpacked]
      change (0 : Int) - (1023 + 52) + 1 = b.q
      omega

/-! ### Bits -/

theorem toNat_toBits_float (isNegative : Bool) (hfloat : b.IsFloat) :
    (float isNegative hfloat).toBits.toNat =
      (if isNegative then 2 ^ 63 else 0) + b.biased * 2 ^ 52 + b.m % 2 ^ 52 := by
  have hbiased : b.biased < 2 ^ 11 := (biased_lt hfloat).trans (by decide)
  change (UnpackedFloat.pack Format.binary64 (parts isNegative hfloat)).toNat = _
  rw [pack_parts, toNat_packComponents, BitVec.toNat_ofNat, BitVec.toNat_ofNat,
    Nat.mod_eq_of_lt hbiased]
  cases isNegative <;> rfl

def isNegative (value : Float) : Bool := !decide (value.toBits.toNat < UInt64.size / 2)

/-- The bits of a float are its sign, its exponent and its mantissa. -/
theorem toNat_toBits (value : Float) :
    value.toBits.toNat = (if isNegative value then 2 ^ 63 else 0) +
      (ofFloat value).biased * 2 ^ 52 + (ofFloat value).m % 2 ^ 52 := by
  have hsize := value.toBits.toNat_lt
  have hbits : value.toBits.toNat = (if isNegative value then 2 ^ 63 else 0) +
      value.toBits.toNat / mantissas % 2048 * 2 ^ 52 + value.toBits.toNat % mantissas := by
    simp only [isNegative, mantissas, UInt64.size]
    by_cases hsign : value.toBits.toNat < 18446744073709551616 / 2
    · simp [hsign]
      omega
    · simp [hsign]
      omega
  have hexponent : (ofFloat value).biased = value.toBits.toNat / mantissas % 2048 ∧
      (ofFloat value).m % 2 ^ 52 = value.toBits.toNat % mantissas := by
    have hmantissa : value.toBits.toNat % mantissas < mantissas := Nat.mod_lt _ (by decide)
    simp only [ofFloat]
    split
    next hzero =>
      rw [biased, if_neg hmantissa.not_ge, hzero]
      exact ⟨rfl, Nat.mod_eq_of_lt hmantissa⟩
    next hzero =>
      rw [biased, if_pos (Nat.le_add_right _ _), Int.ofNat_eq_natCast]
      dsimp only
      refine ⟨by omega, ?_⟩
      change (mantissas + value.toBits.toNat % mantissas) % mantissas = _
      rw [Nat.add_mod_left, Nat.mod_mod]
  rw [hexponent.1, hexponent.2]
  exact hbits

theorem eq_of_toBits {first second : Float} (hbits : first.toBits = second.toBits) :
    first = second := by
  obtain ⟨⟨bits, hvalid⟩⟩ := first
  obtain ⟨⟨others, hother⟩⟩ := second
  change bits = others at hbits
  subst hbits
  rfl

/-- A float with the binary value of a float is put together from its parts. -/
theorem eq_float {value : Float} (hfloat : (ofFloat value).IsFloat) :
    value = float (isNegative value) hfloat := by
  apply eq_of_toBits
  apply UInt64.toNat_inj.mp
  rw [toNat_toBits_float, toNat_toBits]

/-- The binary value of a float is one, or it is zero, infinite or not a number. -/
theorem isFloat_ofFloat (value : Float) (hpos : 0 < (ofFloat value).m)
    (hfinite : (ofFloat value).q < 972) : (ofFloat value).IsFloat := by
  have hmantissa : value.toBits.toNat % mantissas < mantissas := Nat.mod_lt _ (by decide)
  have hexponent : value.toBits.toNat / mantissas % 2048 < 2048 := Nat.mod_lt _ (by decide)
  simp only [ofFloat] at hpos hfinite ⊢
  split at hpos
  next hzero =>
    simp only [hzero, if_true] at hpos ⊢
    refine ⟨hpos, ?_, le_refl _, ?_, Or.inr rfl, ?_⟩
    · dsimp only
      omega
    · dsimp only
      omega
    · simp
  next hzero =>
    simp only [hzero, if_false, Int.ofNat_eq_natCast] at hpos hfinite ⊢
    refine ⟨hpos, ?_, ?_, ?_, Or.inl (Nat.le_add_right _ _), ?_⟩
    · dsimp only
      omega
    · dsimp only
      omega
    · dsimp only
      omega
    · simp
      omega

theorem lt_of_ofFloat (value : Float) : (ofFloat value).m < 2 * mantissas := by
  have hmantissa : value.toBits.toNat % mantissas < mantissas := Nat.mod_lt _ (by decide)
  simp only [ofFloat]
  split
  · dsimp only
    omega
  · dsimp only
    omega

theorem m_of_isLowest {value : Float} (hlowest : (ofFloat value).isLowest = true) :
    (ofFloat value).m = mantissas := by
  simp only [ofFloat] at hlowest ⊢
  split at hlowest
  · contradiction
  next hzero =>
    rw [if_neg hzero]
    have hmantissa : value.toBits.toNat % mantissas = 0 := (of_decide_eq_true hlowest).1
    exact congrArg (mantissas + ·) hmantissa

/-! ### Signs and comparison -/

theorem neg_float (hfloat : b.IsFloat) : -float false hfloat = float true hfloat := by
  have hunpack := unpack_float false hfloat
  change Float.ofModel (.pack (float false hfloat).toModel.unpack.neg) = _
  rw [hunpack]
  rfl

theorem compare_self (s : Sign) (m : Nat) (q : Int) (hpos : 0 < m) :
    UnpackedFloat.compare (.finite s m q hpos) (.finite s m q hpos) = some .eq := by
  cases s with
  | positive =>
    change some ((compare q q).then (compare m m)) = some .eq
    rw [Std.compare_self, Std.compare_self]
    rfl
  | negative =>
    change some ((compare q q).then (compare m m)).swap = some .eq
    rw [Std.compare_self, Std.compare_self]
    rfl

theorem beq_float (isNegative : Bool) (hfloat : b.IsFloat) :
    (float isNegative hfloat == float isNegative hfloat) = true := by
  have hunpack := unpack_float isNegative hfloat
  change UnpackedFloat.beq (float isNegative hfloat).toModel.unpack
    (float isNegative hfloat).toModel.unpack = true
  rw [hunpack]
  change (UnpackedFloat.compare (parts isNegative hfloat) (parts isNegative hfloat) ==
    some Ordering.eq) = true
  rw [parts, compare_self]
  rfl

end Decimal.Binary
end QueryBody
