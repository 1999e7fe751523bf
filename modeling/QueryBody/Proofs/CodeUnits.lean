import QueryBody.Text.Escape
import Mathlib.Tactic

/-!
# UTF-16 code units

A text as a run of UTF-16 code units, and the text that a run of units stands for, in
which a surrogate without its partner becomes U+FFFD.  Decoding the content of a string
is replacing every character and every escape by its units and reading these.
-/

namespace QueryBody
namespace Utf16

def units (c : Char) : List Nat :=
  if c.toNat < 0x10000 then [c.toNat]
  else [0xD800 + (c.toNat - 0x10000) / 0x400, 0xDC00 + (c.toNat - 0x10000) % 0x400]

/-- The character of a code unit that is in no pair. -/
def single (unit : Nat) : Char :=
  if 0xD800 ≤ unit ∧ unit < 0xE000 then '\uFFFD' else Char.ofNat unit

/-- The text that code units stand for. -/
def decode : List Nat → List Char
  | [] => []
  | [unit] => [single unit]
  | high :: low :: rest =>
      if (0xD800 ≤ high ∧ high < 0xDC00) ∧ 0xDC00 ≤ low ∧ low < 0xE000 then
        Char.ofNat (0x10000 + (high - 0xD800) * 0x400 + (low - 0xDC00)) :: decode rest
      else single high :: decode (low :: rest)

theorem not_surrogate (c : Char) : ¬(0xD800 ≤ c.toNat ∧ c.toNat < 0xE000) := by
  have hvalid : c.toNat.isValidChar := c.valid
  unfold Nat.isValidChar at hvalid
  omega

theorem single_toNat (c : Char) : single c.toNat = c := by
  rw [single, if_neg (not_surrogate c), Char.ofNat_toNat]

theorem decode_cons {unit : Nat} {rest : List Nat}
    (halone : ∀ next ∈ rest.head?, ¬((0xD800 ≤ unit ∧ unit < 0xDC00) ∧
      0xDC00 ≤ next ∧ next < 0xE000)) :
    decode (unit :: rest) = single unit :: decode rest := by
  cases rest with
  | nil => rfl
  | cons next rest => rw [decode, if_neg (halone next rfl)]

/-- A character is read back from its units. -/
theorem decode_units (c : Char) (rest : List Nat) :
    decode (units c ++ rest) = c :: decode rest := by
  have hplane := not_surrogate c
  unfold units
  split
  · rw [List.singleton_append, decode_cons, single_toNat]
    intro next _
    omega
  next hlarge =>
    have hvalid : c.toNat < 0x110000 := by
      have hvalid : c.toNat.isValidChar := c.valid
      unfold Nat.isValidChar at hvalid
      omega
    have hpair : (0xD800 ≤ 0xD800 + (c.toNat - 0x10000) / 0x400 ∧
        0xD800 + (c.toNat - 0x10000) / 0x400 < 0xDC00) ∧
        0xDC00 ≤ 0xDC00 + (c.toNat - 0x10000) % 0x400 ∧
        0xDC00 + (c.toNat - 0x10000) % 0x400 < 0xE000 := by
      omega
    have hsum : 0x10000 + (0xD800 + (c.toNat - 0x10000) / 0x400 - 0xD800) * 0x400 +
        (0xDC00 + (c.toNat - 0x10000) % 0x400 - 0xDC00) = c.toNat := by
      omega
    rw [List.cons_append, List.singleton_append, decode, if_pos hpair, hsum, Char.ofNat_toNat]

theorem not_trailing_of_mem_head? {c : Char} {rest : List Nat} {unit : Nat}
    (hhead : unit ∈ (units c ++ rest).head?) : ¬(0xDC00 ≤ unit ∧ unit < 0xE000) := by
  have hplane := not_surrogate c
  have hvalid : c.toNat.isValidChar := c.valid
  unfold Nat.isValidChar at hvalid
  unfold units at hhead
  split at hhead
  · obtain rfl : c.toNat = unit := by simpa using hhead
    omega
  · obtain rfl : 0xD800 + (c.toNat - 0x10000) / 0x400 = unit := by simpa using hhead
    omega

end Utf16

namespace Escape

def Piece.units : Piece → List Nat
  | char c => Utf16.units c
  | unit u => [u]

theorem alone_eq_single {unit : Nat} (hsmall : unit < 0x10000) :
    alone unit = Utf16.single unit := by
  unfold alone Utf16.single
  split
  next hvalid =>
    unfold Nat.isValidChar at hvalid
    rw [if_neg (by omega)]
  next hvalid =>
    unfold Nat.isValidChar at hvalid
    rw [if_pos (by omega)]

/-- Pairing the surrogates of a run of pieces is reading its code units. -/
theorem join_eq_decode {pieces : List Piece}
    (hsmall : ∀ unit, .unit unit ∈ pieces → unit < 0x10000) :
    join pieces = Utf16.decode (pieces.flatMap Piece.units) := by
  fun_induction join pieces with
  | case1 => rfl
  | case2 c rest ih =>
      rw [List.flatMap_cons, Piece.units, Utf16.decode_units,
        ih fun unit hmem => hsmall unit (List.mem_cons_of_mem _ hmem)]
  | case3 high low rest hpair ih =>
      simp only [isHigh, isLow, Bool.and_eq_true, decide_eq_true_eq] at hpair
      rw [ih fun unit hmem => hsmall unit (List.mem_cons_of_mem _ (List.mem_cons_of_mem _ hmem))]
      simp only [List.flatMap_cons, Piece.units, List.cons_append, List.nil_append]
      rw [Utf16.decode, if_pos hpair, pair]
  | case4 high low rest hpair ih =>
      simp only [isHigh, isLow, Bool.and_eq_true, decide_eq_true_eq] at hpair
      rw [ih fun unit hmem => hsmall unit (List.mem_cons_of_mem _ hmem),
        alone_eq_single (hsmall high List.mem_cons_self)]
      simp only [List.flatMap_cons, Piece.units, List.cons_append, List.nil_append]
      rw [Utf16.decode, if_neg hpair]
  | case5 unit rest hnext ih =>
      rw [ih fun unit hmem => hsmall unit (List.mem_cons_of_mem _ hmem),
        alone_eq_single (hsmall unit List.mem_cons_self), List.flatMap_cons, Piece.units,
        List.singleton_append, Utf16.decode_cons]
      intro next hhead
      cases rest with
      | nil => contradiction
      | cons piece rest =>
          cases piece with
          | char c => exact fun hpair => Utf16.not_trailing_of_mem_head? hhead hpair.2
          | unit low => exact absurd rfl (hnext low rest)

end Escape
end QueryBody
