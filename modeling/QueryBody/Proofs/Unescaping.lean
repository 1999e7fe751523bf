import QueryBody.Proofs.JsonGrammar
import QueryBody.Proofs.StringToken
import Mathlib.Tactic

/-!
# What the content of a string stands for

A content is read item by item, an item being a raw character or an escape.  If one of them
cannot be read, the first one decides how the content fails; otherwise the content stands
for the text of the code units of its items.
-/

namespace QueryBody
namespace JsonText

theorem short?_of_mem {e c : Char} (hletter : (e, c) ∈ letterEscapes) :
    Escape.short? e = some c ∧ e ≠ 'u' ∧ e ≠ '\n' := by
  have hall : ∀ escape ∈ letterEscapes,
      Escape.short? escape.1 = some escape.2 ∧ escape.1 ≠ 'u' ∧ escape.1 ≠ '\n' := by decide
  exact hall _ hletter

theorem mem_of_short? {e c : Char} (hshort : Escape.short? e = some c) :
    (e, c) ∈ letterEscapes := by
  unfold Escape.short? at hshort
  split at hshort <;> first | (cases hshort; decide) | contradiction

namespace IsHexDigit

variable {c : Char} {value : Nat}

theorem lt (hdigit : IsHexDigit c value) : value < 16 := by
  rcases hdigit with hlower | hupper
  · exact (List.getElem?_eq_some_iff.mp hlower).1
  · exact (List.getElem?_eq_some_iff.mp hupper).1

theorem hexValue?_eq (hdigit : IsHexDigit c value) : Escape.hexValue? c = some value := by
  have hsmall := hdigit.lt
  rcases hdigit with hlower | hupper
  · interval_cases value <;> cases hlower <;> decide
  · interval_cases value <;> cases hupper <;> decide

theorem of_hexValue? (hvalue : Escape.hexValue? c = some value) : IsHexDigit c value := by
  have hrange {low high : Char} (h : low ≤ c ∧ c ≤ high) :
      low.toNat ≤ c.toNat ∧ c.toNat ≤ high.toNat := by
    simpa [Char.le_def, UInt32.le_iff_toNat_le] using h
  have hchar := (Char.ofNat_toNat c).symm
  unfold Escape.hexValue? at hvalue
  generalize c.toNat = code at hvalue hrange hchar
  subst hchar
  split at hvalue
  next hdecimal =>
    obtain ⟨hlow, hhigh⟩ : 48 ≤ code ∧ code ≤ 57 := hrange hdecimal
    cases hvalue
    exact Or.inl (by interval_cases code <;> rfl)
  · split at hvalue
    next hlower =>
      obtain ⟨hlow, hhigh⟩ : 97 ≤ code ∧ code ≤ 102 := hrange hlower
      cases hvalue
      exact Or.inl (by interval_cases code <;> rfl)
    · split at hvalue
      next hupper =>
        obtain ⟨hlow, hhigh⟩ : 65 ≤ code ∧ code ≤ 70 := hrange hupper
        cases hvalue
        exact Or.inr (by interval_cases code <;> rfl)
      · contradiction

end IsHexDigit
end JsonText

namespace Escape

open JsonText (IsHexDigit letterEscapes)

/-- A raw character or an escape, and the code units that it stands for. -/
inductive IsItem : List Char → List Nat → Prop
  | char {c : Char} (hslash : c ≠ '\\') (hprinted : 0x20 ≤ c.toNat) :
      IsItem [c] (Utf16.units c)
  | letter {e c : Char} (hletter : (e, c) ∈ letterEscapes) : IsItem ['\\', e] (Utf16.units c)
  | unit {a b c d : Char} {w x y z : Nat} (ha : IsHexDigit a w) (hb : IsHexDigit b x)
      (hc : IsHexDigit c y) (hd : IsHexDigit d z) :
      IsItem ['\\', 'u', a, b, c, d] [((w * 16 + x) * 16 + y) * 16 + z]

/-- Items one after the other, and the code units that they stand for. -/
inductive AreItems : List Char → List Nat → Prop
  | nil : AreItems [] []
  | cons {item rest : List Char} {first units : List Nat} (hitem : IsItem item first)
      (hrest : AreItems rest units) : AreItems (item ++ rest) (first ++ units)

/-- The text begins with four hexadecimal digits. -/
def BeginsWithUnit (text : List Char) : Prop :=
  ∃ a b c d rest, text = a :: b :: c :: d :: rest ∧
    ∀ digit ∈ [a, b, c, d], ∃ value, IsHexDigit digit value

/-- The text begins with something that cannot be read, for a reason. -/
inductive Fails : List Char → EscapeError → Prop
  | control {c : Char} (rest : List Char) (hcontrol : c.toNat < 0x20) :
      Fails (c :: rest) (.controlCharacter c)
  | letter {e : Char} (rest : List Char) (hunicode : e ≠ 'u')
      (hletter : ∀ c, (e, c) ∉ letterEscapes) : Fails ('\\' :: e :: rest) (.unknownEscape e)
  | unit {rest : List Char} (hdigits : ¬BeginsWithUnit rest) :
      Fails ('\\' :: 'u' :: rest) .badUnicode
  | slash : Fails ['\\'] (.unknownEscape '"')

variable {content item front rest : List Char} {units : List Nat} {error : EscapeError}

/-! ### Every content can be read to its end or fails at an item -/

theorem item_or_fails (c : Char) (rest : List Char) :
    (∃ item units later, IsItem item units ∧ c :: rest = item ++ later ∧
        later.length ≤ rest.length) ∨
      ∃ error, Fails (c :: rest) error := by
  by_cases hslash : c = '\\'
  · subst hslash
    cases rest with
    | nil => exact Or.inr ⟨_, .slash⟩
    | cons e rest =>
        by_cases hunicode : e = 'u'
        · subst hunicode
          by_cases hdigits : BeginsWithUnit rest
          · obtain ⟨a, b, c, d, later, rfl, hall⟩ := hdigits
            simp only [List.forall_mem_cons] at hall
            obtain ⟨⟨w, ha⟩, ⟨x, hb⟩, ⟨y, hc⟩, ⟨z, hd⟩, _⟩ := hall
            have hle : later.length ≤ ('u' :: a :: b :: c :: d :: later).length := by
              simp only [List.length_cons]
              omega
            exact Or.inl ⟨_, _, later, .unit ha hb hc hd, rfl, hle⟩
          · exact Or.inr ⟨_, .unit hdigits⟩
        · by_cases hletter : ∃ c, (e, c) ∈ letterEscapes
          · obtain ⟨c, hmem⟩ := hletter
            exact Or.inl ⟨_, _, rest, .letter hmem, rfl, by simp⟩
          · exact Or.inr ⟨_, .letter rest hunicode (not_exists.mp hletter)⟩
  · by_cases hcontrol : c.toNat < 0x20
    · exact Or.inr ⟨_, .control rest hcontrol⟩
    · exact Or.inl ⟨_, _, rest, .char hslash (not_lt.mp hcontrol), rfl, le_rfl⟩

theorem items_or_fails (content : List Char) :
    (∃ units, AreItems content units) ∨
      ∃ front units rest error, AreItems front units ∧ content = front ++ rest ∧
        Fails rest error := by
  induction hlength : content.length using Nat.strong_induction_on generalizing content with
  | _ length ih =>
    cases content with
    | nil => exact Or.inl ⟨[], .nil⟩
    | cons c rest =>
        rcases item_or_fails c rest with ⟨item, first, later, hitem, htext, hle⟩ | ⟨error, hfails⟩
        · rw [htext]
          rw [List.length_cons] at hlength
          rcases ih later.length (by omega) later rfl with
            ⟨units, hitems⟩ | ⟨front, units, rest, error, hfront, rfl, hfails⟩
          · exact Or.inl ⟨_, .cons hitem hitems⟩
          · exact Or.inr ⟨item ++ front, _, rest, error, .cons hitem hfront,
              (List.append_assoc _ _ _).symm, hfails⟩
        · exact Or.inr ⟨[], [], c :: rest, error, .nil, rfl, hfails⟩

/-! ### How items and failures are read -/

/-- An item is read as one piece. -/
theorem pieces_item (hitem : IsItem item units) :
    ∃ piece : Piece, piece.units = units ∧ (∀ unit, piece = .unit unit → unit < 0x10000) ∧
      ∀ rest, pieces (item ++ rest) = (pieces rest).map (piece :: ·) := by
  cases hitem with
  | @char c hslash hprinted =>
      refine ⟨.char c, rfl, by simp, fun rest => pieces_plain hslash ?_ rest⟩
      rw [lt_blank_iff]
      omega
  | @letter e c hletter =>
      obtain ⟨hshort, hunicode, _⟩ := JsonText.short?_of_mem hletter
      exact ⟨.char c, rfl, by simp, pieces_short hunicode hshort⟩
  | @unit a b c d w x y z ha hb hc hd =>
      have hunit : unit? a b c d = some (((w * 16 + x) * 16 + y) * 16 + z) := by
        simp [unit?, ha.hexValue?_eq, hb.hexValue?_eq, hc.hexValue?_eq, hd.hexValue?_eq]
      refine ⟨.unit (((w * 16 + x) * 16 + y) * 16 + z), rfl, ?_, ?_⟩
      · intro unit hsame
        cases hsame
        have hw := ha.lt
        have hx := hb.lt
        have hy := hc.lt
        have hz := hd.lt
        omega
      · intro rest
        simp only [List.cons_append, List.nil_append]
        rw [pieces, hunit]

theorem pieces_items (hitems : AreItems front units) :
    ∃ first : List Piece, first.flatMap Piece.units = units ∧
      (∀ unit, .unit unit ∈ first → unit < 0x10000) ∧
      ∀ rest, pieces (front ++ rest) = (pieces rest).map (first ++ ·) := by
  induction hitems with
  | nil =>
      refine ⟨[], rfl, by simp, fun rest => ?_⟩
      cases hrest : pieces rest <;> simp [hrest, Except.map]
  | cons hitem _ ih =>
      obtain ⟨piece, rfl, hsmall, hpiece⟩ := pieces_item hitem
      obtain ⟨first, rfl, hsmaller, hfirst⟩ := ih
      refine ⟨piece :: first, rfl, ?_, ?_⟩
      · intro unit hmem
        rcases List.mem_cons.mp hmem with hsame | hlater
        · exact hsmall unit hsame.symm
        · exact hsmaller unit hlater
      · intro rest
        rw [List.append_assoc, hpiece, hfirst]
        cases pieces rest <;> rfl

theorem beginsWithUnit_of_unit? {a b c d : Char} {unit : Nat} (hunit : unit? a b c d = some unit)
    (rest : List Char) : BeginsWithUnit (a :: b :: c :: d :: rest) := by
  simp only [unit?, Option.bind_eq_bind, Option.bind_eq_some_iff] at hunit
  obtain ⟨w, ha, x, hb, y, hc, z, hd, _⟩ := hunit
  refine ⟨a, b, c, d, rest, rfl, ?_⟩
  simp only [List.forall_mem_cons]
  exact ⟨⟨w, .of_hexValue? ha⟩, ⟨x, .of_hexValue? hb⟩, ⟨y, .of_hexValue? hc⟩,
    ⟨z, .of_hexValue? hd⟩, by simp⟩

theorem pieces_fails (hfails : Fails rest error) : pieces rest = .error error := by
  cases hfails with
  | @control c rest hcontrol =>
      have hslash : c ≠ '\\' := by
        rintro rfl
        contradiction
      rw [pieces]
      · rw [if_pos ((lt_blank_iff c).mpr hcontrol)]
      all_goals simp [hslash]
  | @letter e rest hunicode hletter =>
      have hshort : short? e = none := by
        rw [Option.eq_none_iff_forall_ne_some]
        exact fun c hshort => hletter c (JsonText.mem_of_short? hshort)
      rw [pieces]
      · rw [hshort]
      all_goals simp [hunicode]
  | @unit rest hdigits =>
      rcases rest with _ | ⟨a, _ | ⟨b, _ | ⟨c, _ | ⟨d, rest⟩⟩⟩⟩
      · rfl
      · rfl
      · rfl
      · rfl
      · have hunit : unit? a b c d = none := by
          rw [Option.eq_none_iff_forall_ne_some]
          exact fun unit hunit => hdigits (beginsWithUnit_of_unit? hunit rest)
        rw [pieces, hunit]
  | slash => rfl

end Escape

open Escape

theorem unescape_of_items {content : List Char} {units : List Nat}
    (hitems : AreItems content units) : unescape content = .ok (Utf16.decode units) := by
  obtain ⟨pieces, rfl, hsmall, hread⟩ := pieces_items hitems
  have hwhole : Escape.pieces content = .ok pieces := by
    have hempty := hread []
    rw [List.append_nil] at hempty
    rw [hempty]
    exact congrArg Except.ok (List.append_nil pieces)
  rw [unescape, hwhole, ← join_eq_decode hsmall]
  rfl

theorem unescape_of_fails {front rest : List Char} {units : List Nat} {error : EscapeError}
    (hfront : AreItems front units) (hfails : Fails rest error) :
    unescape (front ++ rest) = .error error := by
  obtain ⟨pieces, _, _, hread⟩ := pieces_items hfront
  rw [unescape, hread, pieces_fails hfails]
  rfl

/-- A content whose items can all be read stands for the text of their code units, in which a
surrogate without its partner is U+FFFD; otherwise it fails as the first item that cannot be
read. -/
theorem unescape_eq_iff (content : List Char) :
    (∀ text, unescape content = .ok text ↔
        ∃ units, AreItems content units ∧ text = Utf16.decode units) ∧
      ∀ error, unescape content = .error error ↔
        ∃ front units rest, AreItems front units ∧ content = front ++ rest ∧
          Fails rest error := by
  constructor
  · intro text
    constructor
    · intro hread
      rcases items_or_fails content with
        ⟨units, hitems⟩ | ⟨front, units, rest, error, hfront, rfl, hfails⟩
      · rw [unescape_of_items hitems] at hread
        exact ⟨units, hitems, (Except.ok.inj hread).symm⟩
      · rw [unescape_of_fails hfront hfails] at hread
        contradiction
    · rintro ⟨units, hitems, rfl⟩
      exact unescape_of_items hitems
  · intro error
    constructor
    · intro hread
      rcases items_or_fails content with
        ⟨units, hitems⟩ | ⟨front, units, rest, first, hfront, rfl, hfails⟩
      · rw [unescape_of_items hitems] at hread
        contradiction
      · rw [unescape_of_fails hfront hfails] at hread
        exact ⟨front, units, rest, hfront, rfl, Except.error.inj hread ▸ hfails⟩
    · rintro ⟨front, units, rest, hfront, rfl, hfails⟩
      exact unescape_of_fails hfront hfails

end QueryBody
