import QueryBody.Proofs.Lookahead
import QueryBody.Text.Quoted
import Mathlib.Tactic

/-!
# Written strings are string tokens

The written form of a text is taken whole by the scanner of strings, and what is
between its quotes decodes to the text.
-/

namespace QueryBody
namespace Escape

open Quoted (hexDigit)

/-- What the written form of a character is read as. -/
def pieceOf (c : Char) : Piece :=
  if c < ' ' ∧ c ∉ ['\x08', '\x0c', '\n', '\r', '\t'] then .unit c.toNat else .char c

theorem unit?_hexDigit {n : Nat} (hsmall : n < 32) :
    unit? '0' '0' (hexDigit (n / 16)) (hexDigit n) = some n := by
  interval_cases n <;> decide

theorem lt_blank_iff (c : Char) : c < ' ' ↔ c.toNat < 32 := by
  rw [Char.lt_def, UInt32.lt_iff_toNat_lt]
  rfl

theorem pieces_plain {c : Char} (hslash : c ≠ '\\') (hprinted : ¬c < ' ') (rest : List Char) :
    pieces (c :: rest) = (pieces rest).map (.char c :: ·) := by
  rw [pieces]
  · rw [if_neg hprinted]
  all_goals simp [hslash]

theorem pieces_short {e c : Char} (hunicode : e ≠ 'u') (hshort : short? e = some c)
    (rest : List Char) : pieces ('\\' :: e :: rest) = (pieces rest).map (.char c :: ·) := by
  rw [pieces]
  · rw [hshort]
  all_goals simp [hunicode]

theorem pieces_escape (c : Char) (rest : List Char) :
    pieces (Quoted.escape c ++ rest) = (pieces rest).map (pieceOf c :: ·) := by
  unfold Quoted.escape
  split
  · exact pieces_short (by decide) rfl rest
  · exact pieces_short (by decide) rfl rest
  · exact pieces_short (by decide) rfl rest
  · exact pieces_short (by decide) rfl rest
  · exact pieces_short (by decide) rfl rest
  · exact pieces_short (by decide) rfl rest
  · exact pieces_short (by decide) rfl rest
  next hquote hslash hback hfeed hline hreturn htab =>
    have hother : c ∉ ['\x08', '\x0c', '\n', '\r', '\t'] := by
      simp only [List.mem_cons, List.not_mem_nil, or_false]
      rintro (hsame | hsame | hsame | hsame | hsame)
      · exact hback hsame
      · exact hfeed hsame
      · exact hline hsame
      · exact hreturn hsame
      · exact htab hsame
    by_cases hcontrol : c < ' '
    · have hunit := unit?_hexDigit ((lt_blank_iff c).mp hcontrol)
      rw [if_pos hcontrol, pieceOf, if_pos ⟨hcontrol, hother⟩]
      simp only [List.cons_append, List.nil_append]
      rw [pieces, hunit]
    · have hpiece : pieceOf c = .char c := by simp [pieceOf, hcontrol]
      rw [if_neg hcontrol, hpiece]
      exact pieces_plain hslash hcontrol rest

theorem join_pieceOf (c : Char) (rest : List Piece) :
    join (pieceOf c :: rest) = c :: join rest := by
  unfold pieceOf
  split
  next hcontrol =>
    have hsmall := (lt_blank_iff c).mp hcontrol.1
    have halone : alone c.toNat = c := by
      have hvalid : c.toNat.isValidChar := c.valid
      rw [alone, if_pos hvalid, Char.ofNat_toNat]
    have hhigh : isHigh c.toNat = false := by
      simp only [isHigh, Bool.and_eq_false_iff, decide_eq_false_iff_not]
      omega
    cases rest with
    | nil => simp [join, halone]
    | cons piece rest => cases piece <;> simp [join, halone, hhigh]
  · rfl

theorem pieces_flatMap_escape (text : List Char) :
    pieces (text.flatMap Quoted.escape) = .ok (text.map pieceOf) := by
  induction text with
  | nil => rfl
  | cons c text ih =>
      rw [List.flatMap_cons, pieces_escape, ih]
      rfl

theorem join_map_pieceOf (text : List Char) : join (text.map pieceOf) = text := by
  induction text with
  | nil => rfl
  | cons c text ih => rw [List.map_cons, join_pieceOf, ih]

end Escape

/-- What is written for a text is read as the text. -/
theorem unescape_flatMap_escape (text : List Char) :
    unescape (text.flatMap Quoted.escape) = .ok text := by
  rw [unescape, Escape.pieces_flatMap_escape]
  exact congrArg Except.ok (Escape.join_map_pieceOf text)

namespace Lexer

theorem quoted_plain {c : Char} (hquote : c ≠ '"') (hslash : c ≠ '\\') (text : List Char) :
    quoted (c :: text) = (quoted text).after c := by
  rw [quoted]
  all_goals simp [hquote, hslash]

theorem quoted_escaped {c : Char} (hline : c ≠ '\n') (text : List Char) :
    quoted ('\\' :: c :: text) = ((quoted text).after c).after '\\' := by
  rw [quoted]
  simp [hline]

theorem hexDigit_plain (n : Nat) : Quoted.hexDigit n ≠ '"' ∧ Quoted.hexDigit n ≠ '\\' := by
  unfold Quoted.hexDigit
  have hsmall : n % 16 < 16 := Nat.mod_lt n (by decide)
  generalize n % 16 = digit at hsmall ⊢
  interval_cases digit <;> decide

theorem quoted_escape (c : Char) {text : List Char}
    (htext : quoted text = ⟨.string, text, []⟩) :
    quoted (Quoted.escape c ++ text) = ⟨.string, Quoted.escape c ++ text, []⟩ := by
  have hshort : ∀ e : Char, e ≠ '\n' →
      quoted (['\\', e] ++ text) = ⟨.string, ['\\', e] ++ text, []⟩ := by
    intro e hline
    rw [List.cons_append, List.singleton_append, quoted_escaped hline, htext]
    rfl
  unfold Quoted.escape
  split
  · exact hshort _ (by decide)
  · exact hshort _ (by decide)
  · exact hshort _ (by decide)
  · exact hshort _ (by decide)
  · exact hshort _ (by decide)
  · exact hshort _ (by decide)
  · exact hshort _ (by decide)
  next hquote hslash _ _ _ _ _ =>
    split
    · have hhigh := hexDigit_plain (c.toNat / 16)
      have hlow := hexDigit_plain c.toNat
      simp only [List.cons_append, List.nil_append]
      rw [quoted_escaped (by decide), quoted_plain (by decide) (by decide),
        quoted_plain (by decide) (by decide), quoted_plain hhigh.1 hhigh.2,
        quoted_plain hlow.1 hlow.2, htext]
      rfl
    · rw [List.singleton_append, quoted_plain hquote hslash, htext]
      rfl

theorem quoted_flatMap_escape (text : List Char) :
    quoted (text.flatMap Quoted.escape ++ ['"']) =
      ⟨.string, text.flatMap Quoted.escape ++ ['"'], []⟩ := by
  induction text with
  | nil => rfl
  | cons c text ih =>
      rw [List.flatMap_cons, List.append_assoc]
      exact quoted_escape c ih

/-- A written string is one string token. -/
theorem begun?_encode (text : List Char) :
    ∃ body, Quoted.encode text = '"' :: body ∧ begun? '"' body = some ⟨.string, body, []⟩ :=
  ⟨text.flatMap Quoted.escape ++ ['"'], rfl, congrArg some (quoted_flatMap_escape text)⟩

theorem content_encode (text : List Char) :
    (Quoted.encode text).tail.dropLast = text.flatMap Quoted.escape := by
  simp [Quoted.encode]

theorem checked_encode (text : List Char) :
    checked .string (Quoted.encode text) = .string := by
  simp only [checked, content_encode, unescape_flatMap_escape]
  rfl

end Lexer

theorem Lexeme.string_of_encode {lexeme : Lexeme} {text : List Char}
    (htext : lexeme.text = Quoted.encode text) : lexeme.string = String.ofList text := by
  have hcontent : lexeme.content = text.flatMap Quoted.escape := by
    rw [content, htext, Lexer.content_encode]
  rw [string, hcontent, unescape_flatMap_escape]

end QueryBody
