import QueryBody.Proofs.BrokenToken
import QueryBody.Proofs.QuotedText
import QueryBody.Proofs.Tiling
import Mathlib.Tactic

/-!
# Texts of tokens

The text of a token is what the body has at its place, and a closed string has its two
quotes to take off.
-/

namespace QueryBody

/-- The body has the token's text at its place, and the quotes of a closed string can be taken
off. -/
structure Lexeme.IsSliceOf (source : String) (lexeme : Lexeme) : Prop where
  slice : Utf8.slice? lexeme.span.start lexeme.span.stop source.toList = some lexeme.text
  content : lexeme.kind = .string ∨ lexeme.kind = .invalidString →
    Utf8.slice? 1 (Utf8.size lexeme.text - 1) lexeme.text = some lexeme.content

namespace Lexer

theorem exists_append_of_mem_place {offset : Nat} {pieces : List (Kind × List Char)}
    {lexeme : Lexeme} (hmem : lexeme ∈ place offset pieces) :
    ∃ before after, pieces.flatMap Prod.snd = before ++ (lexeme.text ++ after) ∧
      lexeme.span = ⟨offset + Utf8.size before,
        offset + Utf8.size before + Utf8.size lexeme.text⟩ := by
  induction pieces generalizing offset with
  | nil => contradiction
  | cons piece rest ih =>
      rcases List.mem_cons.mp hmem with rfl | hrest
      · exact ⟨[], rest.flatMap Prod.snd, rfl, rfl⟩
      · obtain ⟨before, after, hflat, hspan⟩ := ih hrest
        refine ⟨piece.2 ++ before, after, by simp [hflat], ?_⟩
        rw [hspan, Utf8.size_append, Nat.add_assoc offset]

theorem exists_quotes {text : List Char} {piece : Kind × List Char} (hmem : piece ∈ cut text)
    (hkind : piece.1 = .string) :
    ∃ inner, IsInner inner ∧ piece.2 = '"' :: (inner ++ ['"']) := by
  obtain ⟨c, rest, m, hbegun, rfl⟩ := begun?_of_mem_cut hmem (by rw [hkind]; decide)
  have hstarts := starts_of_begun? hbegun
  rw [show m.kind = .string from hkind] at hstarts
  obtain rfl : c = '"' := by simpa [starts] using hstarts
  cases hbegun
  obtain ⟨inner, hinner, htext⟩ := exists_isInner_of_string hkind
  exact ⟨inner, hinner, by rw [htext]⟩

/-- No piece of a text is of a kind that only a check can give it. -/
theorem kind_of_mem_cut {text : List Char} {piece : Kind × List Char} (hmem : piece ∈ cut text) :
    piece.1 ≠ .invalidString ∧ piece.1 ≠ .endOfInput := by
  by_cases hgarbage : piece.1 = .garbage
  · rw [hgarbage]
    decide
  · obtain ⟨c, rest, m, hbegun, rfl⟩ := begun?_of_mem_cut hmem hgarbage
    have hstarts := starts_of_begun? hbegun
    constructor <;> (intro hkind; rw [show m.kind = _ from hkind] at hstarts; contradiction)

theorem string_of_checked {kind : Kind} {text : List Char}
    (hchecked : checked kind text = .string ∨ checked kind text = .invalidString)
    (hkind : kind ≠ .invalidString) : kind = .string := by
  unfold checked at hchecked
  split at hchecked
  · rfl
  · split at hchecked <;> simp at hchecked
  · rcases hchecked with hstring | hinvalid
    · exact hstring
    · exact absurd hinvalid hkind

end Lexer

theorem exists_append_of_mem_lex {source : String} {lexeme : Lexeme} (hmem : lexeme ∈ lex source) :
    ∃ before after, source.toList = before ++ (lexeme.text ++ after) ∧
      lexeme.span = ⟨Utf8.size before, Utf8.size before + Utf8.size lexeme.text⟩ := by
  obtain ⟨before, after, hflat, hspan⟩ := Lexer.exists_append_of_mem_place hmem
  rw [Lexer.flatMap_cut] at hflat
  exact ⟨before, after, hflat, by rw [hspan, Nat.zero_add]⟩

theorem isSliceOf_of_mem_lex {source : String} {lexeme : Lexeme} (hmem : lexeme ∈ lex source) :
    lexeme.IsSliceOf source where
  slice := by
    obtain ⟨before, after, hsource, hspan⟩ := exists_append_of_mem_lex hmem
    rw [hspan, hsource]
    exact Utf8.slice?_append before lexeme.text after
  content := by
    intro hkind
    obtain ⟨kind, hpiece, hchecked⟩ := Lexer.mem_place hmem
    rw [hchecked] at hkind
    have hstring := Lexer.string_of_checked hkind (Lexer.kind_of_mem_cut hpiece).1
    obtain ⟨inner, _, hinner⟩ := Lexer.exists_quotes hpiece hstring
    have htext : lexeme.text = ['"'] ++ (inner ++ ['"']) := hinner
    have hcontent : lexeme.content = inner := by simp [Lexeme.content, htext]
    have hstop : Utf8.size lexeme.text - 1 = Utf8.size ['"'] + Utf8.size inner := by
      have hquote : Utf8.size ['"'] = 1 := by decide
      rw [htext, Utf8.size_append, Utf8.size_append, hquote]
      omega
    rw [hstop, htext, hcontent]
    exact Utf8.slice?_append ['"'] inner ['"']

theorem kind_ne_endOfInput {source : String} {lexeme : Lexeme} (hmem : lexeme ∈ lex source) :
    lexeme.kind ≠ .endOfInput := by
  obtain ⟨kind, hpiece, hchecked⟩ := Lexer.mem_place hmem
  intro hkind
  have hsame := Lexer.eq_of_checked (hchecked.symm.trans hkind) (by decide) (by decide)
  exact (Lexer.kind_of_mem_cut hpiece).2 hsame

theorem Tiles.length_le {first last : Nat} {lexemes : List Lexeme}
    (htiles : Tiles first last lexemes) : first + lexemes.length ≤ last := by
  induction lexemes generalizing first with
  | nil => exact Nat.le_of_eq htiles
  | cons lexeme rest ih =>
      obtain ⟨_, hstop, hrest⟩ := htiles
      have hle := ih hrest
      rw [List.length_cons]
      omega

/-- No token is empty, so a body has at most as many tokens as bytes. -/
theorem length_lex_le (source : String) : (lex source).length ≤ Utf8.size source.toList := by
  have hle := (tiles_lex source).length_le
  omega

end QueryBody
