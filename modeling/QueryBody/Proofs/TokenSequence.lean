import QueryBody.Proofs.ClosingQuotes
import QueryBody.Proofs.NumberGrammar
import Mathlib.Tactic

/-!
# The tokens of a body

The tokens take up the body without gaps and without overlaps, a run of garbage ends only
where another token begins, and numbers and strings are what their kinds promise.
-/

namespace QueryBody
namespace Lexer

theorem kind_of_begun? {c : Char} {text : List Char} {m : Match} (hfound : begun? c text = some m) :
    m.kind ≠ .garbage := by
  intro hkind
  have hstarts := starts_of_begun? hfound
  rw [hkind] at hstarts
  contradiction

theorem kind_next_of_isSome {c : Char} {text : List Char} (hsome : (begun? c text).isSome = true) :
    (next c text).kind ≠ .garbage := by
  obtain ⟨m, hfound⟩ := Option.isSome_iff_exists.mp hsome
  rw [next, hfound, Option.getD_some]
  exact kind_of_begun? hfound

theorem isSome_of_garbage_rest {text rest : List Char} {c : Char}
    (hrest : (garbage text).rest = c :: rest) : (begun? c rest).isSome = true := by
  induction text with
  | nil => contradiction
  | cons d text ih =>
      rw [garbage] at hrest
      split at hrest
      next hsome =>
        cases hrest
        exact hsome
      · exact ih hrest

theorem isSome_of_next_rest {c d : Char} {text rest : List Char}
    (hkind : (next c text).kind = .garbage) (hrest : (next c text).rest = d :: rest) :
    (begun? d rest).isSome = true := by
  unfold next at hkind hrest
  cases hfound : begun? c text with
  | none =>
      rw [hfound, Option.getD_none] at hrest
      exact isSome_of_garbage_rest hrest
  | some m =>
      rw [hfound, Option.getD_some] at hkind
      exact absurd hkind (kind_of_begun? hfound)

/-- No piece of garbage follows another. -/
theorem isChain_cut (text : List Char) :
    (cut text).IsChain fun first second => first.1 = .garbage → second.1 ≠ .garbage := by
  fun_induction cut text with
  | case1 => exact .nil
  | case2 c text ih =>
      refine List.isChain_cons.mpr ⟨?_, ih⟩
      intro second hhead hgarbage
      cases hrest : (next c text).rest with
      | nil =>
          rw [hrest, cut] at hhead
          contradiction
      | cons d rest =>
          rw [hrest, cut, List.head?_cons, Option.mem_some_iff] at hhead
          rw [← hhead]
          exact kind_next_of_isSome (isSome_of_next_rest hgarbage hrest)

theorem checked_eq_garbage_iff {kind : Kind} {text : List Char} :
    checked kind text = .garbage ↔ kind = .garbage := by
  constructor
  · intro hchecked
    exact eq_of_checked hchecked (by decide) (by decide)
  · rintro rfl
    rfl

theorem map_kind_place (offset : Nat) (pieces : List (Kind × List Char)) :
    (place offset pieces).map (fun lexeme => lexeme.kind) =
      pieces.map fun piece => checked piece.1 piece.2 := by
  induction pieces generalizing offset with
  | nil => rfl
  | cons piece rest ih => rw [place, List.map_cons, List.map_cons, ih]; rfl

theorem isChain_place (offset : Nat) {pieces : List (Kind × List Char)}
    (hpieces : pieces.IsChain fun first second => first.1 = .garbage → second.1 ≠ .garbage) :
    (place offset pieces).IsChain fun first second =>
      first.kind = .garbage → second.kind ≠ .garbage := by
  have hkinds : ((place offset pieces).map fun lexeme => lexeme.kind).IsChain fun first second =>
      first = .garbage → second ≠ .garbage := by
    rw [map_kind_place, List.isChain_map]
    refine hpieces.imp fun first second hapart => ?_
    simpa only [ne_eq, checked_eq_garbage_iff] using hapart
  rwa [List.isChain_map] at hkinds

end Lexer

/-- The tokens take up the body in order, from its first byte to its last, and every token is what
its kind promises. -/
structure TakesUp (source : String) (lexemes : List Lexeme) : Prop where
  tiles : Tiles 0 (Utf8.size source.toList) lexemes
  texts : lexemes.flatMap Lexeme.text = source.toList
  slice : ∀ lexeme ∈ lexemes,
    Utf8.slice? lexeme.span.start lexeme.span.stop source.toList = some lexeme.text
  apart : lexemes.IsChain fun first second => first.kind = .garbage → second.kind ≠ .garbage
  kind : ∀ lexeme ∈ lexemes, lexeme.kind ≠ .endOfInput
  number : ∀ lexeme ∈ lexemes, lexeme.kind = .number → JsonText.IsNumber lexeme.text
  string : ∀ lexeme ∈ lexemes, lexeme.kind = .string →
    ∃ content text, IsInner content ∧ lexeme.text = '"' :: (content ++ ['"']) ∧
      unescape content = .ok text

open Lexer

theorem exists_content_of_mem_lex {source : String} {lexeme : Lexeme} (hmem : lexeme ∈ lex source)
    (hkind : lexeme.kind = .string) :
    ∃ content text, IsInner content ∧ lexeme.text = '"' :: (content ++ ['"']) ∧
      unescape content = .ok text := by
  have hread := unescape_content_of_mem_lex hmem hkind
  obtain ⟨kind, hpiece, hchecked⟩ := mem_place hmem
  have hstring := eq_of_checked (hchecked.symm.trans hkind) (by decide) (by decide)
  obtain ⟨inner, hinner, htext⟩ := exists_quotes hpiece hstring
  have hcontent : lexeme.text = '"' :: (inner ++ ['"']) := htext
  rw [Lexeme.content, hcontent, List.tail_cons, List.dropLast_concat] at hread
  exact ⟨inner, _, hinner, hcontent, hread⟩

/-- Whatever the body is, its tokens take it up. -/
theorem lex_takesUp (source : String) : TakesUp source (lex source) where
  tiles := tiles_lex source
  texts := flatMap_lex source
  slice _ hmem := (isSliceOf_of_mem_lex hmem).slice
  apart := isChain_place 0 (isChain_cut source.toList)
  kind _ hmem := kind_ne_endOfInput hmem
  number _ hmem hkind := Shape.isNumber_of_complete ((isLegible_of_mem_lex hmem).number hkind)
  string _ hmem hkind := exists_content_of_mem_lex hmem hkind

end QueryBody
