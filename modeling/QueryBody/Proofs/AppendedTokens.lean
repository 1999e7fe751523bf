import QueryBody.Proofs.Continuation
import Mathlib.Tactic

/-!
# Tokens of a text that goes on

The tokens of a body, but for its last one, stay what they are when the body goes on.
The last one stays too if it is of a kind that ends before any character.
-/

namespace QueryBody
namespace Lexer

theorem comment?_eq_none_iff (c : Char) (text : List Char) :
    comment? (c :: text) = none ↔ c ≠ '/' ∧ c ≠ '*' := by
  unfold comment?
  split
  next hslash => simp [(List.cons.inj hslash).1]
  next hstar => simp [(List.cons.inj hstar).1]
  next hslash hstar =>
    refine ⟨fun _ => ⟨?_, ?_⟩, fun _ => rfl⟩
    · rintro rfl
      exact hslash text rfl
    · rintro rfl
      exact hstar text rfl

theorem begun?_append_eq_none_iff {c : Char} {text : List Char} (htext : text ≠ [])
    (more : List Char) : begun? c (text ++ more) = none ↔ begun? c text = none := by
  have hbegins := begins c
  generalize begun? c = scan at hbegins ⊢
  cases hbegins with
  | comment =>
      obtain ⟨d, rest, rfl⟩ := List.exists_cons_of_ne_nil htext
      rw [List.cons_append, comment?_eq_none_iff, comment?_eq_none_iff]
  | _ => simp

theorem isSome_begun?_append {c : Char} {text : List Char}
    (hsome : (begun? c text).isSome = true) (more : List Char) :
    (begun? c (text ++ more)).isSome = true := by
  by_cases htext : text = []
  · have hbegins := begins c
    generalize begun? c = scan at hbegins hsome ⊢
    cases hbegins with
    | comment => rw [htext] at hsome; contradiction
    | nothing hdigit hstart => contradiction
    | _ => rfl
  · rw [← Option.ne_none_iff_isSome] at hsome ⊢
    exact mt (begun?_append_eq_none_iff htext more).mp hsome

theorem garbage_append {text : List Char} (hrest : (garbage text).rest ≠ [])
    (more : List Char) :
    garbage (text ++ more) =
      ⟨.garbage, (garbage text).text, (garbage text).rest ++ more⟩ := by
  induction text with
  | nil => exact absurd rfl hrest
  | cons c text ih =>
      rw [List.cons_append, garbage]
      rw [garbage] at hrest ⊢
      by_cases hsome : (begun? c text).isSome = true
      · simp [hsome, isSome_begun?_append hsome]
      · rw [if_neg hsome] at hrest ⊢
        have hmore : text ≠ [] := by
          rintro rfl
          exact hrest rfl
        have hnone := (begun?_append_eq_none_iff hmore more).mpr (by simpa using hsome)
        rw [hnone, ih hrest]
        rfl

/-- A token that is not the last one, or that ends before any character, stays the same. -/
theorem next_append {c : Char} {text : List Char}
    (hends : (next c text).rest ≠ [] ∨ ∀ d, endsBefore (next c text).kind d = true)
    (more : List Char) :
    next c (text ++ more) =
      ⟨(next c text).kind, (next c text).text, (next c text).rest ++ more⟩ := by
  have hsplits := next_splits c text
  cases hbegun : begun? c text with
  | none =>
      have hnext : next c text = garbage text := by rw [next, hbegun, Option.getD_none]
      rw [hnext] at hends ⊢
      have hrest : (garbage text).rest ≠ [] := by
        refine hends.resolve_right fun hall => ?_
        have hend := hall ' '
        rw [garbage_kind] at hend
        contradiction
      have hmore : text ≠ [] := by
        rintro rfl
        exact hrest rfl
      rw [next, (begun?_append_eq_none_iff hmore more).mpr hbegun, Option.getD_none,
        garbage_append hrest more, garbage_kind]
  | some m =>
      have hnext : next c text = m := by rw [next, hbegun, Option.getD_some]
      rw [hnext] at hends hsplits ⊢
      have hlater : Replaces (endsBefore m.kind) (m.rest ++ more) m.rest := by
        by_cases hrest : m.rest = []
        · rw [hrest]
          exact .of_always (hends.resolve_left (absurd hrest)) _
        · obtain ⟨d, rest, hcons⟩ := List.exists_cons_of_ne_nil hrest
          exact Or.inr (Or.inl (by simp [hcons]))
      have htext : text ++ more = m.text ++ (m.rest ++ more) := by
        rw [← List.append_assoc, hsplits]
      rw [next, htext, begun?_append hbegun hlater, Option.getD_some]

/-- The pieces of a text before some of its pieces are found again if the text goes on. -/
theorem cut_append_text {text : List Char} {front back : List (Kind × List Char)}
    (hcut : cut text = front ++ back)
    (hends : back ≠ [] ∨ ∀ piece ∈ front.getLast?, ∀ d, endsBefore piece.1 d = true)
    (more : List Char) :
    cut (text ++ more) = front ++ cut (back.flatMap Prod.snd ++ more) := by
  induction front generalizing text with
  | nil => rw [← flatMap_cut text, hcut, List.nil_append, List.nil_append]
  | cons piece front ih =>
      cases text with
      | nil =>
          rw [cut, List.cons_append] at hcut
          contradiction
      | cons c text =>
          rw [cut, List.cons_append, List.cons.injEq] at hcut
          obtain ⟨rfl, hrest⟩ := hcut
          have hnext : (next c text).rest ≠ [] ∨
              ∀ d, endsBefore (next c text).kind d = true := by
            by_cases hmore : front ++ back = []
            · obtain ⟨rfl, rfl⟩ := List.append_eq_nil_iff.mp hmore
              exact Or.inr (hends.resolve_left (absurd rfl) _ rfl)
            · refine Or.inl fun hnil => hmore ?_
              rw [← hrest, hnil, cut]
          have hfront : back ≠ [] ∨ ∀ piece ∈ front.getLast?, ∀ d, endsBefore piece.1 d = true := by
            refine hends.imp_right fun hall piece hlast => hall piece ?_
            cases front with
            | nil => contradiction
            | cons second front => simpa using hlast
          rw [List.cons_append, cut, next_append hnext more, ih hrest hfront, List.cons_append]

theorem eq_nil_of_cut_eq_nil {text : List Char} (hcut : cut text = []) : text = [] := by
  have htext := flatMap_cut text
  rwa [hcut, List.flatMap_nil, eq_comm] at htext

theorem cut_flatMap {text : List Char} {front back : List (Kind × List Char)}
    (hcut : cut text = front ++ back) : cut (back.flatMap Prod.snd) = back := by
  by_cases hback : back = []
  · rw [hback, List.flatMap_nil, cut]
  · have hagain := cut_append_text hcut (Or.inl hback) []
    rwa [List.append_nil, List.append_nil, hcut, List.append_cancel_left_eq, eq_comm] at hagain

theorem endsBefore_of_checked {kind : Kind} {text : List Char} {c : Char}
    (hends : endsBefore (checked kind text) c = true) : endsBefore kind c = true := by
  unfold checked at hends
  split at hends
  · rfl
  · split at hends
    · exact hends
    · contradiction
  · exact hends

end Lexer

open Lexer

theorem exists_lex_append {source : String} {front back : List Lexeme}
    (hlex : lex source = front ++ back)
    (hends : back ≠ [] ∨ ∀ lexeme ∈ front.getLast?, ∀ d, endsBefore lexeme.kind d = true)
    (more : String) : ∃ later, lex (source ++ more) = front ++ later := by
  obtain ⟨first, second, hcut, rfl, rfl⟩ := eq_append_of_place hlex
  have hpieces : second ≠ [] ∨ ∀ piece ∈ first.getLast?, ∀ d, endsBefore piece.1 d = true := by
    refine hends.imp (fun hback hsecond => hback (by rw [hsecond]; rfl)) ?_
    intro hall piece hlast d
    obtain ⟨last, hmem, hkind⟩ := getLast?_place hlast 0
    exact endsBefore_of_checked (hkind ▸ hall last hmem d)
  rw [lex, String.toList_append, cut_append_text hcut hpieces, place_append]
  exact ⟨_, rfl⟩

/-- Whatever a body goes on with, all its tokens but the last one stay as they are. -/
theorem lex_dropLast_isPrefix_append (source more : String) :
    (lex source).dropLast <+: lex (source ++ more) := by
  obtain hnil | ⟨front, last, hlex⟩ := List.eq_nil_or_concat' (lex source)
  · rw [hnil, List.dropLast_nil]
    exact List.nil_prefix
  · obtain ⟨later, hlater⟩ := exists_lex_append hlex (Or.inl (List.cons_ne_nil last [])) more
    rw [hlex, List.dropLast_concat, hlater]
    exact List.prefix_append front later

end QueryBody
