import QueryBody.Proofs.Lookahead
import Mathlib.Tactic

/-!
# Tokens before a cut

The tokens of a body up to some place are the first tokens of every other body that
begins with the same text and goes on with something that does not change the last
of them.
-/

namespace QueryBody
namespace Lexer

theorem place_append (offset : Nat) (front back : List (Kind × List Char)) :
    place offset (front ++ back) =
      place offset front ++ place (offset + Utf8.size (front.flatMap Prod.snd)) back := by
  induction front generalizing offset with
  | nil => simp [place]
  | cons piece front ih =>
      rw [List.cons_append, place, place, ih, List.flatMap_cons, Utf8.size_append,
        Nat.add_assoc, List.cons_append]

theorem eq_append_of_place {offset : Nat} {pieces : List (Kind × List Char)}
    {front back : List Lexeme} (hplace : place offset pieces = front ++ back) :
    ∃ first second, pieces = first ++ second ∧ place offset first = front ∧
      place (offset + Utf8.size (first.flatMap Prod.snd)) second = back := by
  induction front generalizing offset pieces with
  | nil => exact ⟨[], pieces, rfl, rfl, by simpa using hplace⟩
  | cons lexeme front ih =>
      cases pieces with
      | nil => contradiction
      | cons piece pieces =>
          rw [place, List.cons_append, List.cons.injEq] at hplace
          obtain ⟨first, second, hpieces, hfirst, hsecond⟩ := ih hplace.2
          refine ⟨piece :: first, second, by rw [hpieces, List.cons_append], ?_, ?_⟩
          · rw [place, hplace.1, hfirst]
          · rw [List.flatMap_cons, Utf8.size_append, ← Nat.add_assoc]
            exact hsecond

theorem checked_eq_of_sound {kind : Kind} {text : List Char}
    (hsound : (checked kind text).isLexicalError = false) : checked kind text = kind := by
  have hstring : checked kind text ≠ .invalidString := by
    intro hchecked
    rw [hchecked] at hsound
    contradiction
  have hnumber : checked kind text ≠ .malformedNumber := by
    intro hchecked
    rw [hchecked] at hsound
    contradiction
  exact (eq_of_checked rfl hstring hnumber).symm

theorem exists_mem_place {pieces : List (Kind × List Char)} {piece : Kind × List Char}
    (hmem : piece ∈ pieces) (offset : Nat) :
    ∃ lexeme ∈ place offset pieces, lexeme.kind = checked piece.1 piece.2 := by
  induction pieces generalizing offset with
  | nil => contradiction
  | cons first rest ih =>
      rcases List.mem_cons.mp hmem with rfl | hrest
      · exact ⟨_, List.mem_cons_self, rfl⟩
      · obtain ⟨lexeme, hlexeme, hkind⟩ := ih hrest (offset + Utf8.size first.2)
        exact ⟨lexeme, List.mem_cons_of_mem _ hlexeme, hkind⟩

theorem getLast?_place {pieces : List (Kind × List Char)} {piece : Kind × List Char}
    (hlast : piece ∈ pieces.getLast?) (offset : Nat) :
    ∃ last ∈ (place offset pieces).getLast?, last.kind = checked piece.1 piece.2 := by
  induction pieces generalizing offset with
  | nil => contradiction
  | cons first rest ih =>
      cases rest with
      | nil =>
          have hsame : first = piece := by simpa using hlast
          exact ⟨_, rfl, by rw [hsame]; rfl⟩
      | cons second rest =>
          rw [List.getLast?_cons_cons] at hlast
          obtain ⟨last, hmem, hkind⟩ := ih hlast (offset + Utf8.size first.2)
          refine ⟨last, ?_, hkind⟩
          rw [place, place, List.getLast?_cons_cons]
          exact hmem

/-! ### Comments without an end -/

theorem blockComment_rest {text : List Char}
    (hkind : (blockComment text).kind = .unterminatedComment) : (blockComment text).rest = [] := by
  fun_induction blockComment text with
  | case1 => rfl
  | case2 text => contradiction
  | case3 c text hopen ih => exact ih hkind

theorem rest_of_unterminatedComment {c : Char} {text : List Char} {m : Match}
    (hfound : begun? c text = some m) (hkind : m.kind = .unterminatedComment) : m.rest = [] := by
  have hslash : c = '/' := by
    have hstarts := starts_of_begun? hfound
    rw [hkind] at hstarts
    simpa [starts] using hstarts
  subst hslash
  change comment? text = some m at hfound
  unfold comment? at hfound
  split at hfound
  · cases hfound
    contradiction
  · cases hfound
    exact blockComment_rest hkind
  · contradiction

/-- A comment without an end is the last piece. -/
theorem eq_nil_of_cut {text : List Char} {front back : List (Kind × List Char)}
    {piece : Kind × List Char} (hcut : cut text = front ++ piece :: back)
    (hkind : piece.1 = .unterminatedComment) : back = [] := by
  fun_induction cut text generalizing front with
  | case1 => simp at hcut
  | case2 c text ih =>
      cases front with
      | cons first front => exact ih (List.cons.inj hcut).2
      | nil =>
          have hfound : piece.1 ≠ .garbage := by
            rw [hkind]
            decide
          have hwhole : cut (c :: text) = piece :: back := by rwa [cut]
          obtain ⟨m, hbegun, rfl, hback⟩ := begun?_of_cut hwhole hfound
          rw [hback, rest_of_unterminatedComment hbegun hkind, cut]

end Lexer

theorem eq_nil_of_unterminatedComment {source : String} {front back : List Lexeme}
    {lexeme : Lexeme} (hlex : lex source = front ++ lexeme :: back)
    (hkind : lexeme.kind = .unterminatedComment) : back = [] := by
  obtain ⟨first, second, hcut, _, hsecond⟩ := Lexer.eq_append_of_place hlex
  cases second with
  | nil => contradiction
  | cons piece second =>
      rw [Lexer.place, List.cons.injEq] at hsecond
      obtain ⟨rfl, rfl⟩ := hsecond
      have hpiece := Lexer.eq_of_checked hkind (by decide) (by decide)
      rw [Lexer.eq_nil_of_cut hcut hpiece, Lexer.place]

open Lexer in
/-- A body that is continued in another way keeps its tokens before the change. -/
theorem lex_append {source : String} {front back : List Lexeme} {later : List Char}
    (hlex : lex source = front ++ back) (hfront : ∀ lexeme ∈ front, lexeme.kind ≠ .garbage)
    (hlast : ∀ last ∈ front.getLast?, last.kind.isLexicalError = false ∧
      Replaces (endsBefore last.kind) later (back.flatMap Lexeme.text)) :
    lex (String.ofList (front.flatMap Lexeme.text ++ later)) =
      front ++ place (Utf8.size (front.flatMap Lexeme.text)) (cut later) := by
  obtain ⟨first, second, hcut, rfl, rfl⟩ := eq_append_of_place hlex
  have hgarbage : ∀ piece ∈ first, piece.1 ≠ .garbage := by
    intro piece hmem hkind
    obtain ⟨lexeme, hlexeme, hchecked⟩ := exists_mem_place hmem 0
    apply hfront lexeme hlexeme
    rw [hchecked, hkind]
    rfl
  have hends : ∀ piece ∈ first.getLast?,
      Replaces (endsBefore piece.1) later (second.flatMap Prod.snd) := by
    intro piece hmem
    obtain ⟨last, hlastMem, hkind⟩ := getLast?_place hmem 0
    obtain ⟨hsound, hreplaces⟩ := hlast last hlastMem
    rw [hkind] at hsound hreplaces
    rwa [checked_eq_of_sound hsound, flatMap_place] at hreplaces
  rw [lex, String.toList_ofList, flatMap_place, cut_append hcut hgarbage hends, place_append,
    Nat.zero_add]

end QueryBody
