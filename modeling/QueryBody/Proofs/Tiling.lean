import QueryBody.Proofs.Continuation
import Mathlib.Tactic

/-!
# Tokens tile the body

The tokens of a body lie one after the other, from its first byte to its last, and
none of them is empty.
-/

namespace QueryBody

/-- The tokens lie one after the other from one offset to another, and none is empty. -/
def Tiles (first last : Nat) : List Lexeme → Prop
  | [] => first = last
  | lexeme :: rest =>
      lexeme.span.start = first ∧ first < lexeme.span.stop ∧ Tiles lexeme.span.stop last rest

namespace Tiles

variable {first last : Nat} {lexemes : List Lexeme}

theorem le (htiles : Tiles first last lexemes) : first ≤ last := by
  induction lexemes generalizing first with
  | nil => exact htiles.le
  | cons lexeme rest ih =>
      obtain ⟨_, hstop, hrest⟩ := htiles
      exact hstop.le.trans (ih hrest)

theorem mem (htiles : Tiles first last lexemes) {lexeme : Lexeme} (hmem : lexeme ∈ lexemes) :
    first ≤ lexeme.span.start ∧ lexeme.span.start < lexeme.span.stop ∧
      lexeme.span.stop ≤ last := by
  induction lexemes generalizing first with
  | nil => contradiction
  | cons next rest ih =>
      obtain ⟨hstart, hstop, hrest⟩ := htiles
      rcases List.mem_cons.mp hmem with rfl | hlater
      · exact ⟨hstart.ge, hstart ▸ hstop, hrest.le⟩
      · obtain ⟨hle, hbounds⟩ := ih hrest hlater
        exact ⟨hstop.le.trans hle, hbounds⟩

theorem pairwise (htiles : Tiles first last lexemes) :
    lexemes.Pairwise fun earlier later => earlier.span.start < later.span.start := by
  induction lexemes generalizing first with
  | nil => exact .nil
  | cons lexeme rest ih =>
      obtain ⟨hstart, hstop, hrest⟩ := htiles
      refine .cons ?_ (ih hrest)
      intro later hlater
      have hle := (hrest.mem hlater).1
      omega

/-- A token ends before the tokens that begin later. -/
theorem stop_le (htiles : Tiles first last lexemes) {earlier later : Lexeme}
    (hearlier : earlier ∈ lexemes) (hlater : later ∈ lexemes)
    (hlt : earlier.span.start < later.span.start) : earlier.span.stop ≤ later.span.start := by
  induction lexemes generalizing first with
  | nil => contradiction
  | cons lexeme rest ih =>
      obtain ⟨_, _, hrest⟩ := htiles
      rcases List.mem_cons.mp hearlier with rfl | hinRest
      · rcases List.mem_cons.mp hlater with rfl | hafter
        · exact absurd hlt (lt_irrefl _)
        · exact (hrest.mem hafter).1
      · rcases List.mem_cons.mp hlater with rfl | hafter
        · have hle := (hrest.mem hinRest).1
          omega
        · exact ih hrest hinRest hafter

end Tiles

theorem Lexer.tiles_place (pieces : List (Kind × List Char))
    (hpieces : ∀ piece ∈ pieces, piece.2 ≠ []) (offset : Nat) :
    Tiles offset (offset + Utf8.size (pieces.flatMap Prod.snd)) (place offset pieces) := by
  induction pieces generalizing offset with
  | nil => exact (Nat.add_zero offset).symm
  | cons piece rest ih =>
      have hpos := Utf8.size_pos (hpieces piece List.mem_cons_self)
      have hrest := ih (fun later hmem => hpieces later (List.mem_cons_of_mem piece hmem))
        (offset + Utf8.size piece.2)
      refine ⟨rfl, ?_, ?_⟩
      · simp only [Lexeme.placed]
        omega
      · rw [List.flatMap_cons, Utf8.size_append, ← Nat.add_assoc]
        exact hrest

/-- The tokens of a body tile it. -/
theorem tiles_lex (source : String) : Tiles 0 (Utf8.size source.toList) (lex source) := by
  have htiles := Lexer.tiles_place (Lexer.cut source.toList)
    (fun _ hmem => Lexer.ne_nil_of_mem_cut hmem) 0
  rwa [Nat.zero_add, Lexer.flatMap_cut] at htiles

end QueryBody
