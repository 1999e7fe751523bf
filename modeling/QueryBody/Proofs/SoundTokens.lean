import QueryBody.Proofs.SilentRun
import Mathlib.Tactic

/-!
# Sentences consist of sound tokens

No token of a sentence, or of a beginning of one, is malformed.
-/

namespace QueryBody

/-- Every token is one that the grammar knows. -/
def AllSound (lexemes : List Lexeme) : Prop :=
  ∀ lexeme ∈ lexemes, lexeme.kind.isLexicalError = false

namespace AllSound

variable {front back : List Lexeme}

theorem append (hfront : AllSound front) (hback : AllSound back) : AllSound (front ++ back) :=
  List.forall_mem_append.mpr ⟨hfront, hback⟩

theorem single {lexeme : Lexeme} {kind : Kind} (hkind : lexeme.kind = kind)
    (hsound : kind.isLexicalError = false) : AllSound [lexeme] := by
  intro only hmem
  rw [List.mem_singleton] at hmem
  rw [hmem, hkind, hsound]

theorem closed {lexemes : List Lexeme} (hsound : AllSound lexemes) :
    ∀ lexeme ∈ lexemes, lexeme.kind ≠ .unterminatedComment := by
  intro lexeme hmem hkind
  have hnot := hsound lexeme hmem
  rw [hkind] at hnot
  contradiction

/-- Of the tokens that the grammar does not see, only a comment without an end is malformed. -/
theorem of_significant {lexemes : List Lexeme}
    (hclosed : ∀ lexeme ∈ lexemes, lexeme.kind ≠ .unterminatedComment)
    (hsound : AllSound (significant lexemes)) : AllSound lexemes := by
  intro lexeme hmem
  have hlexeme := hclosed lexeme hmem
  cases htrivia : lexeme.kind.isTrivia with
  | true =>
      cases hkind : lexeme.kind <;> rw [hkind] at htrivia hlexeme <;> first | rfl | contradiction
  | false => exact hsound lexeme (List.mem_filter.mpr ⟨hmem, by rw [htrivia]; rfl⟩)

end AllSound

theorem Row.allSound {α : Type} {spelling : α → List Lexeme} {parts : List α}
    {inner : List Lexeme} (hrow : Row spelling parts inner)
    (hparts : ∀ part ∈ parts, AllSound (spelling part)) : AllSound inner := by
  induction hrow with
  | nil => simp [AllSound]
  | first part => exact hparts part List.mem_cons_self
  | next hfront hne hcomma part ih =>
      have hlast := hparts part (by simp)
      have hinit := ih fun earlier hmem => hparts earlier (List.mem_append_left _ hmem)
      exact hinit.append ((AllSound.single hcomma rfl).append hlast)

theorem Property.allSound {property : Property} (hname : property.name.kind = .string)
    (hcolon : property.colon.kind = .colon) (hwriting : AllSound property.writing.lexemes) :
    AllSound property.lexemes :=
  (AllSound.single hname rfl).append ((AllSound.single hcolon rfl).append hwriting)

theorem Spells.allSound {value : Value} {lexemes : List Lexeme} (hspells : Spells value lexemes) :
    AllSound lexemes := by
  induction hspells with
  | scalar hcontent =>
      rcases Lexeme.kind_of_scalar? hcontent with hkind | hkind | hkind | hkind | hkind <;>
        exact .single hkind rfl
  | parameter hopening hname hclosing =>
      exact (AllSound.single hopening rfl).append
        ((AllSound.single hname rfl).append (.single hclosing rfl))
  | array hopening hclosing hrow hparts ih =>
      exact ((AllSound.single hopening rfl).append (hrow.allSound ih)).append (.single hclosing rfl)
  | object hopening hclosing hrow hnames hparts ih =>
      have hinner := hrow.allSound fun part hmem =>
        Property.allSound (hnames part hmem).1 (hnames part hmem).2 (ih part hmem)
      exact ((AllSound.single hopening rfl).append hinner).append (.single hclosing rfl)

namespace Container

theorem Holds.allSound {container : Container} {lexemes : List Lexeme}
    (hholds : container.Holds lexemes) : AllSound lexemes := by
  cases hholds with
  | array hopening hrow hparts =>
      exact (AllSound.single hopening rfl).append
        (hrow.allSound fun part hmem => (hparts part hmem).allSound)
  | object hopening hrow hnames hparts =>
      refine (AllSound.single hopening rfl).append (hrow.allSound fun part hmem => ?_)
      exact Property.allSound (hnames part hmem).1 (hnames part hmem).2 (hparts part hmem).allSound

theorem Awaits.allSound {container : Container} {lexemes : List Lexeme}
    (hawaits : container.Awaits lexemes) : AllSound lexemes := by
  cases hawaits with
  | first hholds hempty => exact hholds.allSound
  | next hholds hne hcomma => exact hholds.allSound.append (.single hcomma rfl)

end Container

theorem Hole.Awaits.allSound {hole : Hole} {lexemes : List Lexeme}
    (hawaits : hole.Awaits lexemes) : AllSound lexemes := by
  cases hawaits with
  | item hawaits => exact hawaits.allSound
  | property hawaits hname hcolon =>
      exact hawaits.allSound.append ((AllSound.single hname rfl).append (.single hcolon rfl))

theorem Hole.Surround.allSound {holes : List Hole} {lexemes : List Lexeme}
    (hsurround : Hole.Surround holes lexemes) : AllSound lexemes := by
  induction hsurround with
  | nil => simp [AllSound]
  | cons hsurround hawaits ih => exact ih.append hawaits.allSound

theorem Reader.Follows.allSound {reader : Reader} {lexemes : List Lexeme}
    (hfollows : reader.Follows lexemes) : AllSound lexemes := by
  cases hfollows with
  | value hsurround reports => exact hsurround.allSound
  | opened hsurround hholds hempty reports => exact hsurround.allSound.append hholds.allSound
  | separated hsurround hholds hne hcomma reports =>
      exact hsurround.allSound.append (hholds.allSound.append (.single hcomma rfl))
  | separator hsurround hholds hne reports => exact hsurround.allSound.append hholds.allSound
  | colon hsurround hawaits hname reports =>
      exact hsurround.allSound.append (hawaits.allSound.append (.single hname rfl))
  | parameterName hsurround hmarker reports =>
      exact hsurround.allSound.append (.single hmarker rfl)
  | parameterClose hsurround hmarker hname reports =>
      exact hsurround.allSound.append ((AllSound.single hmarker rfl).append (.single hname rfl))
  | finished hspells reports => exact hspells.allSound

end QueryBody
