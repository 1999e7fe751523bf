import QueryBody.Proofs.Blanking
import QueryBody.Proofs.Completion
import QueryBody.Proofs.SameTokens
import Mathlib.Tactic

/-!
# Trailing commas taken out of a body

The fix of a diagnostic replaces the range of its token.  A trailing comma is a single
character, and what is left after it begins with white space, a comment or a closing
bracket.  Every token before the comma ends there as it does at the comma, except white
space, which may join other white space.  So the grammar sees the same tokens as before
without the trailing commas, though not in the same places.
-/

namespace QueryBody

/-! ### Edits -/

/-- Texts to put in the place of ranges of a body. -/
abbrev Edits := List (Span × List Char)

namespace Edits

def insertedAt (edits : Edits) (offset : Nat) : List Char :=
  (edits.filter (·.1.start = offset)).flatMap Prod.snd

def covers (edits : Edits) (offset : Nat) : Bool :=
  edits.any fun edit => edit.1.start ≤ offset && offset < edit.1.stop

/-- A text that begins at an offset, with the edits in it. -/
def applyFrom (edits : Edits) (offset : Nat) : List Char → List Char
  | [] => edits.insertedAt offset
  | c :: rest =>
      let later := edits.applyFrom (offset + c.utf8Size) rest
      edits.insertedAt offset ++ if edits.covers offset then later else c :: later

def apply (edits : Edits) (source : String) : String :=
  String.ofList (edits.applyFrom 0 source.toList)

end Edits

/-- The edits that the fixes of the diagnostics suggest. -/
def Diagnostics.edits (diagnostics : Diagnostics) : Edits :=
  diagnostics.toList.filterMap fun diagnostic =>
    diagnostic.fix.map fun fix => (diagnostic.span, fix.replacement.toList)

def deletions (lexemes : List Lexeme) : Edits := lexemes.map fun lexeme => (lexeme.span, [])

namespace Edits

variable {edits : Edits} {offset : Nat} {text : List Char}

theorem insertedAt_of_forall (hempty : ∀ edit ∈ edits, edit.2 = []) (offset : Nat) :
    edits.insertedAt offset = [] := by
  rw [insertedAt, List.flatMap_eq_nil_iff]
  exact fun edit hmem => hempty edit (List.mem_of_mem_filter hmem)

theorem applyFrom_of_mem (hempty : ∀ edit ∈ edits, edit.2 = []) {edit : Span × List Char}
    (hmem : edit ∈ edits) (hstart : edit.1.start ≤ offset)
    (hstop : offset + Utf8.size text ≤ edit.1.stop) (rest : List Char) :
    edits.applyFrom offset (text ++ rest) = edits.applyFrom (offset + Utf8.size text) rest := by
  induction text generalizing offset with
  | nil => rfl
  | cons c text ih =>
      have hpos := c.utf8Size_pos
      rw [Utf8.size_cons, ← Nat.add_assoc] at hstop ⊢
      have hcovers : edits.covers offset = true := by
        refine List.any_eq_true.mpr ⟨edit, hmem, ?_⟩
        simp only [Bool.and_eq_true, decide_eq_true_eq]
        omega
      rw [List.cons_append, applyFrom, insertedAt_of_forall hempty, List.nil_append, if_pos hcovers]
      exact ih (by omega) hstop

theorem applyFrom_of_forall (hempty : ∀ edit ∈ edits, edit.2 = [])
    (houtside : ∀ edit ∈ edits, edit.1.stop ≤ offset ∨ offset + Utf8.size text ≤ edit.1.start)
    (rest : List Char) : edits.applyFrom offset (text ++ rest) =
      text ++ edits.applyFrom (offset + Utf8.size text) rest := by
  induction text generalizing offset with
  | nil => rfl
  | cons c text ih =>
      have hpos := c.utf8Size_pos
      rw [Utf8.size_cons, ← Nat.add_assoc] at houtside ⊢
      have hcovers : edits.covers offset = false := by
        refine List.any_eq_false.mpr fun edit hmem => ?_
        have hedit := houtside edit hmem
        simp only [Bool.and_eq_true, decide_eq_true_eq]
        omega
      rw [List.cons_append, applyFrom, insertedAt_of_forall hempty, List.nil_append, hcovers,
        if_neg Bool.false_ne_true, List.cons_append, ih]
      intro edit hmem
      have hedit := houtside edit hmem
      omega

end Edits

/-! ### Trailing commas -/

instance (kind : Kind) : Decidable kind.IsCloser :=
  inferInstanceAs (Decidable (kind = .braceClose ∨ kind = .bracketClose))

/-- The next token that the grammar sees is a closing bracket. -/
def closesNext (lexemes : List Lexeme) : Bool := (significant lexemes).head?.any (·.kind.IsCloser)

theorem closesNext_cons_of_isTrivia {lexeme : Lexeme} (htrivia : lexeme.kind.isTrivia = true)
    (rest : List Lexeme) : closesNext (lexeme :: rest) = closesNext rest := by
  rw [closesNext, significant_cons_of_isTrivia htrivia, closesNext]

theorem closesNext_cons_of_not_isTrivia {lexeme : Lexeme}
    (hshown : lexeme.kind.isTrivia = false) (rest : List Lexeme) :
    closesNext (lexeme :: rest) = decide lexeme.kind.IsCloser := by
  rw [closesNext, significant_cons_of_not_isTrivia hshown]
  rfl

/-- The commas before closing brackets. -/
def trailingCommas : List Lexeme → List Lexeme
  | [] => []
  | lexeme :: rest =>
      if lexeme.kind = .comma ∧ closesNext rest then lexeme :: trailingCommas rest
      else trailingCommas rest

/-- All tokens but the commas before closing brackets. -/
def withoutTrailing : List Lexeme → List Lexeme
  | [] => []
  | lexeme :: rest =>
      if lexeme.kind = .comma ∧ closesNext rest then withoutTrailing rest
      else lexeme :: withoutTrailing rest

theorem withoutTrailing_sublist (lexemes : List Lexeme) :
    (withoutTrailing lexemes).Sublist lexemes := by
  induction lexemes with
  | nil => exact .slnil
  | cons lexeme rest ih =>
      rw [withoutTrailing]
      split
      · exact ih.cons lexeme
      · exact ih.cons_cons lexeme

theorem trailingCommas_sublist (lexemes : List Lexeme) :
    (trailingCommas lexemes).Sublist lexemes := by
  induction lexemes with
  | nil => exact .slnil
  | cons lexeme rest ih =>
      rw [trailingCommas]
      split
      · exact ih.cons_cons lexeme
      · exact ih.cons lexeme

theorem Lexer.le_start_of_mem_place {offset : Nat} {pieces : List (Kind × List Char)}
    {lexeme : Lexeme} (hmem : lexeme ∈ place offset pieces) : offset ≤ lexeme.span.start := by
  induction pieces generalizing offset with
  | nil => contradiction
  | cons piece rest ih =>
      rw [place, List.mem_cons] at hmem
      rcases hmem with rfl | hlater
      · exact le_rfl
      · exact (Nat.le_add_right _ _).trans (ih hlater)

open Lexer in
/-- The edits that delete the trailing commas leave the texts of the other tokens. -/
theorem applyFrom_deletions {offset : Nat} {pieces : List (Kind × List Char)}
    (earlier : List Lexeme) (hearlier : ∀ comma ∈ earlier, comma.span.stop ≤ offset) :
    (deletions (earlier ++ trailingCommas (place offset pieces))).applyFrom offset
        (pieces.flatMap Prod.snd) =
      (withoutTrailing (place offset pieces)).flatMap Lexeme.text := by
  have hempty (lexemes : List Lexeme) : ∀ edit ∈ deletions lexemes, edit.2 = [] := by
    simp [deletions]
  induction pieces generalizing offset earlier with
  | nil =>
      simp only [place, List.flatMap_nil, withoutTrailing, Edits.applyFrom]
      exact Edits.insertedAt_of_forall (hempty _) offset
  | cons piece rest ih =>
      have hspan : (Lexeme.placed (checked piece.1 piece.2) offset piece.2).span =
          ⟨offset, offset + Utf8.size piece.2⟩ := rfl
      have htext : (Lexeme.placed (checked piece.1 piece.2) offset piece.2).text = piece.2 := rfl
      rw [place, trailingCommas, withoutTrailing, List.flatMap_cons]
      generalize Lexeme.placed (checked piece.1 piece.2) offset piece.2 = token at *
      have hstop : token.span.stop = offset + Utf8.size piece.2 := congrArg Span.stop hspan
      split
      next htrailing =>
        have hmem : (token.span, []) ∈ deletions
            (earlier ++ token :: trailingCommas (place (offset + Utf8.size piece.2) rest)) :=
          List.mem_map_of_mem (List.mem_append_right _ List.mem_cons_self)
        have hstart : token.span.start = offset := congrArg Span.start hspan
        rw [Edits.applyFrom_of_mem (hempty _) hmem hstart.le hstop.ge, List.append_cons]
        refine ih (earlier ++ [token]) ?_
        rw [List.forall_mem_append, List.forall_mem_singleton]
        exact ⟨fun other hother => (hearlier other hother).trans (Nat.le_add_right _ _), hstop.le⟩
      next hkept =>
        rw [Edits.applyFrom_of_forall (hempty _) ?_, List.flatMap_cons, htext]
        · exact congrArg _ (ih earlier fun other hother =>
            (hearlier other hother).trans (Nat.le_add_right _ _))
        · intro edit hedit
          obtain ⟨comma, hcomma, rfl⟩ := List.mem_map.mp hedit
          rcases List.mem_append.mp hcomma with hbefore | hafter
          · exact Or.inl (hearlier comma hbefore)
          · exact Or.inr (le_start_of_mem_place ((trailingCommas_sublist _).subset hafter))

theorem apply_deletions (source : String) :
    (deletions (trailingCommas (lex source))).apply source =
      String.ofList ((withoutTrailing (lex source)).flatMap Lexeme.text) := by
  have happly : (deletions ([] ++ trailingCommas (lex source))).applyFrom 0
      ((Lexer.cut source.toList).flatMap Prod.snd) =
        (withoutTrailing (lex source)).flatMap Lexeme.text :=
    applyFrom_deletions [] (by simp)
  rw [Lexer.flatMap_cut, List.nil_append] at happly
  exact congrArg String.ofList happly

/-! ### The tokens that are left -/

namespace Lexer

variable {c : Char} {text : List Char} {m : Match} {offset : Nat}

theorem beginsGap_of_starts {kind : Kind} (hstarts : starts kind c = true)
    (hkind : kind.isTrivia = true ∨ kind.IsCloser) : beginsGap c = true := by
  cases kind <;> simp [Kind.isTrivia, Kind.IsCloser] at hkind <;>
    simp [starts, singles] at hstarts <;> simp [beginsGap, hstarts]

theorem head_of_closesNext (hsound : AllSound (place offset (cut text)))
    (hcloses : closesNext (place offset (cut text)) = true) :
    ∃ d, ((withoutTrailing (place offset (cut text))).flatMap Lexeme.text).head? = some d ∧
      beginsGap d = true := by
  cases text with
  | nil => simp [cut, place, closesNext] at hcloses
  | cons c text =>
      rw [cut, place] at hsound hcloses ⊢
      have hfirst := hsound _ List.mem_cons_self
      have hstarts := starts_of_begun? (begun?_of_sound hfirst)
      rw [← checked_eq_of_sound hfirst] at hstarts
      have hkind : (checked (next c text).kind (c :: (next c text).text)).isTrivia = true ∨
          (checked (next c text).kind (c :: (next c text).text)).IsCloser := by
        refine or_iff_not_imp_left.mpr fun hshown => ?_
        rw [closesNext_cons_of_not_isTrivia (Bool.eq_false_of_not_eq_true hshown)] at hcloses
        exact of_decide_eq_true hcloses
      refine ⟨c, ?_, beginsGap_of_starts hstarts hkind⟩
      rw [withoutTrailing, if_neg]
      · rfl
      · rintro ⟨hcomma, -⟩
        have hkindComma : checked (next c text).kind (c :: (next c text).text) = .comma := hcomma
        rw [hkindComma] at hkind
        rcases hkind with htrivia | hcloser | hcloser <;> contradiction

/-- Without its trailing commas a text begins as before, or with a gap in the place of a comma. -/
theorem head_withoutTrailing (hsound : AllSound (place offset (cut text))) :
    let left := (withoutTrailing (place offset (cut text))).flatMap Lexeme.text
    left.head? = text.head? ∨
      text.head? = some ',' ∧ ∃ d, left.head? = some d ∧ beginsGap d = true := by
  cases text with
  | nil => exact Or.inl (by simp [cut, place, withoutTrailing])
  | cons c text =>
      rw [cut, place] at hsound ⊢
      obtain ⟨hfirst, hrest⟩ := List.forall_mem_cons.mp hsound
      rw [withoutTrailing]
      split
      next htrailing =>
        have hstarts := starts_of_begun? (begun?_of_sound hfirst)
        rw [← checked_eq_of_sound hfirst, show checked _ _ = Kind.comma from htrailing.1] at hstarts
        obtain rfl : c = ',' := by simpa [starts, singles] using hstarts
        exact Or.inr ⟨rfl, head_of_closesNext hrest htrailing.2⟩
      · exact Or.inl rfl

theorem replaces_withoutTrailing (hbegun : begun? c text = some m)
    (hsound : m.kind.isLexicalError = false) (hwhite : m.kind ≠ .whitespace)
    (hrest : AllSound (place offset (cut m.rest))) :
    Replaces (endsBefore m.kind)
      ((withoutTrailing (place offset (cut m.rest))).flatMap Lexeme.text) m.rest := by
  rcases head_withoutTrailing hrest with hsame | ⟨hcomma, d, hhead, hgap⟩
  · exact Or.inr (Or.inl hsame)
  · refine Or.inr (Or.inr ⟨d, hhead, endsBefore_of_beginsGap hsound hwhite ?_ hgap⟩)
    intro hline
    have hnewline := head_of_lineComment hbegun hline ',' hcomma
    contradiction

/-- The tokens of a text without its trailing commas are those of the text that are left. -/
theorem exists_shows_withoutTrailing (hsound : AllSound (place offset (cut text))) (first : Nat) :
    ∃ tokens,
      Shows first ((withoutTrailing (place offset (cut text))).flatMap Lexeme.text) tokens ∧
      (significant (withoutTrailing (place offset (cut text)))).map Lexeme.piece =
        tokens.map Lexeme.piece := by
  fun_induction cut text generalizing offset first with
  | case1 => exact ⟨[], by constructor <;> simp [place, withoutTrailing, cut], rfl⟩
  | case2 c text ih =>
      rw [place] at hsound ⊢
      obtain ⟨hfirst, hrest⟩ := List.forall_mem_cons.mp hsound
      have hbegun := begun?_of_sound hfirst
      have hkind := checked_eq_of_sound hfirst
      generalize next c text = m at *
      rw [withoutTrailing]
      split
      · -- what follows a deleted comma moves to its place
        exact ih hrest first
      · obtain ⟨tokens, hshows, hpieces⟩ := ih hrest (first + Utf8.size (c :: m.text))
        rw [hkind] at hfirst
        have hwhole := hshows.piece hbegun hfirst fun hwhite =>
          replaces_withoutTrailing hbegun hfirst hwhite hrest
        have hsame := map_piece_significant_place offset first [(m.kind, c :: m.text)]
        refine ⟨_, hwhole, ?_⟩
        rw [← List.singleton_append, significant_append, List.map_append, List.map_append, hpieces]
        exact congrArg (· ++ _) hsame

end Lexer

/-- The grammar sees the tokens of a body but the trailing commas once these are deleted, though
not in the same places, and no comment is left open. -/
theorem lex_apply_deletions {source : String} (hsound : AllSound (lex source)) :
    let mended := (deletions (trailingCommas (lex source))).apply source
    (significant (withoutTrailing (lex source))).map Lexeme.piece =
        (significant (lex mended)).map Lexeme.piece ∧
      ∀ lexeme ∈ lex mended, lexeme.kind ≠ .unterminatedComment := by
  intro mended
  obtain ⟨tokens, hshows, hpieces⟩ := Lexer.exists_shows_withoutTrailing hsound 0
  have hmended : mended.toList = (withoutTrailing (lex source)).flatMap Lexeme.text := by
    rw [show mended = _ from apply_deletions source, String.toList_ofList]
  obtain ⟨htokens, hclosed⟩ := Lexer.Shows.whole (hmended ▸ hshows)
  exact ⟨hpieces.trans (congrArg _ htokens.symm), hclosed⟩

end QueryBody
