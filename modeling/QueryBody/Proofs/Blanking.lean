import QueryBody.Proofs.SoundTokens
import QueryBody.Proofs.TemplateTokens
import Mathlib.Tactic

/-!
# Separators taken out of a body

A comma or a colon is one byte long, and so is a space; every token before it ends there
with the one as with the other.  So a space in the place of a separator leaves the other
tokens where they are and what they are.  White space may join it, but the grammar does
not see that.
-/

namespace QueryBody

namespace Kind

/-- What stands between the parts of a container, or between a name and its value. -/
def isSeparator (kind : Kind) : Bool := kind = .comma || kind = .colon

variable {kind : Kind}

theorem isLexicalError_of_isSeparator (hkind : kind.isSeparator = true) :
    kind.isLexicalError = false := by
  cases kind <;> first | rfl | contradiction

theorem isTrivia_of_isSeparator (hkind : kind.isSeparator = true) : kind.isTrivia = false := by
  cases kind <;> first | rfl | contradiction

theorem isSeparator_of_valueFirst (hfirst : KindSet.valueFirst.contains kind = true) :
    kind.isSeparator = false := by
  cases kind <;> first | rfl | contradiction

end Kind

/-- The text of tokens with a space in the place of some of them. -/
def blankedText (removed : Lexeme → Bool) (lexemes : List Lexeme) : List Char :=
  lexemes.flatMap fun lexeme => if removed lexeme then [' '] else lexeme.text

/-- A body with a space in the place of some of its tokens. -/
def blanked (removed : Lexeme → Bool) (source : String) : String :=
  String.ofList (blankedText removed (lex source))

namespace Lexer

variable {c : Char} {text : List Char} {m : Match} {removed : Lexeme → Bool} {offset : Nat}
  {lexemes : List Lexeme}

/-! ### Single tokens -/

theorem begun?_of_sound
    (hsound : (checked (next c text).kind (c :: (next c text).text)).isLexicalError = false) :
    begun? c text = some (next c text) := by
  cases hbegun : begun? c text with
  | some m => rw [next, hbegun, Option.getD_some]
  | none =>
      have hkind : (next c text).kind = .garbage := by
        rw [next, hbegun, Option.getD_none, garbage_kind]
      rw [hkind] at hsound
      contradiction

theorem eq_of_begun?_separator (hbegun : begun? c text = some m)
    (hkind : m.kind.isSeparator = true) : (c = ',' ∨ c = ':') ∧ m.text = [] := by
  have hstarts := starts_of_begun? hbegun
  simp only [Kind.isSeparator, Bool.or_eq_true, decide_eq_true_eq] at hkind
  rcases hkind with hkind | hkind <;> rw [hkind] at hstarts
  · obtain rfl : c = ',' := by simpa [starts, singles] using hstarts
    cases hbegun
    exact ⟨Or.inl rfl, rfl⟩
  · obtain rfl : c = ':' := by simpa [starts, singles] using hstarts
    cases hbegun
    exact ⟨Or.inr rfl, rfl⟩

theorem head_of_lineComment (hbegun : begun? c text = some m) (hkind : m.kind = .lineComment) :
    ∀ d, m.rest.head? = some d → d = '\n' := by
  have hstarts := starts_of_begun? hbegun
  rw [hkind] at hstarts
  obtain rfl : c = '/' := by simpa [starts] using hstarts
  change comment? text = some m at hbegun
  unfold comment? at hbegun
  split at hbegun
  next text =>
    cases hbegun
    intro d hhead
    simpa using head_run_rest text d hhead
  next text =>
    cases hbegun
    have hmem := blockComment_kind text
    rw [show (blockComment text).kind = .lineComment from hkind] at hmem
    contradiction
  · contradiction

/-- What trivia and closing brackets begin with. -/
def beginsGap (c : Char) : Bool := isBlank c || c ∈ ['\n', '/', '}', ']']

theorem endsBefore_of_beginsGap {kind : Kind} (hsound : kind.isLexicalError = false)
    (hwhite : kind ≠ .whitespace) (hline : kind ≠ .lineComment) (hgap : beginsGap c = true) :
    endsBefore kind c = true := by
  have hmem : (c = ' ' ∨ c = '\t' ∨ c = '\r') ∨ c = '\n' ∨ c = '/' ∨ c = '}' ∨ c = ']' := by
    simpa [beginsGap, isBlank, or_assoc] using hgap
  rcases hmem with (rfl | rfl | rfl) | rfl | rfl | rfl | rfl <;>
    cases kind <;> first | rfl | contradiction

/-! ### The texts of the tokens -/

/-- Where a text has been blanked it begins as before, or with a space for a separator. -/
theorem head?_blankedText (hremoved : ∀ lexeme ∈ place offset (cut text),
      removed lexeme = true → lexeme.kind.isSeparator = true) :
    (blankedText removed (place offset (cut text))).head? = text.head? ∨
      (blankedText removed (place offset (cut text))).head? = some ' ' ∧
        ∃ d, text.head? = some d ∧ (d = ',' ∨ d = ':') := by
  cases text with
  | nil => exact Or.inl (by simp [cut, place, blankedText])
  | cons c text =>
      rw [cut, place] at hremoved ⊢
      rw [blankedText, List.flatMap_cons]
      split
      next hfirst =>
        have hkind := hremoved _ List.mem_cons_self hfirst
        have hsound := Kind.isLexicalError_of_isSeparator hkind
        have hseparator := eq_of_begun?_separator (begun?_of_sound hsound)
          (checked_eq_of_sound hsound ▸ hkind)
        exact Or.inr ⟨rfl, c, rfl, hseparator.1⟩
      · exact Or.inl rfl

theorem replaces_blankedText (hbegun : begun? c text = some m)
    (hsound : m.kind.isLexicalError = false) (hwhite : m.kind ≠ .whitespace)
    (hremoved : ∀ lexeme ∈ place offset (cut m.rest),
      removed lexeme = true → lexeme.kind.isSeparator = true) :
    Replaces (endsBefore m.kind) (blankedText removed (place offset (cut m.rest))) m.rest := by
  rcases head?_blankedText hremoved with hsame | ⟨hspace, d, hhead, hseparator⟩
  · exact Or.inr (Or.inl hsame)
  · refine Or.inr (Or.inr ⟨' ', hspace, endsBefore_of_beginsGap hsound hwhite ?_ rfl⟩)
    intro hline
    obtain rfl := head_of_lineComment hbegun hline d hhead
    contradiction

/-- The grammar sees these tokens of the text from the offset on, and no comment in it is left
open. -/
structure Shows (offset : Nat) (text : List Char) (lexemes : List Lexeme) : Prop where
  tokens : significant (place offset (cut text)) = lexemes
  closed : ∀ piece ∈ cut text, piece.1 ≠ .unterminatedComment

namespace Shows

theorem blank (hshows : Shows (offset + c.utf8Size) text lexemes) (hblank : isBlank c = true) :
    Shows offset (c :: text) lexemes := by
  refine ⟨by rw [significant_cut_blank hblank, hshows.tokens], ?_⟩
  intro piece hmem hkind
  exact hshows.closed piece (mem_cut_of_blank hblank hmem (by rw [hkind]; decide)) hkind

theorem blanks {blanks : List Char} (hshows : Shows (offset + Utf8.size blanks) text lexemes)
    (hblanks : ∀ c ∈ blanks, isBlank c = true) : Shows offset (blanks ++ text) lexemes := by
  induction blanks generalizing offset with
  | nil => exact hshows
  | cons c blanks ih =>
      rw [List.forall_mem_cons] at hblanks
      rw [Utf8.size_cons, ← Nat.add_assoc] at hshows
      exact (ih hshows hblanks.2).blank hblanks.1

theorem token {later : List Char}
    (hshows : Shows (offset + Utf8.size (c :: m.text)) later lexemes)
    (hbegun : begun? c text = some m) (hopen : m.kind ≠ .unterminatedComment)
    (hlater : Replaces (endsBefore m.kind) later m.rest) :
    Shows offset (c :: m.text ++ later)
      (significant [.placed (checked m.kind (c :: m.text)) offset (c :: m.text)] ++ lexemes) := by
  have hcut : cut (c :: m.text ++ later) = (m.kind, c :: m.text) :: cut later :=
    cut_of_begun? (begun?_append hbegun hlater)
  constructor
  · rw [hcut, place, ← List.singleton_append, significant_append, hshows.tokens]
  · rw [hcut, List.forall_mem_cons]
    exact ⟨hopen, hshows.closed⟩

/-- White space may go on with what follows; every other token must end there. -/
theorem piece {later : List Char}
    (hshows : Shows (offset + Utf8.size (c :: m.text)) later lexemes)
    (hbegun : begun? c text = some m) (hsound : m.kind.isLexicalError = false)
    (hlater : m.kind ≠ .whitespace → Replaces (endsBefore m.kind) later m.rest) :
    Shows offset (c :: m.text ++ later)
      (significant [.placed (checked m.kind (c :: m.text)) offset (c :: m.text)] ++ lexemes) := by
  by_cases hwhite : m.kind = .whitespace
  · have hblank : isBlank c = true := by
      have hstarts := starts_of_begun? hbegun
      rwa [hwhite] at hstarts
    have hblanks : ∀ d ∈ c :: m.text, isBlank d = true := by
      rw [begun?_of_isBlank hblank] at hbegun
      cases hbegun
      exact List.forall_mem_cons.mpr ⟨hblank, fun d hd => mem_run hd⟩
    have htrivia : (checked m.kind (c :: m.text)).isTrivia = true := by
      rw [hwhite]
      rfl
    rw [significant_cons_of_isTrivia htrivia, significant_nil, List.nil_append]
    exact hshows.blanks hblanks
  · refine hshows.token hbegun ?_ (hlater hwhite)
    intro hopen
    rw [hopen] at hsound
    contradiction

end Shows

theorem filter_significant_of_removed {lexeme : Lexeme} (hremoved : removed lexeme = true)
    (rest : List Lexeme) : (significant (lexeme :: rest)).filter (!removed ·) =
      (significant rest).filter (!removed ·) := by
  cases htrivia : lexeme.kind.isTrivia with
  | true => rw [significant_cons_of_isTrivia htrivia]
  | false =>
      rw [significant_cons_of_not_isTrivia htrivia, List.filter_cons_of_neg (by simp [hremoved])]

theorem filter_significant_of_kept {lexeme : Lexeme} (hkept : removed lexeme = false)
    (rest : List Lexeme) : (significant (lexeme :: rest)).filter (!removed ·) =
      significant [lexeme] ++ (significant rest).filter (!removed ·) := by
  cases htrivia : lexeme.kind.isTrivia with
  | true =>
      rw [significant_cons_of_isTrivia htrivia, significant_cons_of_isTrivia htrivia,
        significant_nil, List.nil_append]
  | false =>
      rw [significant_cons_of_not_isTrivia htrivia, significant_cons_of_not_isTrivia htrivia,
        List.filter_cons_of_pos (by simp [hkept]), significant_nil, List.singleton_append]

/-- The tokens of a blanked text are those of the text that have not been removed. -/
theorem shows_blankedText (hsound : AllSound (place offset (cut text)))
    (hremoved : ∀ lexeme ∈ place offset (cut text),
      removed lexeme = true → lexeme.kind.isSeparator = true) :
    Shows offset (blankedText removed (place offset (cut text)))
      ((significant (place offset (cut text))).filter (!removed ·)) := by
  fun_induction cut text generalizing offset with
  | case1 => exact ⟨by simp [place, blankedText, cut], by simp [place, blankedText, cut]⟩
  | case2 c text ih =>
      rw [place] at hsound hremoved ⊢
      obtain ⟨hfirst, hrest⟩ := List.forall_mem_cons.mp hsound
      obtain ⟨hremovedFirst, hremovedRest⟩ := List.forall_mem_cons.mp hremoved
      have hshows := ih hrest hremovedRest
      have hbegun := begun?_of_sound hfirst
      have hkind := checked_eq_of_sound hfirst
      generalize next c text = m at *
      rw [blankedText, List.flatMap_cons]
      split
      next hgone =>
        obtain ⟨hc, hnil⟩ := eq_of_begun?_separator hbegun (hkind ▸ hremovedFirst hgone)
        have hsize : Utf8.size (c :: m.text) = (' ' : Char).utf8Size := by
          rw [hnil]
          rcases hc with rfl | rfl <;> rfl
        rw [filter_significant_of_removed hgone]
        rw [hsize] at hshows ⊢
        exact hshows.blank rfl
      next hkept =>
        have hsame := Bool.eq_false_of_not_eq_true hkept
        rw [filter_significant_of_kept hsame]
        rw [hkind] at hfirst
        exact hshows.piece hbegun hfirst fun hwhite =>
          replaces_blankedText hbegun hfirst hwhite hremovedRest

end Lexer

theorem Lexer.Shows.whole {source : String} {lexemes : List Lexeme}
    (hshows : Shows 0 source.toList lexemes) :
    significant (lex source) = lexemes ∧
      ∀ lexeme ∈ lex source, lexeme.kind ≠ .unterminatedComment := by
  refine ⟨hshows.tokens, ?_⟩
  intro lexeme hmem hkind
  obtain ⟨kind, hpiece, hchecked⟩ := mem_place hmem
  rw [hkind] at hchecked
  exact hshows.closed _ hpiece (eq_of_checked hchecked.symm (by decide) (by decide))

/-- The grammar sees the tokens of a blanked body that have not been removed, and none of its
comments is left open. -/
theorem lex_blanked {removed : Lexeme → Bool} {source : String} (hsound : AllSound (lex source))
    (hremoved : ∀ lexeme ∈ lex source, removed lexeme = true → lexeme.kind.isSeparator = true) :
    significant (lex (blanked removed source)) =
        (significant (lex source)).filter (!removed ·) ∧
      ∀ lexeme ∈ lex (blanked removed source), lexeme.kind ≠ .unterminatedComment := by
  have hshows := Lexer.shows_blankedText hsound hremoved
  refine Lexer.Shows.whole ?_
  rw [blanked, String.toList_ofList]
  exact hshows

end QueryBody
