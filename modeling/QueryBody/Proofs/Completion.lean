import QueryBody.Proofs.Acceptance
import QueryBody.Proofs.Continuation
import QueryBody.Proofs.SilentFragment
import QueryBody.Proofs.SoundTokens
import Mathlib.Tactic

/-!
# Silent fragments are beginnings of groups

The root of a fragment that is read without a report is the root of a complete body:
of a beginning of the fragment with some closing brackets after it.
-/

namespace QueryBody

def Kind.IsCloser (kind : Kind) : Prop := kind = .braceClose ∨ kind = .bracketClose

/-- A beginning of the tokens and some closing brackets after it spell the value. -/
def Completes (value : Value) (lexemes : List Lexeme) : Prop :=
  ∃ kept dropped closers, lexemes = kept ++ dropped ∧ kept ≠ [] ∧
    (∀ kind ∈ closers, kind.IsCloser) ∧
    ∀ closing : List Lexeme, closing.map (·.kind) = closers → Spells value (kept ++ closing)

theorem Completes.append {value : Value} {lexemes : List Lexeme}
    (hcompletes : Completes value lexemes) (more : List Lexeme) :
    Completes value (lexemes ++ more) := by
  obtain ⟨kept, dropped, closers, hlexemes, hrest⟩ := hcompletes
  exact ⟨kept, dropped ++ more, closers, by rw [hlexemes, List.append_assoc], hrest⟩

namespace Container

theorem closer_isCloser (container : Container) : container.closer.IsCloser := by
  cases container with
  | array opener items => exact Or.inr rfl
  | object opener members => exact Or.inl rfl

theorem Holds.ne_nil {container : Container} {lexemes : List Lexeme}
    (hholds : container.Holds lexemes) : lexemes ≠ [] := by
  cases hholds <;> exact List.cons_ne_nil _ _

theorem Awaits.holds {container : Container} {lexemes : List Lexeme}
    (hawaits : container.Awaits lexemes) :
    ∃ kept dropped, lexemes = kept ++ dropped ∧ container.Holds kept := by
  cases hawaits with
  | first hholds hempty => exact ⟨lexemes, [], by simp, hholds⟩
  | next hholds hne hcomma => exact ⟨_, _, rfl, hholds⟩

end Container

theorem Hole.Awaits.holds {hole : Hole} {lexemes : List Lexeme} (hawaits : hole.Awaits lexemes) :
    ∃ kept dropped, lexemes = kept ++ dropped ∧ hole.discard.Holds kept := by
  cases hawaits with
  | item hawaits => exact hawaits.holds
  | property hawaits hname hcolon =>
      obtain ⟨kept, dropped, rfl, hholds⟩ := hawaits.holds
      exact ⟨kept, _, by rw [List.append_assoc], hholds⟩

namespace Container

theorem spells_of_holds {container : Container} {back : List Lexeme} {closers : List Kind}
    (hholds : ∀ closing : List Lexeme, closing.map (·.kind) = closers →
      container.Holds (back ++ closing)) {closing : List Lexeme}
    (hkinds : closing.map (·.kind) = closers ++ [container.closer]) :
    Spells container.value (back ++ closing) := by
  obtain ⟨inner, outer, rfl, hinner, houter⟩ := List.map_eq_append_iff.mp hkinds
  obtain ⟨last, rfl, hlast⟩ := List.map_eq_singleton_iff.mp houter
  rw [← List.append_assoc]
  exact (hholds inner hinner).close hlast

/-- Closing brackets complete the containers around a cut, once the empty ones among them have
been left out.  The brackets that are still to come stand behind the tokens of the innermost
container. -/
theorem completes_cutOff {container : Container} {holes : List Hole}
    {front back : List Lexeme} {closers : List Kind} (hsurround : Hole.Surround holes front)
    (hne : back ≠ []) (hclosers : ∀ kind ∈ closers, kind.IsCloser)
    (hholds : ∀ closing : List Lexeme, closing.map (·.kind) = closers →
      container.Holds (back ++ closing)) :
    Completes (container.cutOff holes) (front ++ back) := by
  induction holes generalizing container front back closers with
  | nil =>
      cases hsurround
      have hmore : ∀ kind ∈ closers ++ [container.closer], kind.IsCloser :=
        List.forall_mem_append.mpr ⟨hclosers, by simpa using container.closer_isCloser⟩
      exact ⟨back, [], _, by simp, hne, hmore, fun _ hkinds => spells_of_holds hholds hkinds⟩
  | cons hole rest ih =>
      cases hsurround with
      | cons hsurround hawaits =>
          rename_i outside around
          unfold cutOff
          split
          · obtain ⟨kept, dropped, rfl, hkept⟩ := hawaits.holds
            have hnone : ∀ kind ∈ ([] : List Kind), kind.IsCloser := by simp
            have hcompletes := ih hsurround hkept.ne_nil hnone
              (fun closing hnil => by simpa [List.map_eq_nil_iff.mp hnil] using hkept)
            simpa using hcompletes.append (dropped ++ back)
          · have hmore : ∀ kind ∈ closers ++ [container.closer], kind.IsCloser :=
              List.forall_mem_append.mpr ⟨hclosers, by simpa using container.closer_isCloser⟩
            have hfilled : ∀ closing : List Lexeme,
                closing.map (·.kind) = closers ++ [container.closer] →
                  (hole.fill (some container.value)).Holds (around ++ back ++ closing) := by
              intro closing hkinds
              rw [List.append_assoc]
              exact hawaits.fill (spells_of_holds hholds hkinds)
            rw [List.append_assoc]
            exact ih hsurround (by simp [hne]) hmore hfilled

theorem Holds.completes {container : Container} {holes : List Hole} {front back : List Lexeme}
    (hholds : container.Holds back) (hsurround : Hole.Surround holes front) :
    Completes (container.cutOff holes) (front ++ back) := by
  have hnone : ∀ kind ∈ ([] : List Kind), kind.IsCloser := by simp
  apply completes_cutOff hsurround hholds.ne_nil hnone
  intro closing hnil
  rwa [List.map_eq_nil_iff.mp hnil, List.append_nil]

theorem Awaits.completes {container : Container} {holes : List Hole} {front back : List Lexeme}
    (hawaits : container.Awaits back) (hsurround : Hole.Surround holes front) :
    Completes (container.cutOff holes) (front ++ back) := by
  obtain ⟨kept, dropped, rfl, hholds⟩ := hawaits.holds
  rw [← List.append_assoc]
  exact (hholds.completes hsurround).append dropped

end Container

theorem Hole.Surround.completes {holes : List Hole} {lexemes : List Lexeme}
    (hsurround : Hole.Surround holes lexemes) :
    ∀ value, Hole.cutOff holes = some value → Completes value lexemes := by
  cases hsurround with
  | nil => simp [Hole.cutOff]
  | cons hsurround hawaits =>
      rintro value ⟨rfl⟩
      obtain ⟨kept, dropped, rfl, hholds⟩ := hawaits.holds
      rw [← List.append_assoc]
      exact (hholds.completes hsurround).append dropped

/-- What is left of a body that is cut off is completed by closing brackets. -/
theorem Reader.Follows.completes {reader : Reader} {lexemes : List Lexeme}
    (hfollows : reader.Follows lexemes) :
    ∀ value, reader.cutRoot = some value → Completes value lexemes := by
  cases hfollows with
  | value hsurround reports => exact hsurround.completes
  | opened hsurround hholds hempty reports =>
      rintro value ⟨rfl⟩
      exact hholds.completes hsurround
  | separated hsurround hholds hne hcomma reports =>
      rintro value ⟨rfl⟩
      rw [← List.append_assoc]
      exact (hholds.completes hsurround).append _
  | separator hsurround hholds hne reports =>
      rintro value ⟨rfl⟩
      exact hholds.completes hsurround
  | colon hsurround hawaits hname reports =>
      rintro value ⟨rfl⟩
      rw [← List.append_assoc]
      exact (hawaits.completes hsurround).append _
  | parameterName hsurround hmarker reports =>
      intro value hroot
      exact (hsurround.completes value hroot).append _
  | parameterClose hsurround hmarker hname reports =>
      intro value hroot
      exact (hsurround.completes value hroot).append _
  | finished hspells reports =>
      rintro value ⟨rfl⟩
      obtain ⟨lexeme, rest, hlexemes, _⟩ := hspells.begins
      refine ⟨lexemes, [], [], by simp, by simp [hlexemes], by simp, ?_⟩
      intro closing hnil
      rwa [List.map_eq_nil_iff.mp hnil, List.append_nil]

/-! ### Closing brackets as text -/

namespace Lexer

def closerChar (kind : Kind) : Char := if kind = .braceClose then '}' else ']'

def closerText (closers : List Kind) : List Char := closers.map closerChar

theorem cut_closerText {closers : List Kind} (hclosers : ∀ kind ∈ closers, kind.IsCloser) :
    cut (closerText closers) = closers.map fun kind => (kind, [closerChar kind]) := by
  induction closers with
  | nil => rw [closerText, List.map_nil, cut, List.map_nil]
  | cons kind rest ih =>
      have hrest := ih fun later hmem => hclosers later (List.mem_cons_of_mem kind hmem)
      have hfirst : begun? (closerChar kind) (closerText rest) =
          some ⟨kind, [], closerText rest⟩ := by
        rcases hclosers kind List.mem_cons_self with rfl | rfl <;> rfl
      rw [closerText, List.map_cons, ← closerText, cut_of_begun? hfirst, hrest]
      rfl

theorem separates_closerText (closers : List Kind) : Separates (closerText closers) := by
  cases closers with
  | nil => exact .nil
  | cons closer more =>
      have hdelimiter : closerChar closer ∈ delimiters := by
        unfold closerChar
        split <;> decide
      exact .cons hdelimiter _

theorem kinds_place_closers {closers : List Kind} (hclosers : ∀ kind ∈ closers, kind.IsCloser)
    (offset : Nat) :
    (place offset (closers.map fun kind => (kind, [closerChar kind]))).map (·.kind) = closers := by
  induction closers generalizing offset with
  | nil => rfl
  | cons kind rest ih =>
      have hrest := ih fun later hmem => hclosers later (List.mem_cons_of_mem kind hmem)
      have hkind : checked kind [closerChar kind] = kind := by
        rcases hclosers kind List.mem_cons_self with rfl | rfl <;> rfl
      rw [List.map_cons, place, List.map_cons, hrest]
      exact congrArg (· :: rest) hkind

end Lexer

/-! ### The completed body -/

theorem exists_significant_eq {lexemes init rest : List Lexeme} {last : Lexeme}
    (hlexemes : significant lexemes = init ++ last :: rest) :
    ∃ front back, lexemes = front ++ last :: back ∧ significant front = init ∧
      last.kind.isTrivia = false := by
  obtain ⟨first, second, rfl, hfirst, hsecond⟩ := List.filter_eq_append_iff.mp hlexemes
  obtain ⟨skipped, back, rfl, hskipped, hlast, _⟩ := List.filter_eq_cons_iff.mp hsecond
  refine ⟨first ++ skipped, back, by simp, ?_, by simpa using hlast⟩
  have hnone : significant skipped = [] := List.filter_eq_nil_iff.mpr hskipped
  rw [significant_append, hnone, List.append_nil]
  exact hfirst

theorem not_garbage_of_allSound {lexemes : List Lexeme}
    (hsound : AllSound (significant lexemes)) : ∀ lexeme ∈ lexemes, lexeme.kind ≠ .garbage := by
  intro lexeme hmem hkind
  have hsignificant : lexeme ∈ significant lexemes :=
    List.mem_filter.mpr ⟨hmem, by rw [hkind]; rfl⟩
  have hnot := hsound lexeme hsignificant
  rw [hkind] at hnot
  contradiction

theorem not_isTrivia_of_isCloser {kind : Kind} (hcloser : kind.IsCloser) :
    kind.isTrivia = false := by
  rcases hcloser with rfl | rfl <;> rfl

/-- The tokens up to one of them are a complete body with the closers that its value needs. -/
theorem isSentence_of_closing {limit : Option Nat} {value : Value} {front closing : List Lexeme}
    {last : Lexeme} (hclosed : ∀ lexeme ∈ front, lexeme.kind ≠ .unterminatedComment)
    (hlast : last.kind.isTrivia = false)
    (hclosers : ∀ lexeme ∈ closing, lexeme.kind.IsCloser)
    (hspells : Spells value (significant front ++ [last] ++ closing))
    (hallows : Allows limit value.nesting) :
    IsSentence limit (front ++ [last] ++ closing) value := by
  have hsame : significant closing = closing := by
    refine List.filter_eq_self.mpr fun lexeme hmem => ?_
    rw [not_isTrivia_of_isCloser (hclosers lexeme hmem)]
    rfl
  refine ⟨?_, ?_, hallows⟩
  · intro lexeme hmem hkind
    rw [List.append_assoc, List.mem_append, List.mem_append, List.mem_singleton] at hmem
    rcases hmem with hmem | rfl | hmem
    · exact hclosed lexeme hmem hkind
    · rw [hkind] at hlast
      contradiction
    · have htrivia := not_isTrivia_of_isCloser (hclosers lexeme hmem)
      rw [hkind] at htrivia
      contradiction
  · rwa [significant_append, significant_append, hsame,
      significant_cons_of_not_isTrivia hlast, significant_nil]

open Lexer in
/-- The tokens that complete a value are tokens of a body that begins like this one. -/
theorem exists_isSentence {limit : Option Nat} {source : String} {before after : List Lexeme}
    {value : Value} (hlex : lex source = before ++ after)
    (hsound : AllSound (significant before)) (hcompletes : Completes value (significant before))
    (hallows : Allows limit value.nesting) :
    ∃ kept dropped closers, source.toList = kept ++ dropped ∧
      (∀ kind ∈ closers, kind.IsCloser) ∧
      IsSentence limit (lex (String.ofList (kept ++ closerText closers))) value := by
  obtain ⟨kept, dropped, closers, hkept, hne, hclosers, hspells⟩ := hcompletes
  obtain ⟨init, last, rfl⟩ := (List.eq_nil_or_concat' kept).resolve_left hne
  rw [List.append_assoc, List.singleton_append] at hkept
  obtain ⟨front, back, rfl, hfront, hlastTrivia⟩ := exists_significant_eq hkept
  have hlastSound : last.kind.isLexicalError = false := hsound last (by simp [hkept])
  have hwhole : lex source = (front ++ [last]) ++ (back ++ after) := by simp [hlex]
  have hgarbage : ∀ lexeme ∈ front ++ [last], lexeme.kind ≠ .garbage := by
    intro lexeme hmem
    refine not_garbage_of_allSound hsound lexeme ?_
    simp only [List.mem_append, List.mem_singleton] at hmem
    rcases hmem with hmem | rfl
    · exact List.mem_append_left _ hmem
    · exact List.mem_append_right _ List.mem_cons_self
  have hends : ∀ end' ∈ (front ++ [last]).getLast?, end'.kind.isLexicalError = false ∧
      Replaces (endsBefore end'.kind) (closerText closers)
        ((back ++ after).flatMap Lexeme.text) := by
    intro end' hmem
    rw [List.getLast?_append_cons, List.getLast?_singleton, Option.mem_some_iff] at hmem
    subst hmem
    exact ⟨hlastSound, (separates_closerText closers).replaces hlastSound hlastTrivia _⟩
  have hclosed : ∀ lexeme ∈ front, lexeme.kind ≠ .unterminatedComment := by
    intro lexeme hmem hkind
    -- a comment without an end would have taken the last token with it
    obtain ⟨first, second, rfl⟩ := List.append_of_mem hmem
    have hagain : lex source = first ++ lexeme :: (second ++ last :: (back ++ after)) := by
      simp [hlex]
    have hnil := eq_nil_of_unterminatedComment hagain hkind
    simp at hnil
  refine ⟨(front ++ [last]).flatMap Lexeme.text, (back ++ after).flatMap Lexeme.text, closers,
    ?_, hclosers, ?_⟩
  · rw [← List.flatMap_append, ← hwhole, flatMap_lex]
  · rw [lex_append hwhole hgarbage hends, cut_closerText hclosers]
    have hkinds := kinds_place_closers hclosers
      (Utf8.size ((front ++ [last]).flatMap Lexeme.text))
    generalize place _ _ = closing at hkinds ⊢
    have hcloser : ∀ lexeme ∈ closing, lexeme.kind.IsCloser := by
      intro lexeme hmem
      exact hclosers lexeme.kind (hkinds ▸ List.mem_map_of_mem hmem)
    apply isSentence_of_closing hclosed hlastTrivia hcloser _ hallows
    rw [hfront]
    exact hspells closing hkinds

/-- A fragment that is read without a report and has a root: a beginning of it and some closing
brackets after that are a complete body, which has the same root at the same places. -/
theorem exists_completion {limit : Option Nat} {source : String}
    (hsilent : ((Options.fragmentWithin limit).parse source).IsSilent)
    (hroot : ((Options.fragmentWithin limit).parse source).root.isSome = true) :
    ∃ kept dropped closing : List Char, source.toList = kept ++ dropped ∧
      (∀ c ∈ closing, c = ']' ∨ c = '}') ∧
      ((Options.groupWithin limit).parse (String.ofList (kept ++ closing))).IsSilent ∧
      ((Options.groupWithin limit).parse (String.ofList (kept ++ closing))).tree =
        ((Options.fragmentWithin limit).parse source).tree := by
  let setting := (Options.fragmentWithin limit).setting source
  have hfinish :
      ((Reader.start.run setting (lex source)).finish setting false).reports = [] :=
    (Body.isSilent_ofOutcome_iff _).mp hsilent
  have hrun := Reader.reports_eq_nil_of_suffix (Reader.suffix_finish _ _ _) hfinish
  obtain ⟨before, after, last, hlex, hlast, hend⟩ :=
    Reader.follows_or_cut_run Reader.start_follows hrun
  have hsame : ((Reader.start.run setting (lex source)).finish setting false).root =
      last.cutRoot := by
    rcases hend with hsame | hcut
    · rw [hsame]
      exact (Reader.finish_of_follows hlast rfl).1
    · rw [hcut]
      rfl
  obtain ⟨value, hvalue⟩ := Option.isSome_iff_exists.mp hroot
  have hcutRoot : last.cutRoot = some value := hsame.symm.trans hvalue
  have hallows : Allows limit value.nesting := allows_nesting_of_root hvalue
  obtain ⟨kept, dropped, closers, hsource, hclosers, hsentence⟩ :=
    exists_isSentence hlex hlast.allSound (hlast.completes value hcutRoot) hallows
  refine ⟨kept, dropped, Lexer.closerText closers, hsource, ?_, ?_, ?_⟩
  · intro c hmem
    obtain ⟨kind, hkind, rfl⟩ := List.mem_map.mp hmem
    rcases hclosers kind hkind with rfl | rfl
    · exact Or.inr rfl
    · exact Or.inl rfl
  · rw [parse_of_isSentence hsentence]
    rfl
  · rw [parse_of_isSentence hsentence, Body.tree, Body.tree, hvalue]

theorem exists_completion_cut_word :
    ((Options.fragmentWithin (some 2)).parse "[1, [tr").IsSilent ∧
      ∃ kept dropped closing : List Char, "[1, [tr".toList = kept ++ dropped ∧
        (∀ c ∈ closing, c = ']' ∨ c = '}') ∧
        ((Options.groupWithin (some 2)).parse (String.ofList (kept ++ closing))).IsSilent ∧
        ((Options.groupWithin (some 2)).parse (String.ofList (kept ++ closing))).tree =
          ((Options.fragmentWithin (some 2)).parse "[1, [tr").tree := by
  have hsilent : ((Options.fragmentWithin (some 2)).parse "[1, [tr").IsSilent := by
    unfold Body.IsSilent
    decide +kernel
  have hroot : ((Options.fragmentWithin (some 2)).parse "[1, [tr").root.isSome = true := by
    decide +kernel
  exact ⟨hsilent, exists_completion hsilent hroot⟩

end QueryBody
