import QueryBody.Proofs.Blanking
import QueryBody.Proofs.EarlierReports
import QueryBody.Proofs.Tiling
import QueryBody.Proofs.Truncation
import Mathlib.Tactic

/-!
# Missing separators

A complete body from which commas and colons are missing is read as if they were there.
The reader notices each of them at the next token, reports it there and takes the token
from where the separator would have led.
-/

namespace QueryBody

/-- What is wrong where a separator of this kind is missing. -/
def Kind.missed (kind : Kind) : Problem :=
  if kind = .comma then .missingComma else .expectedColon

namespace Reader

variable {setting : Setting} {lexeme : Lexeme} {first last reader : Reader}

/-! ### A single separator -/

variable {separator next : Lexeme} {front : List Lexeme}

/-- The separator leads from one reader to the other. -/
inductive Crosses (separator : Lexeme) : Reader → Reader → Prop
  | comma (hkind : separator.kind = .comma) (container : Container) (holes : List Hole)
      (reports : List Diagnostic) :
      Crosses separator ⟨.separator container, holes, reports⟩
        ⟨.part container (some separator.toToken), holes, reports⟩
  | colon (hkind : separator.kind = .colon) (opener : Token) (members : List Member) (key : Key)
      (holes : List Hole) (reports : List Diagnostic) :
      Crosses separator ⟨.colon opener members key, holes, reports⟩
        ⟨.value, .property opener members key :: holes, reports⟩

/-- A separator that is taken silently is one of two that the reader expects. -/
theorem crosses_take (hfollows : reader.Follows front) (hstrict : setting.allowsFragments = false)
    (hseparator : separator.kind.isSeparator = true)
    (hsilent : (reader.take setting separator).reports = []) :
    Crosses separator reader (reader.take setting separator) := by
  have hexpects := expects_of_silent hfollows
    (Setting.isCutInMarker_of_strict hstrict separator) hsilent
  simp only [Kind.isSeparator, Bool.or_eq_true, decide_eq_true_eq] at hseparator
  obtain ⟨focus, holes, reports⟩ := reader
  cases focus with
  | separator container =>
      have hkind : separator.kind = .comma := by
        refine hseparator.resolve_right fun hcolon => ?_
        rcases hexpects with hcomma | hcloser
        · rw [hcolon] at hcomma
          contradiction
        · cases container <;> rw [hcolon] at hcloser <;> contradiction
      rw [take_separator_comma hkind]
      exact .comma hkind container holes reports
  | colon opener members key =>
      rw [take_colon (Setting.isCutIn_of_strict hstrict separator) hexpects]
      exact .colon hexpects opener members key holes reports
  | part container comma =>
      cases container <;> rcases hseparator with hkind | hkind <;> rw [hkind] at hexpects <;>
        rcases hexpects with hbegins | ⟨-, hcloser⟩ <;> contradiction
  | value | parameterName marker | parameterClose marker name =>
      rcases hseparator with hkind | hkind <;> rw [hkind] at hexpects <;> contradiction
  | _ => exact hexpects.elim

theorem beginsPart_of_expects {container : Container} {comma : Token} {kind : Kind}
    (hexpects : (Focus.part container (some comma)).Expects kind) :
    beginsPart container kind = true := by
  rcases hexpects with hbegins | ⟨hnone, -⟩
  · exact hbegins
  · contradiction

theorem valueFirst_of_beginsPart {container : Container} {kind : Kind}
    (hbegins : beginsPart container kind = true) : KindSet.valueFirst.contains kind = true := by
  cases container with
  | array opener items => exact hbegins
  | object opener members =>
      obtain rfl : kind = .string := by simpa [beginsPart] using hbegins
      rfl

namespace Crosses

theorem valueFirst (hcrosses : Crosses separator first last)
    (hexpects : last.focus.Expects next.kind) :
    KindSet.valueFirst.contains next.kind = true := by
  cases hcrosses with
  | comma hkind container holes reports =>
      exact valueFirst_of_beginsPart (beginsPart_of_expects hexpects)
  | colon hkind opener members key holes reports => exact hexpects

theorem focus_ne (hcrosses : Crosses separator first last) (root : Option Value) :
    last.focus ≠ .finished root := by
  cases hcrosses <;> simp

/-- A missing separator is reported at the next token, which is then taken as if it were there. -/
theorem take_missing (hcrosses : Crosses separator first last)
    (hstrict : setting.allowsFragments = false) (hexpects : last.focus.Expects next.kind)
    (hsilent : (last.take setting next).reports = []) (reports : List Diagnostic) :
    (first.withReports reports).take setting next =
      (last.take setting next).withReports
        (Report.add (Report.instead separator.kind.missed next) reports) := by
  have hfirst := hcrosses.valueFirst hexpects
  have hrecovery := KindSet.valueRecovery_of_valueFirst hfirst
  rw [← take_withReports hstrict hsilent]
  cases hcrosses with
  | comma hkind container holes earlier =>
      have hturn : Turn setting next ⟨.separator container, holes, reports⟩ _ :=
        .missingComma hrecovery (beginsPart_of_expects hexpects)
      rw [hkind]
      -- whether a comma stood before a part matters only where there is none
      exact hturn.take_eq.trans (by simp [take, part, hrecovery, withReports, Kind.missed])
  | colon hkind opener members key holes earlier =>
      have hother : next.kind ≠ .colon := by
        intro hcolon
        rw [hcolon] at hfirst
        contradiction
      have hturn : Turn setting next ⟨.colon opener members key, holes, reports⟩ _ :=
        .missingColon (Setting.isCutIn_of_strict hstrict next) hother hfirst
      rw [hkind]
      exact hturn.take_eq

end Crosses

end Reader

/-! ### All missing separators -/

/-- The separator is missing before the next token that the grammar sees, and that is what the
diagnostic says. -/
def Misses (lexemes : List Lexeme) (separator : Lexeme) (diagnostic : Diagnostic) : Prop :=
  ∃ front gap next back, lexemes = front ++ separator :: (gap ++ next :: back) ∧
    (∀ lexeme ∈ gap, lexeme.kind.isTrivia = true) ∧ next.kind.isTrivia = false ∧
    diagnostic = Report.instead separator.kind.missed next

namespace Misses

variable {lexemes : List Lexeme} {separator : Lexeme} {diagnostic : Diagnostic}

theorem cons (hmisses : Misses lexemes separator diagnostic) (lexeme : Lexeme) :
    Misses (lexeme :: lexemes) separator diagnostic := by
  obtain ⟨front, gap, next, back, rfl, hrest⟩ := hmisses
  exact ⟨lexeme :: front, gap, next, back, rfl, hrest⟩

theorem of_significant (hmisses : Misses (significant lexemes) separator diagnostic) :
    Misses lexemes separator diagnostic := by
  obtain ⟨front, gap, next, back, hlexemes, hgap, hnext, hdiagnostic⟩ := hmisses
  have hnone : gap = [] := by
    refine List.eq_nil_iff_forall_not_mem.mpr fun lexeme hmem => ?_
    have hshown : lexeme ∈ significant lexemes := by simp [hlexemes, hmem]
    have hnot := isTrivia_of_mem_significant hshown
    rw [hgap lexeme hmem] at hnot
    contradiction
  subst hnone
  obtain ⟨first, rest, rfl, -, hrest⟩ := List.filter_eq_append_iff.mp hlexemes
  obtain ⟨before, after, rfl, -, -, hafter⟩ := List.filter_eq_cons_iff.mp hrest
  obtain ⟨between, back, rfl, hbetween, -, -⟩ := List.filter_eq_cons_iff.mp hafter
  refine ⟨first ++ before, between, next, back, by simp, ?_, hnext, hdiagnostic⟩
  intro lexeme hmem
  simpa using hbetween lexeme hmem

end Misses

/-- Tokens of the grammar behind all reports, of which only separators are removed. -/
structure IsThinned (removed : Lexeme → Bool) (reports : List Diagnostic)
    (tokens : List Lexeme) : Prop where
  shown : ∀ token ∈ tokens, token.kind.isTrivia = false
  separators : ∀ token ∈ tokens, removed token = true → token.kind.isSeparator = true
  ordered : tokens.Pairwise fun earlier later => earlier.span.start < later.span.start
  later : ∀ report ∈ reports, ∀ token ∈ tokens, report.offset < token.span.start

namespace IsThinned

variable {removed : Lexeme → Bool} {reports : List Diagnostic} {token : Lexeme}
  {rest : List Lexeme}

theorem tail (hthinned : IsThinned removed reports (token :: rest)) :
    IsThinned removed reports rest where
  shown := (List.forall_mem_cons.mp hthinned.shown).2
  separators := (List.forall_mem_cons.mp hthinned.separators).2
  ordered := (List.pairwise_cons.mp hthinned.ordered).2
  later report hreport := (List.forall_mem_cons.mp (hthinned.later report hreport)).2

theorem kept (hthinned : IsThinned removed reports (token :: rest))
    (hother : token.kind.isSeparator = false) : removed token = false := by
  by_contra hgone
  rw [hthinned.separators token List.mem_cons_self (by simpa using hgone)] at hother
  contradiction

theorem add_eq (hthinned : IsThinned removed reports (token :: rest)) (problem : Problem) :
    Report.add (Report.instead problem token) reports = Report.instead problem token :: reports :=
  Report.add_of_forall_lt fun report hreport => hthinned.later report hreport token
    List.mem_cons_self

theorem reported (hthinned : IsThinned removed reports (token :: rest)) (problem : Problem) :
    IsThinned removed (Report.instead problem token :: reports) rest where
  shown := hthinned.tail.shown
  separators := hthinned.tail.separators
  ordered := hthinned.tail.ordered
  later := List.forall_mem_cons.mpr
    ⟨(List.pairwise_cons.mp hthinned.ordered).1, hthinned.tail.later⟩

end IsThinned

namespace Reader

variable {setting : Setting} {removed : Lexeme → Bool}

theorem follows_take_of_silent {reader : Reader} {token : Lexeme} {front : List Lexeme}
    (hfollows : reader.Follows front) (hstrict : setting.allowsFragments = false)
    (hsilent : (reader.take setting token).reports = []) :
    (reader.take setting token).Follows (front ++ [token]) :=
  follows_take hfollows (Setting.isCutIn_of_strict hstrict token)
    (fun _ => Setting.isCutInMarker_of_strict hstrict token) hsilent

/-- Without the removed separators the tokens lead the reader to where they lead it with them, and
each of these is reported at the next token. -/
def Mends (setting : Setting) (removed : Lexeme → Bool) (tokens : List Lexeme) (reader : Reader)
    (reports : List Diagnostic) : Prop :=
  ∃ added,
    (reader.withReports reports).run setting (tokens.filter (!removed ·)) =
      (reader.run setting tokens).withReports (added.reverse ++ reports) ∧
    List.Forall₂ (Misses tokens) (tokens.filter removed) added

namespace Mends

variable {reader : Reader} {token next : Lexeme} {rest : List Lexeme}
  {reports : List Diagnostic}

theorem nil : Mends setting removed [] reader reports := ⟨[], rfl, .nil⟩

theorem kept (hrest : Mends setting removed rest (reader.take setting token) reports)
    (hkept : removed token = false) (hstrict : setting.allowsFragments = false)
    (hshown : token.kind.isTrivia = false) (hsilent : (reader.take setting token).reports = []) :
    Mends setting removed (token :: rest) reader reports := by
  obtain ⟨added, hrun, hadded⟩ := hrest
  refine ⟨added, ?_, ?_⟩
  · rw [List.filter_cons_of_pos (by simp [hkept]), run_cons, run_cons,
      step_of_not_isTrivia hshown, step_of_not_isTrivia hshown,
      take_withReports hstrict hsilent, hrun]
  · rw [List.filter_cons_of_neg (by simp [hkept])]
    exact hadded.imp fun _ _ hmisses => hmisses.cons token

/-- The reader takes the next token as if it had taken the separator. -/
theorem missing {report : Diagnostic} (hrest : Mends setting removed rest
      ((reader.take setting token).take setting next) (report :: reports))
    (hremoved : removed token = true) (hkept : removed next = false)
    (hshown : token.kind.isTrivia = false) (hshownNext : next.kind.isTrivia = false)
    (hreport : report = Report.instead token.kind.missed next)
    (htake : (reader.withReports reports).take setting next =
      ((reader.take setting token).take setting next).withReports (report :: reports)) :
    Mends setting removed (token :: next :: rest) reader reports := by
  obtain ⟨added, hrun, hadded⟩ := hrest
  refine ⟨report :: added, ?_, ?_⟩
  · rw [List.filter_cons_of_neg (by simp [hremoved]), List.filter_cons_of_pos (by simp [hkept]),
      run_cons, run_cons, run_cons, step_of_not_isTrivia hshown, step_of_not_isTrivia hshownNext,
      step_of_not_isTrivia hshownNext, htake, hrun, List.reverse_cons, List.append_assoc,
      List.singleton_append]
  · rw [List.filter_cons_of_pos hremoved, List.filter_cons_of_neg (by simp [hkept])]
    refine .cons ⟨[], [], next, rest, rfl, by simp, hshownNext, hreport⟩ ?_
    exact hadded.imp fun _ _ hmisses => (hmisses.cons next).cons token

end Mends

/-- A sentence is read to its end without some of its separators. -/
theorem mends_run (hstrict : setting.allowsFragments = false) {tokens front : List Lexeme}
    {reader : Reader} {reports : List Diagnostic} (hfollows : reader.Follows front)
    (hthinned : IsThinned removed reports tokens)
    (hsilent : (reader.run setting tokens).reports = []) {root : Option Value}
    (hfinished : (reader.run setting tokens).focus = .finished root) :
    Mends setting removed tokens reader reports := by
  -- two tokens at a time, as the lack of one is only noticed at the next
  induction tokens using List.twoStepInduction generalizing reader front reports with
  | nil => exact .nil
  | singleton token =>
      have hshown := hthinned.shown token List.mem_cons_self
      rw [run_cons, step_of_not_isTrivia hshown] at hsilent hfinished
      cases hremoved : removed token with
      | false => exact Mends.nil.kept hremoved hstrict hshown hsilent
      | true =>
          have hseparator := hthinned.separators token List.mem_cons_self hremoved
          have hcrosses := crosses_take hfollows hstrict hseparator hsilent
          exact absurd hfinished (hcrosses.focus_ne root)
  | cons_cons token next rest ih ihTail =>
      have hshown := hthinned.shown token List.mem_cons_self
      rw [run_cons, step_of_not_isTrivia hshown] at hsilent hfinished
      have htaken := reports_eq_nil_of_suffix (suffix_run setting _ _) hsilent
      have hnext := follows_take_of_silent hfollows hstrict htaken
      cases hremoved : removed token with
      | false =>
          have hrest := ihTail next hnext hthinned.tail hsilent hfinished
          exact hrest.kept hremoved hstrict hshown htaken
      | true =>
          have hseparator := hthinned.separators token List.mem_cons_self hremoved
          have hcrosses := crosses_take hfollows hstrict hseparator htaken
          have hshownNext := hthinned.tail.shown next List.mem_cons_self
          rw [run_cons, step_of_not_isTrivia hshownNext] at hsilent hfinished
          have htakenNext := reports_eq_nil_of_suffix (suffix_run setting _ _) hsilent
          have hexpects := expects_of_silent hnext
            (Setting.isCutInMarker_of_strict hstrict next) htakenNext
          have htake := hcrosses.take_missing hstrict hexpects htakenNext reports
          rw [hthinned.tail.add_eq] at htake
          have hother := Kind.isSeparator_of_valueFirst (hcrosses.valueFirst hexpects)
          have hrest := ih (follows_take_of_silent hnext hstrict htakenNext)
            (hthinned.tail.reported token.kind.missed) hsilent hfinished
          exact hrest.missing hremoved (hthinned.tail.kept hother) hshown hshownNext rfl htake

end Reader

/-! ### Whole bodies -/

variable {limit : Option Nat} {source : String} {removed : Lexeme → Bool}

theorem significant_filter (hremoved : ∀ lexeme ∈ lex source,
      removed lexeme = true → lexeme.kind.isSeparator = true) :
    (significant (lex source)).filter removed = (lex source).filter removed := by
  rw [significant, List.filter_filter]
  refine List.filter_congr fun lexeme hmem => ?_
  cases hgone : removed lexeme with
  | false => rfl
  | true => rw [Kind.isTrivia_of_isSeparator (hremoved lexeme hmem hgone)]; rfl

theorem isThinned_significant (hremoved : ∀ lexeme ∈ lex source,
      removed lexeme = true → lexeme.kind.isSeparator = true) :
    IsThinned removed [] (significant (lex source)) where
  shown := fun _ hmem => isTrivia_of_mem_significant hmem
  separators := fun token hmem => hremoved token (List.mem_of_mem_filter hmem)
  ordered := (tiles_lex source).pairwise.filter _
  later := by simp

theorem exists_run_blanked {value : Value} (hsentence : IsSentence limit (lex source) value)
    (hremoved : ∀ lexeme ∈ lex source, removed lexeme = true → lexeme.kind.isSeparator = true) :
    ∃ added,
      Reader.start.run ((Options.groupWithin limit).setting (blanked removed source))
        (lex (blanked removed source)) = ⟨.finished (some value), [], added.reverse⟩ ∧
      List.Forall₂ (Misses (lex source)) ((lex source).filter removed) added := by
  let strict := (Options.groupWithin limit).setting (blanked removed source)
  have hwhole : Reader.start.run strict (significant (lex source)) =
      ⟨.finished (some value), [], []⟩ := run_significant_of_isSentence hsentence _
  have hmends : Reader.Mends strict removed (significant (lex source)) Reader.start [] :=
    Reader.mends_run rfl Reader.start_follows (isThinned_significant hremoved) (by rw [hwhole])
      (by rw [hwhole])
  obtain ⟨added, hrun, hadded⟩ := hmends
  rw [hwhole, List.append_nil] at hrun
  rw [significant_filter hremoved] at hadded
  obtain ⟨htokens, hclosed⟩ := lex_blanked (allSound_of_isSentence hsentence) hremoved
  refine ⟨added, ?_, hadded.imp fun _ _ hmisses => hmisses.of_significant⟩
  rw [Reader.run_significant (Or.inr hclosed), htokens]
  exact hrun

/-- An accepted body from which any commas and colons are missing, each with a space in its place,
has the same tree as before.  Its diagnostics are, in the order of the missing separators, that
each of them is missing before the next token. -/
theorem parse_blanked (hsilent : ((Options.groupWithin limit).parse source).IsSilent)
    (hremoved : ∀ lexeme ∈ lex source, removed lexeme = true → lexeme.kind.isSeparator = true) :
    let mended := (Options.groupWithin limit).parse (blanked removed source)
    mended.tree = ((Options.groupWithin limit).parse source).tree ∧
      List.Forall₂ (Misses (lex source)) ((lex source).filter removed)
        mended.diagnostics.toList := by
  intro mended
  obtain ⟨value, hsentence⟩ := isSentence_of_isSilent hsilent
  obtain ⟨added, hrun, hadded⟩ := exists_run_blanked hsentence hremoved
  have hmended : mended = ⟨some value, ⟨added⟩, false⟩ := by
    change Options.parse _ _ = _
    rw [Options.parse, hrun, Reader.finish, Body.ofOutcome, List.reverse_reverse]
  rw [hmended, parse_of_isSentence hsentence]
  exact ⟨rfl, hadded⟩

theorem parse_blanked_of_colon_and_comma :
    ∃ removed : Lexeme → Bool,
      blanked removed "\x7b\"a\": [1, 2, 3]\x7d" = "\x7b\"a\"  [1  2, 3]\x7d" ∧
      let mended := (Options.groupWithin (some 2)).parse
        (blanked removed "\x7b\"a\": [1, 2, 3]\x7d")
      mended.tree = ((Options.groupWithin (some 2)).parse "\x7b\"a\": [1, 2, 3]\x7d").tree ∧
        List.Forall₂ (Misses (lex "\x7b\"a\": [1, 2, 3]\x7d"))
          ((lex "\x7b\"a\": [1, 2, 3]\x7d").filter removed) mended.diagnostics.toList := by
  let removed : Lexeme → Bool := fun lexeme => lexeme.span.start ∈ [4, 8]
  have hsilent : ((Options.groupWithin (some 2)).parse "\x7b\"a\": [1, 2, 3]\x7d").IsSilent := by
    unfold Body.IsSilent
    decide +kernel
  have hseparators : (lex "\x7b\"a\": [1, 2, 3]\x7d").all fun lexeme =>
      !removed lexeme || lexeme.kind.isSeparator := by
    decide +kernel
  have hremoved : ∀ lexeme ∈ lex "\x7b\"a\": [1, 2, 3]\x7d",
      removed lexeme = true → lexeme.kind.isSeparator = true := by
    intro lexeme hmem hgone
    simpa [hgone] using List.all_eq_true.mp hseparators lexeme hmem
  exact ⟨removed, by decide +kernel, parse_blanked hsilent hremoved⟩

example : ((Options.group.parse "\x7b\"a\"  [1  2, 3]\x7d").diagnostics.toList.map
    fun diagnostic => (diagnostic.problem, diagnostic.offset)) =
      [(.expectedColon, 6), (.missingComma, 10)] := by
  decide +kernel

end QueryBody
