import QueryBody.Proofs.Beginnings
import QueryBody.Proofs.Meaning
import QueryBody.Proofs.SilentRun
import Mathlib.Tactic

/-!
# What a group accepts

A body that must be complete is read without a report exactly if it is a sentence:
its comments are closed, its other tokens spell a value, and the value nests no deeper
than the limit allows.  That value is then the root.
-/

namespace QueryBody

namespace Options

/-- The options of a body that must be complete, with a nesting limit. -/
def groupWithin (limit : Option Nat) : Options := { isGroup := true, nestingLimit := limit }

/-- The options of a body that may be cut off, with a nesting limit. -/
def fragmentWithin (limit : Option Nat) : Options := { nestingLimit := limit }

end Options

/-- Nothing has been reported. -/
def Body.IsSilent (body : Body) : Prop := body.diagnostics.toList = []

/-- The tokens are a complete body with this value. -/
structure IsSentence (limit : Option Nat) (lexemes : List Lexeme) (value : Value) : Prop where
  closed : ∀ lexeme ∈ lexemes, lexeme.kind ≠ .unterminatedComment
  spells : Spells value (significant lexemes)
  allows : Allows limit value.nesting

namespace Setting

variable {setting : Setting}

theorem isCutInMarker_of_strict (hstrict : setting.allowsFragments = false) (lexeme : Lexeme) :
    setting.isCutInMarker lexeme = false := by
  simp [isCutInMarker, isCutIn, hstrict]

theorem isCutIn_of_strict (hstrict : setting.allowsFragments = false) (lexeme : Lexeme) :
    setting.isCutIn lexeme = false := by
  simp [isCutIn, hstrict]

end Setting

namespace Reader

variable {setting : Setting}

/-- Tokens between the tokens of the grammar do not matter, but for a comment without an end. -/
theorem run_significant {lexemes : List Lexeme}
    (hclosed : setting.allowsFragments = true ∨
      ∀ lexeme ∈ lexemes, lexeme.kind ≠ .unterminatedComment) (reader : Reader) :
    reader.run setting lexemes = reader.run setting (significant lexemes) := by
  induction lexemes generalizing reader with
  | nil => rfl
  | cons lexeme rest ih =>
      have hrest : setting.allowsFragments = true ∨
          ∀ later ∈ rest, later.kind ≠ .unterminatedComment :=
        hclosed.imp_right fun hall later hlater => hall later (List.mem_cons_of_mem lexeme hlater)
      rw [run_cons, ih hrest]
      cases htrivia : lexeme.kind.isTrivia with
      | true =>
          have hquiet : reader.step setting lexeme = reader := by
            rcases hclosed with hfragments | hall
            · simp [step, htrivia, ignore, hfragments]
            · simp [step, htrivia, ignore, hall lexeme List.mem_cons_self]
          rw [hquiet, significant_cons_of_isTrivia htrivia]
      | false => rw [significant_cons_of_not_isTrivia htrivia, run_cons]

/-- A comment without an end is reported wherever a sentence could go on. -/
theorem closed_of_silent {reader : Reader} {front lexemes : List Lexeme}
    (hfollows : reader.Follows front) (hstrict : setting.allowsFragments = false)
    (hsilent : (reader.run setting lexemes).reports = []) :
    ∀ lexeme ∈ lexemes, lexeme.kind ≠ .unterminatedComment := by
  induction lexemes generalizing reader front with
  | nil => simp
  | cons lexeme rest ih =>
      rw [run_cons] at hsilent
      have hstep := reports_eq_nil_of_suffix (suffix_run setting _ rest) hsilent
      have hnext :=
        follows_step hfollows (Setting.isCutInMarker_of_strict hstrict lexeme) hstep
      intro later hlater
      rcases List.mem_cons.mp hlater with rfl | hrest
      · intro hkind
        simp only [step, hkind, Kind.isTrivia, ignore, hstrict, hfollows.isStopped, if_true,
          decide_true, Bool.not_false, Bool.and_self] at hstep
        exact Report.add_ne_nil _ _ hstep
      · exact ih hnext hsilent later hrest

/-- Something is reported at the end of the body after these reports. -/
def ReportsEnd (setting : Setting) (reports : List Diagnostic) (outcome : Outcome) : Prop :=
  ∃ diagnostic, diagnostic.offset = setting.size ∧
    Report.add diagnostic reports <:+ outcome.reports

theorem reportsEnd_endIn (hstrict : setting.allowsFragments = false) (container : Container)
    (holes : List Hole) (reports : List Diagnostic) :
    ReportsEnd setting reports (endIn setting container holes reports) := by
  refine ⟨Report.unclosed container setting.size, by cases container <;> rfl, ?_⟩
  simp only [endIn, hstrict]
  exact List.suffix_rfl

theorem reportsEnd_endBefore (hstrict : setting.allowsFragments = false)
    {diagnostic : Diagnostic} (hoffset : diagnostic.offset = setting.size) (holes : List Hole)
    (reports : List Diagnostic) :
    ReportsEnd setting reports (endBefore setting diagnostic holes reports) := by
  refine ⟨diagnostic, hoffset, ?_⟩
  simp only [endBefore, hstrict]
  exact suffix_endWithout setting holes _

theorem finished_or_reportsEnd {reader : Reader} {lexemes : List Lexeme}
    (hfollows : reader.Follows lexemes) (hstrict : setting.allowsFragments = false) :
    (∃ value, Spells value lexemes ∧ reader = ⟨.finished (some value), [], reader.reports⟩) ∨
      ReportsEnd setting reader.reports (reader.finish setting true) := by
  cases hfollows with
  | value hsurround reports =>
      rename_i holes
      cases holes with
      | nil => exact Or.inr ⟨Report.missing .expectedValue setting.size, rfl, List.suffix_rfl⟩
      | cons hole rest => exact Or.inr (reportsEnd_endBefore hstrict rfl _ _)
  | opened hsurround hholds hempty reports => exact Or.inr (reportsEnd_endIn hstrict _ _ _)
  | separated hsurround hholds hne hcomma reports =>
      exact Or.inr (reportsEnd_endIn hstrict _ _ _)
  | separator hsurround hholds hne reports => exact Or.inr (reportsEnd_endIn hstrict _ _ _)
  | colon hsurround hawaits hname reports =>
      refine Or.inr ⟨Report.missing .expectedColon setting.size, rfl, ?_⟩
      simp only [finish, endAfterName, hstrict]
      exact suffix_endIn setting _ _ _
  | parameterName hsurround hmarker reports =>
      exact Or.inr (reportsEnd_endBefore hstrict rfl _ _)
  | parameterClose hsurround hmarker hname reports =>
      exact Or.inr (reportsEnd_endBefore hstrict rfl _ _)
  | finished hspells reports => exact Or.inl ⟨_, hspells, rfl⟩

theorem finished_of_silent {reader : Reader} {lexemes : List Lexeme}
    (hfollows : reader.Follows lexemes) (hstrict : setting.allowsFragments = false)
    (hsilent : (reader.finish setting true).reports = []) :
    ∃ value, Spells value lexemes ∧ reader = ⟨.finished (some value), [], []⟩ := by
  have hreports := reports_eq_nil_of_suffix (suffix_finish setting true reader) hsilent
  rcases finished_or_reportsEnd hfollows hstrict with ⟨value, hspells, hreader⟩ | ⟨_, -, hsuffix⟩
  · exact ⟨value, hspells, hreports ▸ hreader⟩
  · exact (not_silent_of_add hsuffix hsilent).elim

end Reader

namespace Body

theorem isSilent_ofOutcome_iff (outcome : Reader.Outcome) :
    (ofOutcome outcome).IsSilent ↔ outcome.reports = [] := by
  simp [IsSilent, ofOutcome]

end Body

theorem admitted_of_root {options : Options} {source : String} {value : Value}
    (hroot : (options.parse source).root = some value) :
    value.Admitted options.nestingLimit 0 := by
  let setting := options.setting source
  have hlegible : ∀ lexeme ∈ lex source, lexeme.IsLegible :=
    fun lexeme hmem => isLegible_of_mem_lex hmem
  have hreached : (Reader.start.run setting (lex source)).Admitted setting.nestingLimit :=
    Reader.admitted_run hlegible Reader.admitted_start
  exact Reader.admitted_finish hreached options.isGroup value hroot

/-- Whatever is wrong with a body, its root nests no deeper than the limit allows. -/
theorem allows_nesting_of_root {options : Options} {source : String} {value : Value}
    (hroot : (options.parse source).root = some value) :
    Allows options.nestingLimit value.nesting := by
  have hallows := (admitted_of_root hroot).allows_nesting (Allows.zero options.nestingLimit)
  exact hallows.mono (by simp)

theorem run_significant_of_isSentence {limit : Option Nat} {lexemes : List Lexeme} {value : Value}
    (hsentence : IsSentence limit lexemes value) (source : String) :
    Reader.start.run ((Options.groupWithin limit).setting source) (significant lexemes) =
      ⟨.finished (some value), [], []⟩ := by
  have hroom : Allows limit (([] : List Hole).length + value.nesting) :=
    hsentence.allows.mono (by simp)
  exact hsentence.spells.delivers (fun lexeme _ => Setting.isCutIn_of_strict rfl lexeme) [] [] hroom

theorem run_of_isSentence {limit : Option Nat} {source : String} {value : Value}
    (hsentence : IsSentence limit (lex source) value) :
    Reader.start.run ((Options.groupWithin limit).setting source) (lex source) =
      ⟨.finished (some value), [], []⟩ := by
  rw [Reader.run_significant (Or.inr hsentence.closed)]
  exact run_significant_of_isSentence hsentence source

theorem parse_of_isSentence {limit : Option Nat} {source : String} {value : Value}
    (hsentence : IsSentence limit (lex source) value) :
    (Options.groupWithin limit).parse source = ⟨some value, .empty, false⟩ := by
  rw [Options.parse, run_of_isSentence hsentence]
  rfl

theorem finished_of_isSilent {limit : Option Nat} {source : String}
    (hsilent : ((Options.groupWithin limit).parse source).IsSilent) :
    let strict := (Options.groupWithin limit).setting source
    (Reader.start.run strict (lex source)).reports = [] ∧
      ∃ value, Spells value (significant (lex source)) ∧
        Reader.start.run strict (lex source) = ⟨.finished (some value), [], []⟩ := by
  intro strict
  have hfinish : ((Reader.start.run strict (lex source)).finish strict true).reports = [] :=
    (Body.isSilent_ofOutcome_iff _).mp hsilent
  have hrun := Reader.reports_eq_nil_of_suffix (Reader.suffix_finish _ _ _) hfinish
  have hfollows := Reader.follows_run Reader.start_follows
    (fun lexeme _ => Setting.isCutInMarker_of_strict rfl lexeme) hrun
  exact ⟨hrun, Reader.finished_of_silent hfollows rfl hfinish⟩

theorem isSentence_of_isSilent {limit : Option Nat} {source : String}
    (hsilent : ((Options.groupWithin limit).parse source).IsSilent) :
    ∃ value, IsSentence limit (lex source) value := by
  obtain ⟨hrun, value, hspells, hreader⟩ := finished_of_isSilent hsilent
  have hroot : ((Options.groupWithin limit).parse source).root = some value := by
    rw [Options.parse, hreader]
    rfl
  refine ⟨value, Reader.closed_of_silent Reader.start_follows rfl hrun, hspells, ?_⟩
  exact allows_nesting_of_root hroot

/-- A group is accepted exactly if it is a sentence, and then it is the value of the sentence,
in which the strings are unescaped and a repeated key keeps its place and its last value. -/
theorem isSilent_iff_isSentence (limit : Option Nat) (source : String) :
    (((Options.groupWithin limit).parse source).IsSilent ↔
        ∃ value, IsSentence limit (lex source) value) ∧
      (∀ value, IsSentence limit (lex source) value →
        ((Options.groupWithin limit).parse source).root = some value ∧
          ((Options.groupWithin limit).parse source).datum? = some value.meaning) ∧
      ∀ lexeme ∈ lex source, lexeme.kind = .string →
        unescape lexeme.content = .ok lexeme.string.toList := by
  refine ⟨⟨isSentence_of_isSilent, ?_⟩, ?_, ?_⟩
  · rintro ⟨value, hsentence⟩
    rw [parse_of_isSentence hsentence]
    rfl
  · intro value hsentence
    rw [parse_of_isSentence hsentence]
    exact ⟨rfl, congrArg some value.datum_eq_meaning⟩
  · intro lexeme hmem hkind
    exact unescape_content_of_mem_lex hmem hkind

end QueryBody
