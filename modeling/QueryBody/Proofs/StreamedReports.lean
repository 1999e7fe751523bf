import QueryBody.Proofs.Acceptance
import QueryBody.Proofs.LaterReports
import Mathlib.Tactic

/-!
# Reports about fragments

In a body that may be cut off, the end is never a mistake: each report is about a token, no
report says that something has no end, and no token is malformed because the body ends in
it.
-/

namespace QueryBody

/-- The problems of a body that ends too early. -/
def Problem.ofEnd : List Problem :=
  [.unexpectedEnd, .unclosedObject, .unclosedArray, .unterminatedComment]

/-- The diagnostic is about a token of the body and does not come from the end of the body. -/
structure Diagnostic.IsBeforeEnd (lexemes : List Lexeme) (size : Nat) (diagnostic : Diagnostic) :
    Prop where
  token : ∃ lexeme ∈ lexemes, diagnostic.token = some lexeme.toToken
  problem : diagnostic.problem ∉ Problem.ofEnd
  complete : diagnostic.problem = .unterminatedString ∨ diagnostic.problem = .malformedMarker →
    ∀ token, diagnostic.token = some token → token.span.stop ≠ size

namespace Diagnostic

variable {lexemes : List Lexeme} {size : Nat} {lexeme : Lexeme} {diagnostic : Diagnostic}

theorem isBeforeEnd_of_token (hmem : lexeme ∈ lexemes)
    (htoken : diagnostic.token = some lexeme.toToken)
    (hproblem : diagnostic.problem ∉ Problem.ofEnd)
    (hcomplete : diagnostic.problem ≠ .unterminatedString ∧
      diagnostic.problem ≠ .malformedMarker) :
    diagnostic.IsBeforeEnd lexemes size :=
  ⟨⟨lexeme, hmem, htoken⟩, hproblem,
    fun hopen => (hopen.elim hcomplete.1 hcomplete.2).elim⟩

end Diagnostic

namespace Report

variable {setting : Setting} {lexemes : List Lexeme} {lexeme : Lexeme} {diagnostic : Diagnostic}

theorem isOpen_of_noValue (hproblem : (noValue lexeme).problem = .unterminatedString ∨
    (noValue lexeme).problem = .malformedMarker) : lexeme.isOpen = true := by
  unfold noValue at hproblem
  dsimp only at hproblem
  unfold Lexeme.isOpen
  split at hproblem
  next hkind => rw [hkind]
  next hkind => split at hproblem <;> rcases hproblem with hproblem | hproblem <;> cases hproblem
  next hkind => rcases hproblem with hproblem | hproblem <;> cases hproblem
  next hkind => rw [hkind]
  all_goals rcases hproblem with hproblem | hproblem <;> cases hproblem

theorem isBeforeEnd_noValue (hfragments : setting.allowsFragments = true)
    (hmem : lexeme ∈ lexemes) (hcut : setting.isCutIn lexeme = false) :
    (noValue lexeme).IsBeforeEnd lexemes setting.size := by
  have habout := noValue_isAbout lexeme
  have hend : ∀ problem ∈ Problem.ofNoValue, problem ∉ Problem.ofEnd := by decide
  refine ⟨⟨lexeme, hmem, habout.token⟩, hend _ (problem_noValue_mem lexeme), ?_⟩
  intro hproblem token htoken hstop
  obtain rfl : lexeme.toToken = token := Option.some.inj (habout.token.symm.trans htoken)
  have hopen := isOpen_of_noValue hproblem
  simp [Setting.isCutIn, hfragments, hstop, hopen] at hcut

theorem Noted.isBeforeEnd (hfragments : setting.allowsFragments = true)
    (hmem : lexeme ∈ lexemes) (hnoted : Noted setting lexeme diagnostic) :
    diagnostic.IsBeforeEnd lexemes setting.size := by
  cases hnoted with
  | @instead problem hproblem =>
      have hplain : ∀ problem ∈ Problem.misplacements, problem ∉ Problem.ofEnd ∧
          problem ≠ .unterminatedString ∧ problem ≠ .malformedMarker := by decide
      obtain ⟨hend, hcomplete⟩ := hplain problem hproblem
      exact Diagnostic.isBeforeEnd_of_token hmem rfl hend hcomplete
  | noValue hcut => exact isBeforeEnd_noValue hfragments hmem hcut
  | mismatched container =>
      have hend : (Report.mismatched container lexeme).problem ∉ Problem.ofEnd := by
        change Problem.mismatchedDelimiter ∉ Problem.ofEnd
        decide
      exact Diagnostic.isBeforeEnd_of_token hmem rfl hend ⟨nofun, nofun⟩

theorem Reported.isBeforeEnd (hfragments : setting.allowsFragments = true)
    (hmem : lexeme ∈ lexemes) (hreported : Reported setting lexeme diagnostic) :
    diagnostic.IsBeforeEnd lexemes setting.size := by
  cases hreported with
  | noted hnoted => exact hnoted.isBeforeEnd hfragments hmem
  | @tooDeep depth limit hexceeded =>
      have hend : (Report.tooDeep limit lexeme).problem ∉ Problem.ofEnd := by
        change Problem.nestingTooDeep ∉ Problem.ofEnd
        decide
      exact Diagnostic.isBeforeEnd_of_token hmem rfl hend ⟨nofun, nofun⟩
  | trailingComma =>
      have hend : (Report.trailingComma lexeme.toToken).problem ∉ Problem.ofEnd := by
        change Problem.trailingComma ∉ Problem.ofEnd
        decide
      exact Diagnostic.isBeforeEnd_of_token hmem rfl hend ⟨nofun, nofun⟩
  | openComment hstrict => simp [hfragments] at hstrict

end Report

/-- The end of a body that may be cut off is never reported, nor is a token that only ends because
the body does. -/
theorem diagnostics_before_end {options : Options} (hraw : options.isGroup = false)
    (hfragments : options.allowsFragments = true) (source : String) :
    ∀ diagnostic ∈ (options.parse source).diagnostics.toList,
      diagnostic.IsBeforeEnd (lex source) (Utf8.size source.toList) := by
  let setting := options.setting source
  have hreports : ((Reader.start.run setting (lex source)).finish setting
      options.isGroup).reports = (Reader.start.run setting (lex source)).reports := by
    rw [hraw]
    exact Reader.finish_reports_of_fragments hfragments _
  intro diagnostic hmem
  have hrun : diagnostic ∈ (Reader.start.run setting (lex source)).reports :=
    hreports ▸ List.mem_reverse.mp hmem
  exact Reader.forall_mem_run
    (fun lexeme hlexeme _ hreported => hreported.isBeforeEnd hfragments hlexeme) diagnostic hrun

/-- The broken marker in the array is reported; that the comment and the array have no end is
not. -/
theorem diagnostics_before_end_of_comment :
    (Options.fragmentWithin (some 1)).isGroup = false ∧
      (Options.fragmentWithin (some 1)).allowsFragments = true ∧
      ((Options.fragmentWithin (some 1)).parse "[\x7b\x7b#to, 1 /* ]").diagnostics.size = 1 ∧
      ∀ diagnostic ∈
          ((Options.fragmentWithin (some 1)).parse "[\x7b\x7b#to, 1 /* ]").diagnostics.toList,
        diagnostic.IsBeforeEnd (lex "[\x7b\x7b#to, 1 /* ]")
          (Utf8.size "[\x7b\x7b#to, 1 /* ]".toList) :=
  ⟨rfl, rfl, by decide +kernel, diagnostics_before_end rfl rfl _⟩

end QueryBody
