import QueryBody.Proofs.LaterReports
import Mathlib.Tactic

/-!
# Earlier reports

What a reader has reported plays no part in how it reads on.  It only matters whether the
latest report stands at the place of the next, and it does not where all reports are about
earlier tokens.  So either a token is taken without a report, and then in the same way
after any reports, or something new is reported.
-/

namespace QueryBody
namespace Reader

variable {setting : Setting} {lexeme : Lexeme} {first last reader : Reader}

theorem turns_quiet_or (hturns : Relation.ReflTransGen (Turn setting lexeme) first last) :
    (last.reports = first.reports ∧
        ∀ reports, Relation.ReflTransGen (Turn setting lexeme) (first.withReports reports)
          (last.withReports reports)) ∨
      ∃ diagnostic, Report.Noted setting lexeme diagnostic ∧
        Report.add diagnostic first.reports <:+ last.reports := by
  induction hturns with
  | refl => exact Or.inl ⟨rfl, fun _ => .refl⟩
  | tail _ hlast ih =>
      rcases ih with ⟨hsame, hquiet⟩ | ⟨diagnostic, hnoted, hsuffix⟩
      · rcases hlast.quiet_or with ⟨hsameLast, hquietLast⟩ | ⟨diagnostic, hnoted, hadd⟩
        · exact Or.inl ⟨hsameLast.trans hsame,
            fun reports => (hquiet reports).tail (hquietLast reports)⟩
        · exact Or.inr ⟨diagnostic, hnoted, by rw [hadd, hsame]⟩
      · refine Or.inr ⟨diagnostic, hnoted, hsuffix.trans ?_⟩
        rcases hlast.quiet_or with ⟨hsameLast, -⟩ | ⟨later, -, hadd⟩
        · rw [hsameLast]
        · rw [hadd]
          exact Report.suffix_add later _

/-- A token is taken without a report, and then in the same way after any reports, or there is a
new one. -/
theorem take_quiet_or (hstrict : setting.allowsFragments = false) (lexeme : Lexeme)
    (reader : Reader) :
    ((reader.take setting lexeme).reports = reader.reports ∧
        ∀ reports, (reader.withReports reports).take setting lexeme =
          (reader.take setting lexeme).withReports reports) ∨
      ∃ diagnostic, reader.ReportsAbout setting lexeme diagnostic ∧
        Report.add diagnostic reader.reports <:+ (reader.take setting lexeme).reports := by
  obtain ⟨turned, hturns, hshift⟩ := moves_take setting reader lexeme
  rcases turns_quiet_or hturns with ⟨hsame, hquiet⟩ | ⟨diagnostic, hnoted, hsuffix⟩
  · rcases hshift.quiet_or with ⟨hsameShift, hquietShift⟩ | ⟨diagnostic, habout, hadd⟩
    · refine Or.inl ⟨hsameShift.trans hsame, fun reports => ?_⟩
      rw [← take_of_turns (hquiet reports), (hquietShift reports).take_eq hstrict]
    · refine Or.inr ⟨diagnostic, habout.imp_right ?_, by rw [hadd, hsame]⟩
      rintro ⟨hcomma, hcloser⟩
      -- a comma waits only where the reader has not turned
      rcases hturns.cases_tail with hrefl | ⟨mid, -, hlast⟩
      · exact ⟨hrefl ▸ hcomma, hcloser⟩
      · exact (hlast.not_reportsComma diagnostic hcomma).elim
  · refine Or.inr ⟨diagnostic, Or.inl hnoted.reported, hsuffix.trans ?_⟩
    rcases hshift.quiet_or with ⟨hsameShift, -⟩ | ⟨later, -, hadd⟩
    · rw [hsameShift]
    · rw [hadd]
      exact Report.suffix_add later _

theorem take_withReports (hstrict : setting.allowsFragments = false)
    (hsilent : (reader.take setting lexeme).reports = []) (reports : List Diagnostic) :
    (reader.withReports reports).take setting lexeme =
      (reader.take setting lexeme).withReports reports := by
  rcases take_quiet_or hstrict lexeme reader with ⟨-, hquiet⟩ | ⟨diagnostic, -, hsuffix⟩
  · exact hquiet reports
  · exact (not_silent_of_add hsuffix hsilent).elim

theorem run_withReports (hstrict : setting.allowsFragments = false) {tokens : List Lexeme}
    (hshown : ∀ token ∈ tokens, token.kind.isTrivia = false)
    (hsilent : (reader.run setting tokens).reports = []) (reports : List Diagnostic) :
    (reader.withReports reports).run setting tokens =
      (reader.run setting tokens).withReports reports := by
  induction tokens generalizing reader with
  | nil => rfl
  | cons token rest ih =>
      rw [List.forall_mem_cons] at hshown
      rw [run_cons, step_of_not_isTrivia hshown.1] at hsilent
      have htaken := reports_eq_nil_of_suffix (suffix_run setting _ _) hsilent
      rw [run_cons, run_cons, step_of_not_isTrivia hshown.1, step_of_not_isTrivia hshown.1,
        take_withReports hstrict htaken, ih hshown.2 hsilent]

end Reader
end QueryBody
