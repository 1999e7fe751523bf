import QueryBody.Body
import Mathlib.Tactic

/-!
# Reports only grow

Whatever a reader does with a token, it keeps the reports it has.  So a run
without reports had none at any time, and whatever adds a report on the way is
excluded from it.
-/

namespace QueryBody
namespace Report

/-- A report is added or dropped. -/
theorem add_eq (diagnostic : Diagnostic) (reports : List Diagnostic) :
    add diagnostic reports = reports ∨ add diagnostic reports = diagnostic :: reports := by
  cases reports with
  | nil => exact Or.inr rfl
  | cons latest rest =>
      simp only [add]
      split
      · exact Or.inl rfl
      · exact Or.inr rfl

theorem suffix_add (diagnostic : Diagnostic) (reports : List Diagnostic) :
    reports <:+ add diagnostic reports := by
  rcases add_eq diagnostic reports with hadd | hadd
  · rw [hadd]
  · rw [hadd]
    exact List.suffix_cons diagnostic reports

theorem add_ne_nil (diagnostic : Diagnostic) (reports : List Diagnostic) :
    add diagnostic reports ≠ [] := by
  cases reports with
  | nil => exact List.cons_ne_nil diagnostic []
  | cons latest rest =>
      simp only [add]
      split <;> exact List.cons_ne_nil _ _

/-- A report behind all earlier ones is not dropped. -/
theorem add_of_forall_lt {diagnostic : Diagnostic} {reports : List Diagnostic}
    (hreports : ∀ earlier ∈ reports, earlier.offset < diagnostic.offset) :
    add diagnostic reports = diagnostic :: reports := by
  cases reports with
  | nil => rfl
  | cons latest rest => exact if_neg (hreports latest List.mem_cons_self).ne

/-- What keeps an added report is not silent. -/
theorem ne_nil_of_suffix_add {diagnostic : Diagnostic} {reports later : List Diagnostic}
    (hsuffix : add diagnostic reports <:+ later) : later ≠ [] := by
  intro hnil
  rw [hnil] at hsuffix
  exact add_ne_nil diagnostic reports (List.suffix_nil.mp hsuffix)

end Report

namespace Reader

@[simp] theorem deliver_reports (value : Option Value) (holes : List Hole)
    (reports : List Diagnostic) : (deliver value holes reports).reports = reports := by
  unfold deliver
  split <;> rfl

theorem suffix_reportComma (comma : Option Token) (reports : List Diagnostic) :
    reports <:+ reportComma comma reports := by
  cases comma with
  | none => exact List.suffix_rfl
  | some comma => exact Report.suffix_add _ _

theorem suffix_close (lexeme : Lexeme) (container : Container) (comma : Option Token)
    (reports : List Diagnostic) (holes : List Hole) :
    reports <:+ (close lexeme container comma reports holes).reports := by
  induction holes generalizing container comma reports with
  | nil =>
      unfold close
      split
      · rw [deliver_reports]
        exact suffix_reportComma comma reports
      · exact (Report.suffix_add _ _).trans (Report.suffix_add _ _)
  | cons hole rest ih =>
      unfold close
      split
      · rw [deliver_reports]
        exact suffix_reportComma comma reports
      · exact (Report.suffix_add _ _).trans (ih _ none _)

theorem suffix_endPart (lexeme : Lexeme) (container : Container) (holes : List Hole)
    (reports : List Diagnostic) :
    reports <:+ (endPart lexeme container holes reports).reports := by
  unfold endPart
  split
  · exact List.suffix_rfl
  · exact suffix_close _ _ _ _ _

theorem suffix_emptyPart (lexeme : Lexeme) (container : Container) (comma : Option Token)
    (holes : List Hole) (reports : List Diagnostic) :
    reports <:+ (emptyPart lexeme container comma holes reports).reports := by
  unfold emptyPart
  split
  · exact Report.suffix_add _ _
  · exact suffix_close _ _ _ _ _

theorem suffix_skip (lexeme : Lexeme) (depth : Nat) (container : Container)
    (next : Resumption) (holes : List Hole) (reports : List Diagnostic) :
    reports <:+ (skip lexeme depth container next holes reports).reports := by
  unfold skip
  split
  · cases next with
    | separator => exact suffix_endPart _ _ _ _
    | part => exact suffix_emptyPart _ _ _ _ _
  · exact List.suffix_rfl

theorem suffix_giveUp (lexeme : Lexeme) (holes : List Hole) (reports : List Diagnostic) :
    reports <:+ (giveUp lexeme holes reports).reports := by
  cases holes with
  | nil => exact Report.suffix_add _ _
  | cons hole rest => exact suffix_skip _ _ _ _ _ _

theorem suffix_skipParameter (lexeme : Lexeme) (depth : Nat) (holes : List Hole)
    (reports : List Diagnostic) :
    reports <:+ (skipParameter lexeme depth holes reports).reports := by
  unfold skipParameter
  split
  · split
    · rw [deliver_reports]
    · exact suffix_giveUp _ _ _
  · exact List.suffix_rfl

theorem suffix_openContainer (setting : Setting) (lexeme : Lexeme) (holes : List Hole)
    (reports : List Diagnostic) :
    reports <:+ (openContainer setting lexeme holes reports).reports := by
  unfold openContainer
  split
  · exact Report.suffix_add _ _
  · exact List.suffix_rfl

theorem suffix_value (setting : Setting) (lexeme : Lexeme) (holes : List Hole)
    (reports : List Diagnostic) :
    reports <:+ (value setting lexeme holes reports).reports := by
  unfold value
  split
  · exact List.suffix_rfl
  split
  · exact (Report.suffix_add _ _).trans (suffix_giveUp _ _ _)
  split
  · exact suffix_openContainer _ _ _ _
  · exact suffix_openContainer _ _ _ _
  · exact List.suffix_rfl
  · split
    · rw [deliver_reports]
    · rw [deliver_reports]
      exact Report.suffix_add _ _

theorem suffix_property (setting : Setting) (lexeme : Lexeme) (opener : Token)
    (members : List Member) (holes : List Hole) (reports : List Diagnostic) :
    reports <:+ (property setting lexeme opener members holes reports).reports := by
  unfold property
  split
  · exact List.suffix_rfl
  split
  · exact List.suffix_rfl
  · exact (Report.suffix_add _ _).trans (suffix_skip _ _ _ _ _ _)

theorem suffix_part (setting : Setting) (lexeme : Lexeme) (container : Container)
    (comma : Option Token) (holes : List Hole) (reports : List Diagnostic) :
    reports <:+ (part setting lexeme container comma holes reports).reports := by
  unfold part
  split
  · exact suffix_emptyPart _ _ _ _ _
  · cases container with
    | array opener items => exact suffix_value _ _ _ _
    | object opener members => exact suffix_property _ _ _ _ _ _

theorem suffix_separator (setting : Setting) (lexeme : Lexeme) (container : Container)
    (holes : List Hole) (reports : List Diagnostic) :
    reports <:+ (separator setting lexeme container holes reports).reports := by
  unfold separator
  split
  · exact suffix_endPart _ _ _ _
  · dsimp only
    split
    · exact (Report.suffix_add _ _).trans (suffix_part _ _ _ _ _ _)
    · exact (Report.suffix_add _ _).trans (suffix_skip _ _ _ _ _ _)

theorem suffix_colon (setting : Setting) (lexeme : Lexeme) (opener : Token)
    (members : List Member) (key : Key) (holes : List Hole) (reports : List Diagnostic) :
    reports <:+ (colon setting lexeme opener members key holes reports).reports := by
  unfold colon
  split
  · exact List.suffix_rfl
  split
  · exact List.suffix_rfl
  · dsimp only
    split
    · exact (Report.suffix_add _ _).trans (suffix_value _ _ _ _)
    · exact (Report.suffix_add _ _).trans (suffix_skip _ _ _ _ _ _)

theorem suffix_parameterName (setting : Setting) (lexeme : Lexeme) (marker : Token)
    (holes : List Hole) (reports : List Diagnostic) :
    reports <:+ (parameterName setting lexeme marker holes reports).reports := by
  unfold parameterName
  split
  · exact List.suffix_rfl
  split
  · exact List.suffix_rfl
  · exact (Report.suffix_add _ _).trans (suffix_skipParameter _ _ _ _)

theorem suffix_parameterClose (setting : Setting) (lexeme : Lexeme) (marker : Token)
    (name : String) (holes : List Hole) (reports : List Diagnostic) :
    reports <:+ (parameterClose setting lexeme marker name holes reports).reports := by
  unfold parameterClose
  split
  · exact List.suffix_rfl
  split
  · rw [deliver_reports]
  · exact (Report.suffix_add _ _).trans (suffix_giveUp _ _ _)

theorem suffix_take (setting : Setting) (reader : Reader) (lexeme : Lexeme) :
    reader.reports <:+ (reader.take setting lexeme).reports := by
  obtain ⟨focus, holes, reports⟩ := reader
  cases focus with
  | value => exact suffix_value _ _ _ _
  | part container comma => exact suffix_part _ _ _ _ _ _
  | separator container => exact suffix_separator _ _ _ _ _
  | colon opener members key => exact suffix_colon _ _ _ _ _ _ _
  | parameterName marker => exact suffix_parameterName _ _ _ _ _
  | parameterClose marker name => exact suffix_parameterClose _ _ _ _ _ _
  | skip depth container next => exact suffix_skip _ _ _ _ _ _
  | skipParameter depth => exact suffix_skipParameter _ _ _ _
  | finished root =>
      unfold take
      dsimp only
      split
      · exact List.suffix_rfl
      · exact Report.suffix_add _ _
  | stopped root isCut => exact List.suffix_rfl

theorem suffix_ignore (setting : Setting) (reader : Reader) (lexeme : Lexeme) :
    reader.reports <:+ (reader.ignore setting lexeme).reports := by
  unfold ignore
  split
  · exact Report.suffix_add _ _
  · exact List.suffix_rfl

theorem suffix_step (setting : Setting) (reader : Reader) (lexeme : Lexeme) :
    reader.reports <:+ (reader.step setting lexeme).reports := by
  unfold step
  split
  · exact suffix_ignore setting reader lexeme
  · exact suffix_take setting reader lexeme

theorem suffix_run (setting : Setting) (reader : Reader) (lexemes : List Lexeme) :
    reader.reports <:+ (reader.run setting lexemes).reports := by
  induction lexemes generalizing reader with
  | nil => exact List.suffix_rfl
  | cons lexeme rest ih =>
      rw [run_cons]
      exact (suffix_step setting reader lexeme).trans (ih (reader.step setting lexeme))

theorem suffix_endIn (setting : Setting) (container : Container) (holes : List Hole)
    (reports : List Diagnostic) :
    reports <:+ (endIn setting container holes reports).reports := by
  unfold endIn
  split
  · exact List.suffix_rfl
  · exact Report.suffix_add _ _

theorem suffix_endWithout (setting : Setting) (holes : List Hole)
    (reports : List Diagnostic) :
    reports <:+ (endWithout setting holes reports).reports := by
  cases holes with
  | nil => exact List.suffix_rfl
  | cons hole rest => exact suffix_endIn _ _ _ _

theorem suffix_endBefore (setting : Setting) (diagnostic : Diagnostic) (holes : List Hole)
    (reports : List Diagnostic) :
    reports <:+ (endBefore setting diagnostic holes reports).reports := by
  unfold endBefore
  split
  · exact List.suffix_rfl
  · exact (Report.suffix_add _ _).trans (suffix_endWithout _ _ _)

theorem suffix_endAfterName (setting : Setting) (opener : Token) (members : List Member)
    (key : Key) (holes : List Hole) (reports : List Diagnostic) :
    reports <:+ (endAfterName setting opener members key holes reports).reports := by
  unfold endAfterName
  split
  · exact suffix_endIn _ _ _ _
  · exact (Report.suffix_add _ _).trans (suffix_endIn _ _ _ _)

theorem suffix_finish (setting : Setting) (isGroup : Bool) (reader : Reader) :
    reader.reports <:+ (reader.finish setting isGroup).reports := by
  obtain ⟨focus, holes, reports⟩ := reader
  cases focus with
  | value =>
      cases holes with
      | nil =>
          cases isGroup with
          | false => exact List.suffix_rfl
          | true => exact Report.suffix_add _ _
      | cons hole rest => exact suffix_endBefore _ _ _ _
  | part container comma => exact suffix_endIn _ _ _ _
  | separator container => exact suffix_endIn _ _ _ _
  | colon opener members key => exact suffix_endAfterName _ _ _ _ _ _
  | parameterName marker => exact suffix_endBefore _ _ _ _
  | parameterClose marker name => exact suffix_endBefore _ _ _ _
  | skip depth container next => exact suffix_endIn _ _ _ _
  | skipParameter depth => exact suffix_endWithout _ _ _
  | finished root => exact List.suffix_rfl
  | stopped root isCut => exact List.suffix_rfl

/-- At the end of a body that may be cut off there is nothing to report. -/
theorem finish_reports_of_fragments {setting : Setting}
    (hfragments : setting.allowsFragments = true) (reader : Reader) :
    (reader.finish setting false).reports = reader.reports := by
  obtain ⟨focus, holes, reports⟩ := reader
  cases focus with
  | value => cases holes <;> simp [finish, endBefore, hfragments]
  | colon opener members key => simp [finish, endAfterName, endIn, hfragments]
  | skipParameter depth => cases holes <;> simp [finish, endWithout, endIn, hfragments]
  | _ => simp [finish, endBefore, endIn, hfragments]

end Reader
end QueryBody
