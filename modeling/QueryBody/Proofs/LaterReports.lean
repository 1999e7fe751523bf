import QueryBody.Proofs.ReportOrder
import Mathlib.Tactic

/-!
# Later reports

A reader takes a token with reports that have a few forms: the token is out of place, it
is no value, it closes or opens a container that it cannot close or open, or it is a comma
or a comment that nothing follows.  What is reported from some token on is about the
tokens that the reader takes from there, or about a comma among them, or stands at the end
of the body.  So a property of these reports follows from the forms of single reports.
-/

namespace QueryBody

/-- What is wrong where another token is expected. -/
def Problem.misplacements : List Problem :=
  [.expectedValue, .expectedPropertyName, .expectedColon, .expectedParameterName,
    .expectedParameterClose, .missingComma, .trailingContent]

/-- What is wrong with a token that is no value. -/
def Problem.ofNoValue : List Problem :=
  [.unterminatedString, .invalidEscape, .malformedNumber, .malformedMarker,
    .unrecognizedCharacter, .unexpectedToken, .expectedValue]

/-- What is wrong with a token before it is taken. -/
def Problem.atToken : List Problem := misplacements ++ ofNoValue ++ [.mismatchedDelimiter]

/-- What is wrong at the end of a body. -/
def Problem.atEnd : List Problem :=
  misplacements ++ [.unexpectedEnd, .unclosedObject, .unclosedArray]

/-- The diagnostic stands at an offset and is not about the nesting. -/
structure Diagnostic.IsPlainAt (offset : Nat) (diagnostic : Diagnostic) : Prop where
  offset_eq : diagnostic.offset = offset
  problem_ne : diagnostic.problem ≠ .nestingTooDeep

namespace Report

/-- What can be reported about a token before it is taken. -/
inductive Noted (setting : Setting) (lexeme : Lexeme) : Diagnostic → Prop
  | instead {problem : Problem} (hproblem : problem ∈ Problem.misplacements) :
      Noted setting lexeme (instead problem lexeme)
  | noValue (hcut : setting.isCutIn lexeme = false) : Noted setting lexeme (noValue lexeme)
  | mismatched (container : Container) : Noted setting lexeme (mismatched container lexeme)

/-- What can be reported about a token. -/
inductive Reported (setting : Setting) (lexeme : Lexeme) : Diagnostic → Prop
  | noted {diagnostic : Diagnostic} (hnoted : Noted setting lexeme diagnostic) :
      Reported setting lexeme diagnostic
  | tooDeep {depth limit : Nat} (hexceeded : setting.exceeded? depth = some limit) :
      Reported setting lexeme (tooDeep limit lexeme)
  | trailingComma : Reported setting lexeme (trailingComma lexeme.toToken)
  | openComment (hstrict : setting.allowsFragments = false) :
      Reported setting lexeme (openComment lexeme)

/-- What can be reported at the end of a body. -/
inductive AtEnd (size : Nat) : Diagnostic → Prop
  | missing {problem : Problem} (hproblem : problem ∈ Problem.misplacements) :
      AtEnd size (missing problem size)
  | unexpectedEnd : AtEnd size (.atEnd .unexpectedEnd size)
  | unclosed (container : Container) : AtEnd size (unclosed container size)

variable {setting : Setting} {lexeme : Lexeme} {diagnostic : Diagnostic}

theorem noted_noProperty (hcut : setting.isCutIn lexeme = false) :
    Noted setting lexeme (noProperty lexeme) := by
  unfold noProperty
  split
  · exact .noValue hcut
  · exact .instead (by decide)

theorem noted_noPart (container : Container) (lexeme : Lexeme) :
    Noted setting lexeme (noPart container lexeme) := by
  cases container <;> exact .instead (by decide)

theorem problem_noValue_mem (lexeme : Lexeme) :
    (noValue lexeme).problem ∈ Problem.ofNoValue := by
  unfold noValue
  dsimp only
  split
  case h_2 =>
    split <;>
      simp [Problem.ofNoValue, Diagnostic.ofToken, Diagnostic.withDetail, Diagnostic.plain]
  all_goals
    simp [Problem.ofNoValue, Diagnostic.ofToken, Diagnostic.withDetail, Diagnostic.plain, instead]

theorem Noted.offset_eq (hnoted : Noted setting lexeme diagnostic) :
    diagnostic.offset = lexeme.span.start := by
  cases hnoted with
  | instead hproblem => rfl
  | noValue hcut => exact (noValue_isAbout lexeme).offset_eq
  | mismatched container => rfl

theorem Noted.problem_mem (hnoted : Noted setting lexeme diagnostic) :
    diagnostic.problem ∈ Problem.atToken := by
  cases hnoted with
  | instead hproblem => exact List.mem_append_left _ (List.mem_append_left _ hproblem)
  | noValue hcut =>
      exact List.mem_append_left _ (List.mem_append_right _ (problem_noValue_mem lexeme))
  | mismatched container => exact List.mem_append_right _ (List.mem_singleton_self _)

theorem Noted.isPlainAt (hnoted : Noted setting lexeme diagnostic) :
    diagnostic.IsPlainAt lexeme.span.start :=
  ⟨hnoted.offset_eq, ne_of_mem_of_not_mem hnoted.problem_mem (by decide)⟩

theorem Noted.reported (hnoted : Noted setting lexeme diagnostic) :
    Reported setting lexeme diagnostic ∧ diagnostic.problem ≠ .trailingComma :=
  ⟨.noted hnoted, ne_of_mem_of_not_mem hnoted.problem_mem (by decide)⟩

theorem Reported.offset_eq (hreported : Reported setting lexeme diagnostic) :
    diagnostic.offset = lexeme.span.start := by
  cases hreported with
  | noted hnoted => exact hnoted.offset_eq
  | tooDeep hexceeded => exact (tooDeep_isAbout _ lexeme).offset_eq
  | trailingComma => rfl
  | openComment hstrict => rfl

/-- Without a limit, no report is about the nesting. -/
theorem Reported.isPlainAt (hunlimited : setting.nestingLimit = none)
    (hreported : Reported setting lexeme diagnostic) :
    diagnostic.IsPlainAt lexeme.span.start := by
  refine ⟨hreported.offset_eq, ?_⟩
  cases hreported with
  | noted hnoted => exact hnoted.isPlainAt.problem_ne
  | tooDeep hexceeded => simp [Setting.exceeded?, hunlimited] at hexceeded
  | trailingComma => exact Problem.noConfusion
  | openComment hstrict => exact Problem.noConfusion

theorem AtEnd.offset_eq {size : Nat} (hend : AtEnd size diagnostic) :
    diagnostic.offset = size := by
  cases hend <;> rfl

theorem AtEnd.problem_mem {size : Nat} (hend : AtEnd size diagnostic) :
    diagnostic.problem ∈ Problem.atEnd := by
  cases hend with
  | missing hproblem => exact List.mem_append_left _ hproblem
  | unexpectedEnd => exact List.mem_append_right _ List.mem_cons_self
  | unclosed container =>
      refine List.mem_append_right _ ?_
      cases container with
      | array opener items =>
          exact List.mem_cons_of_mem _ (List.mem_cons_of_mem _ List.mem_cons_self)
      | object opener members => exact List.mem_cons_of_mem _ List.mem_cons_self

theorem AtEnd.problem_ne {size : Nat} (hend : AtEnd size diagnostic) :
    diagnostic.problem ≠ .nestingTooDeep :=
  ne_of_mem_of_not_mem hend.problem_mem (by decide)

/-- What is reported after some reports has a property. -/
def Since (p : Diagnostic → Prop) (earlier reports : List Diagnostic) : Prop :=
  ∃ later, reports = later ++ earlier ∧ ∀ diagnostic ∈ later, p diagnostic

namespace Since

variable {p : Diagnostic → Prop} {earlier reports : List Diagnostic} {diagnostic : Diagnostic}

theorem refl (p : Diagnostic → Prop) (reports : List Diagnostic) : Since p reports reports :=
  ⟨[], rfl, by simp⟩

theorem add (hsince : Since p earlier reports) (hdiagnostic : p diagnostic) :
    Since p earlier (add diagnostic reports) := by
  rcases add_eq diagnostic reports with hadd | hadd
  · rw [hadd]
    exact hsince
  · obtain ⟨later, rfl, hlater⟩ := hsince
    exact ⟨diagnostic :: later, hadd, List.forall_mem_cons.mpr ⟨hdiagnostic, hlater⟩⟩

theorem filter_eq {offset : Nat}
    (hsince : Since (fun diagnostic => offset < diagnostic.offset) earlier reports)
    (hearlier : ∀ diagnostic ∈ earlier, diagnostic.offset ≤ offset) :
    reports.filter (·.offset ≤ offset) = earlier := by
  obtain ⟨later, rfl, hlater⟩ := hsince
  have hnone : later.filter (·.offset ≤ offset) = [] := by
    simpa [List.filter_eq_nil_iff] using hlater
  have hall : earlier.filter (·.offset ≤ offset) = earlier := by
    simpa [List.filter_eq_self] using hearlier
  rw [List.filter_append, hnone, hall, List.nil_append]

end Since
end Report

namespace Reader

variable {setting : Setting} {lexeme : Lexeme} {p : Diagnostic → Prop}
  {earlier : List Diagnostic} {first last reader : Reader}

def withReports (reader : Reader) (reports : List Diagnostic) : Reader :=
  { reader with reports := reports }

theorem withReports_deliver (value : Option Value) (holes : List Hole)
    (first second : List Diagnostic) :
    (deliver value holes first).withReports second = deliver value holes second := by
  cases holes with
  | nil => rfl
  | cons hole rest => cases value <;> rfl

/-- A turn reports nothing, and then it is the same after any reports, or something about the
token. -/
theorem Turn.quiet_or (hturn : Turn setting lexeme first last) :
    (last.reports = first.reports ∧
        ∀ reports, Turn setting lexeme (first.withReports reports) (last.withReports reports)) ∨
      ∃ diagnostic, Report.Noted setting lexeme diagnostic ∧
        last.reports = Report.add diagnostic first.reports := by
  cases hturn with
  | item hrecovery => exact Or.inl ⟨rfl, fun _ => .item hrecovery⟩
  | missingValue hrecovery =>
      exact Or.inr ⟨_, .instead (by decide), deliver_reports _ _ _⟩
  | noProperty hcut hrecovery hkind => exact Or.inr ⟨_, Report.noted_noProperty hcut, rfl⟩
  | missingComma hrecovery hbegins => exact Or.inr ⟨_, .instead (by decide), rfl⟩
  | noPart hrecovery hbegins => exact Or.inr ⟨_, .instead (by decide), rfl⟩
  | resume hrecovery => exact Or.inl ⟨rfl, fun _ => .resume hrecovery⟩
  | resumePart hrecovery => exact Or.inl ⟨rfl, fun _ => .resumePart hrecovery⟩
  | mismatched hrecovery hcomma hcloser =>
      exact Or.inr ⟨_, .mismatched _, deliver_reports _ _ _⟩
  | mismatchedPart hrecovery hcomma hcloser =>
      exact Or.inr ⟨_, .mismatched _, deliver_reports _ _ _⟩
  | missingColon hcut hkind hfirst => exact Or.inr ⟨_, .instead (by decide), rfl⟩
  | noPair hcut hkind hfirst => exact Or.inr ⟨_, .instead (by decide), rfl⟩
  | noName hcut hkind => exact Or.inr ⟨_, .instead (by decide), rfl⟩
  | noMarker hcut hkind => exact Or.inr ⟨_, .instead (by decide), deliver_reports _ _ _⟩
  | resumeParameter hrecovery =>
      refine Or.inl ⟨deliver_reports _ _ _, fun reports => ?_⟩
      rw [withReports_deliver]
      exact .resumeParameter hrecovery

/-- The report that a container ends in this comma. -/
def ReportsComma (reader : Reader) (diagnostic : Diagnostic) : Prop :=
  ∃ container comma, reader.focus = .part container (some comma) ∧
    diagnostic = Report.trailingComma comma

/-- What is reported when a token is taken: something about it, or that a container is closed
after a comma. -/
def ReportsAbout (setting : Setting) (lexeme : Lexeme) (reader : Reader)
    (diagnostic : Diagnostic) : Prop :=
  Report.Reported setting lexeme diagnostic ∧ diagnostic.problem ≠ .trailingComma ∨
    reader.ReportsComma diagnostic ∧ ∃ container : Container, lexeme.kind = container.closer

/-- A token is taken without a report, and then in the same way after any reports, or with one. -/
theorem Shift.quiet_or (hshift : Shift setting lexeme first last) :
    (last.reports = first.reports ∧
        ∀ reports, Shift setting lexeme (first.withReports reports) (last.withReports reports)) ∨
      ∃ diagnostic, first.ReportsAbout setting lexeme diagnostic ∧
        last.reports = Report.add diagnostic first.reports := by
  cases hshift with
  | cut hcut => exact Or.inl ⟨rfl, fun _ => .cut hcut⟩
  | tooDeep hkind hexceeded =>
      exact Or.inr ⟨_, Or.inl ⟨.tooDeep hexceeded, Problem.noConfusion⟩, rfl⟩
  | opening hkind hroom => exact Or.inl ⟨rfl, fun _ => .opening hkind hroom⟩
  | parameterOpen hkind => exact Or.inl ⟨rfl, fun _ => .parameterOpen hkind⟩
  | scalar hcontent =>
      refine Or.inl ⟨deliver_reports _ _ _, fun reports => ?_⟩
      rw [withReports_deliver]
      exact .scalar hcontent
  | noValue hcut hrecovery hfirst =>
      exact Or.inr ⟨_, Or.inl (Report.Noted.noValue hcut).reported, deliver_reports _ _ _⟩
  | name hkind => exact Or.inl ⟨rfl, fun _ => .name hkind⟩
  | colon hkind => exact Or.inl ⟨rfl, fun _ => .colon hkind⟩
  | parameterName hkind => exact Or.inl ⟨rfl, fun _ => .parameterName hkind⟩
  | parameterClose hkind =>
      refine Or.inl ⟨deliver_reports _ _ _, fun reports => ?_⟩
      rw [withReports_deliver]
      exact .parameterClose hkind
  | comma hkind => exact Or.inl ⟨rfl, fun _ => .comma hkind⟩
  | extraComma hkind =>
      exact Or.inr ⟨_, Or.inl (Report.noted_noPart _ lexeme).reported, rfl⟩
  | close hkind =>
      refine Or.inl ⟨deliver_reports _ _ _, fun reports => ?_⟩
      rw [withReports_deliver]
      exact .close hkind
  | closePart hkind =>
      rename_i container comma holes reports
      cases comma with
      | none =>
          refine Or.inl ⟨deliver_reports _ _ _, fun reports => ?_⟩
          rw [withReports_deliver]
          exact .closePart hkind
      | some comma =>
          exact Or.inr ⟨_, Or.inr ⟨⟨container, comma, rfl, rfl⟩, container, hkind⟩,
            deliver_reports _ _ _⟩
  | pass hgoes => exact Or.inl ⟨rfl, fun _ => .pass hgoes⟩
  | passParameter hgoes => exact Or.inl ⟨rfl, fun _ => .passParameter hgoes⟩
  | brokenMarker hkind =>
      refine Or.inl ⟨deliver_reports _ _ _, fun reports => ?_⟩
      rw [withReports_deliver]
      exact .brokenMarker hkind
  | excess hcut => exact Or.inr ⟨_, Or.inl (Report.Noted.instead (by decide)).reported, rfl⟩
  | stopped => exact Or.inl ⟨rfl, fun _ => .stopped⟩

theorem not_reportsComma_deliver (value : Option Value) (holes : List Hole)
    (reports : List Diagnostic) (diagnostic : Diagnostic) :
    ¬(deliver value holes reports).ReportsComma diagnostic := by
  rintro ⟨container, comma, hfocus, -⟩
  cases holes with
  | nil => simp [deliver] at hfocus
  | cons hole rest => cases value <;> simp [deliver] at hfocus

theorem Turn.not_reportsComma (hturn : Turn setting lexeme first last)
    (diagnostic : Diagnostic) : ¬last.ReportsComma diagnostic := by
  cases hturn with
  | missingValue hrecovery => exact not_reportsComma_deliver _ _ _ _
  | mismatched hrecovery hcomma hcloser => exact not_reportsComma_deliver _ _ _ _
  | mismatchedPart hrecovery hcomma hcloser => exact not_reportsComma_deliver _ _ _ _
  | noMarker hcut hkind => exact not_reportsComma_deliver _ _ _ _
  | resumeParameter hrecovery => exact not_reportsComma_deliver _ _ _ _
  | _ => simp [ReportsComma]

/-- Only a comma is waited for what follows it. -/
theorem Shift.eq_of_reportsComma (hshift : Shift setting lexeme first last)
    {diagnostic : Diagnostic} (hcomma : last.ReportsComma diagnostic) :
    lexeme.kind = .comma ∧ diagnostic = Report.trailingComma lexeme.toToken := by
  cases hshift with
  | scalar hcontent => exact (not_reportsComma_deliver _ _ _ _ hcomma).elim
  | noValue hcut hrecovery hfirst => exact (not_reportsComma_deliver _ _ _ _ hcomma).elim
  | parameterClose hkind => exact (not_reportsComma_deliver _ _ _ _ hcomma).elim
  | close hkind => exact (not_reportsComma_deliver _ _ _ _ hcomma).elim
  | closePart hkind => exact (not_reportsComma_deliver _ _ _ _ hcomma).elim
  | brokenMarker hkind => exact (not_reportsComma_deliver _ _ _ _ hcomma).elim
  | comma hkind => exact ⟨hkind, by simpa [ReportsComma] using hcomma⟩
  | extraComma hkind => exact ⟨hkind, by simpa [ReportsComma] using hcomma⟩
  | _ => simp [ReportsComma] at hcomma

/-- The comma before the next part is the last token. -/
theorem take_reportsComma {diagnostic : Diagnostic}
    (hcomma : (reader.take setting lexeme).ReportsComma diagnostic) :
    lexeme.kind = .comma ∧ diagnostic = Report.trailingComma lexeme.toToken := by
  obtain ⟨turned, -, hshift⟩ := moves_take setting reader lexeme
  exact hshift.eq_of_reportsComma hcomma

/-- What has been reported since some earlier reports, and what may still be reported about a
comma, has a property. -/
structure ReportsOnly (p : Diagnostic → Prop) (earlier : List Diagnostic) (reader : Reader) :
    Prop where
  since : Report.Since p earlier reader.reports
  comma : ∀ diagnostic, reader.ReportsComma diagnostic → p diagnostic

namespace ReportsOnly

section

variable (hlexeme : ∀ diagnostic, Report.Noted setting lexeme diagnostic → p diagnostic)

include hlexeme

theorem turn (honly : first.ReportsOnly p earlier) (hturn : Turn setting lexeme first last) :
    last.ReportsOnly p earlier := by
  refine ⟨?_, fun diagnostic hcomma => (hturn.not_reportsComma diagnostic hcomma).elim⟩
  rcases hturn.quiet_or with ⟨hsame, -⟩ | ⟨diagnostic, hnoted, hadd⟩
  · exact hsame ▸ honly.since
  · exact hadd ▸ honly.since.add (hlexeme diagnostic hnoted)

theorem turns (honly : first.ReportsOnly p earlier)
    (hturns : Relation.ReflTransGen (Turn setting lexeme) first last) :
    last.ReportsOnly p earlier :=
  turns_induction (ReportsOnly p earlier) (fun _ _ hturn hfirst => hfirst.turn hlexeme hturn)
    hturns honly

end

section

variable (hlexeme : ∀ diagnostic, Report.Reported setting lexeme diagnostic → p diagnostic)

include hlexeme

theorem shift (honly : first.ReportsOnly p earlier) (hshift : Shift setting lexeme first last) :
    last.ReportsOnly p earlier := by
  refine ⟨?_, fun diagnostic hcomma =>
    hlexeme diagnostic ((hshift.eq_of_reportsComma hcomma).2 ▸ .trailingComma)⟩
  rcases hshift.quiet_or with ⟨hsame, -⟩ | ⟨diagnostic, hreported, hadd⟩
  · exact hsame ▸ honly.since
  · have hdiagnostic : p diagnostic := hreported.elim (fun habout => hlexeme _ habout.1)
      (fun hcomma => honly.comma _ hcomma.1)
    exact hadd ▸ honly.since.add hdiagnostic

theorem ignore (honly : reader.ReportsOnly p earlier) :
    (reader.ignore setting lexeme).ReportsOnly p earlier := by
  unfold Reader.ignore
  split
  next hopen =>
    have hstrict : setting.allowsFragments = false := by
      simp only [Bool.and_eq_true, Bool.not_eq_true'] at hopen
      exact hopen.1.2
    exact ⟨honly.since.add (hlexeme _ (.openComment hstrict)), honly.comma⟩
  · exact honly

theorem step (honly : reader.ReportsOnly p earlier) :
    (reader.step setting lexeme).ReportsOnly p earlier := by
  unfold Reader.step
  split
  · exact honly.ignore hlexeme
  · have hnoted (diagnostic : Diagnostic) (hnoted : Report.Noted setting lexeme diagnostic) :
        p diagnostic := hlexeme diagnostic (.noted hnoted)
    exact take_induction (ReportsOnly p earlier) (ReportsOnly p earlier)
      (fun _ _ hturn hfirst => hfirst.turn hnoted hturn)
      (fun _ _ hshift hfirst => hfirst.shift hlexeme hshift) honly

end

theorem run {lexemes : List Lexeme}
    (hlexemes : ∀ lexeme ∈ lexemes, ∀ diagnostic, Report.Reported setting lexeme diagnostic →
      p diagnostic) (honly : reader.ReportsOnly p earlier) :
    (reader.run setting lexemes).ReportsOnly p earlier := by
  induction lexemes generalizing reader with
  | nil => exact honly
  | cons lexeme rest ih =>
      rw [List.forall_mem_cons] at hlexemes
      exact ih hlexemes.2 (honly.step hlexemes.1)

end ReportsOnly

/-! ### The end of the body -/

section

variable {container : Container} {holes : List Hole} {reports : List Diagnostic}
  (hend : ∀ diagnostic, Report.AtEnd setting.size diagnostic → p diagnostic)

include hend

theorem since_endIn (hsince : Report.Since p earlier reports) :
    Report.Since p earlier (endIn setting container holes reports).reports := by
  unfold endIn
  split
  · exact hsince
  · exact hsince.add (hend _ (.unclosed container))

theorem since_endWithout (hsince : Report.Since p earlier reports) :
    Report.Since p earlier (endWithout setting holes reports).reports := by
  cases holes with
  | nil => exact hsince
  | cons hole rest => exact since_endIn hend hsince

theorem since_endBefore {diagnostic : Diagnostic} (hatEnd : Report.AtEnd setting.size diagnostic)
    (hsince : Report.Since p earlier reports) :
    Report.Since p earlier (endBefore setting diagnostic holes reports).reports := by
  unfold endBefore
  split
  · exact hsince
  · exact since_endWithout hend (hsince.add (hend _ hatEnd))

/-- What is reported at the end of the body. -/
theorem since_finish (hsince : Report.Since p earlier reader.reports) (isGroup : Bool) :
    Report.Since p earlier (reader.finish setting isGroup).reports := by
  obtain ⟨focus, holes, reports⟩ := reader
  cases focus with
  | value =>
      cases holes with
      | nil =>
          cases isGroup with
          | false => exact hsince
          | true => exact hsince.add (hend _ (.missing (by decide)))
      | cons hole rest => exact since_endBefore hend .unexpectedEnd hsince
  | part container comma => exact since_endIn hend hsince
  | separator container => exact since_endIn hend hsince
  | colon opener members key =>
      simp only [finish, endAfterName]
      split
      · exact since_endIn hend hsince
      · exact since_endIn hend (hsince.add (hend _ (.missing (by decide))))
  | parameterName marker => exact since_endBefore hend (.missing (by decide)) hsince
  | parameterClose marker name => exact since_endBefore hend (.missing (by decide)) hsince
  | skip depth container next => exact since_endIn hend hsince
  | skipParameter depth => exact since_endWithout hend hsince
  | finished root => exact hsince
  | stopped root isCut => exact hsince

end

/-! ### The whole body -/

/-- What holds of everything that can be reported about a token holds of all reports. -/
theorem forall_mem_run {lexemes : List Lexeme}
    (hlexemes : ∀ lexeme ∈ lexemes, ∀ diagnostic, Report.Reported setting lexeme diagnostic →
      p diagnostic) : ∀ diagnostic ∈ (start.run setting lexemes).reports, p diagnostic := by
  have hstart : start.ReportsOnly p [] := ⟨.refl _ _, by simp [ReportsComma, start]⟩
  obtain ⟨later, hreports, hlater⟩ := (hstart.run hlexemes).since
  rwa [hreports, List.append_nil]

end Reader

/-- What holds of everything that can be reported about a token and at the end of a body holds of
all its diagnostics. -/
theorem forall_mem_diagnostics {options : Options} {source : String} {p : Diagnostic → Prop}
    (hlexemes : ∀ lexeme ∈ lex source, ∀ diagnostic,
      Report.Reported (options.setting source) lexeme diagnostic → p diagnostic)
    (hend : ∀ diagnostic, Report.AtEnd (Utf8.size source.toList) diagnostic → p diagnostic) :
    ∀ diagnostic ∈ (options.parse source).diagnostics.toList, p diagnostic := by
  let setting := options.setting source
  have hrun : Report.Since p [] (Reader.start.run setting (lex source)).reports :=
    ⟨_, (List.append_nil _).symm, Reader.forall_mem_run hlexemes⟩
  have hfinish : Report.Since p []
      ((Reader.start.run setting (lex source)).finish setting options.isGroup).reports :=
    Reader.since_finish hend hrun options.isGroup
  obtain ⟨later, hreports, hlater⟩ := hfinish
  intro diagnostic hmem
  have hreported : diagnostic ∈ later ++ [] := hreports ▸ List.mem_reverse.mp hmem
  exact hlater diagnostic (by simpa using hreported)

end QueryBody
