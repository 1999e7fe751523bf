import QueryBody.Proofs.SilentFragment
import Mathlib.Tactic

/-!
# Moves of a reader

A reader takes a token by turning a few times and then shifting once.  A turn changes
what the reader expects and leaves the token where it is; a shift uses it up.  What
every turn and every shift keeps is kept by a whole run.
-/

namespace QueryBody
namespace Reader

variable {setting : Setting} {lexeme : Lexeme}

/-- What a reader does about a token before it takes it. -/
inductive Turn (setting : Setting) (lexeme : Lexeme) : Reader → Reader → Prop
  /-- An item of an array is read as any value. -/
  | item {opener : Token} {items : List Value} {comma : Option Token} {holes : List Hole}
      {reports : List Diagnostic}
      (hrecovery : KindSet.valueRecovery.contains lexeme.kind = false) :
      Turn setting lexeme ⟨.part (.array opener items) comma, holes, reports⟩
        ⟨.value, .item opener items :: holes, reports⟩
  | missingValue {holes : List Hole} {reports : List Diagnostic}
      (hrecovery : KindSet.valueRecovery.contains lexeme.kind = true) :
      Turn setting lexeme ⟨.value, holes, reports⟩
        (deliver none holes (Report.add (Report.instead .expectedValue lexeme) reports))
  | noProperty {opener : Token} {members : List Member} {comma : Option Token}
      {holes : List Hole} {reports : List Diagnostic}
      (hcut : setting.isCutIn lexeme = false)
      (hrecovery : KindSet.valueRecovery.contains lexeme.kind = false)
      (hkind : lexeme.kind ≠ .string) :
      Turn setting lexeme ⟨.part (.object opener members) comma, holes, reports⟩
        ⟨.skip 0 (.object opener members) .separator, holes,
          Report.add (Report.noProperty lexeme) reports⟩
  | missingComma {container : Container} {holes : List Hole} {reports : List Diagnostic}
      (hrecovery : KindSet.valueRecovery.contains lexeme.kind = false)
      (hbegins : beginsPart container lexeme.kind = true) :
      Turn setting lexeme ⟨.separator container, holes, reports⟩
        ⟨.part container none, holes, Report.add (Report.instead .missingComma lexeme) reports⟩
  | noPart {container : Container} {holes : List Hole} {reports : List Diagnostic}
      (hrecovery : KindSet.valueRecovery.contains lexeme.kind = false)
      (hbegins : beginsPart container lexeme.kind = false) :
      Turn setting lexeme ⟨.separator container, holes, reports⟩
        ⟨.skip 0 container .part, holes,
          Report.add (Report.instead .missingComma lexeme) reports⟩
  /-- A skip ends where a part of the container may end. -/
  | resume {container : Container} {holes : List Hole} {reports : List Diagnostic}
      (hrecovery : KindSet.valueRecovery.contains lexeme.kind = true) :
      Turn setting lexeme ⟨.skip 0 container .separator, holes, reports⟩
        ⟨.separator container, holes, reports⟩
  | resumePart {container : Container} {holes : List Hole} {reports : List Diagnostic}
      (hrecovery : KindSet.valueRecovery.contains lexeme.kind = true) :
      Turn setting lexeme ⟨.skip 0 container .part, holes, reports⟩
        ⟨.part container none, holes, reports⟩
  /-- The closing bracket belongs to a container further out. -/
  | mismatched {container : Container} {holes : List Hole} {reports : List Diagnostic}
      (hrecovery : KindSet.valueRecovery.contains lexeme.kind = true)
      (hcomma : lexeme.kind ≠ .comma) (hcloser : lexeme.kind ≠ container.closer) :
      Turn setting lexeme ⟨.separator container, holes, reports⟩
        (deliver (some container.value) holes
          (Report.add (Report.mismatched container lexeme) reports))
  | mismatchedPart {container : Container} {comma : Option Token} {holes : List Hole}
      {reports : List Diagnostic}
      (hrecovery : KindSet.valueRecovery.contains lexeme.kind = true)
      (hcomma : lexeme.kind ≠ .comma) (hcloser : lexeme.kind ≠ container.closer) :
      Turn setting lexeme ⟨.part container comma, holes, reports⟩
        (deliver (some container.value) holes
          (Report.add (Report.mismatched container lexeme) reports))
  | missingColon {opener : Token} {members : List Member} {key : Key} {holes : List Hole}
      {reports : List Diagnostic} (hcut : setting.isCutIn lexeme = false)
      (hkind : lexeme.kind ≠ .colon)
      (hfirst : KindSet.valueFirst.contains lexeme.kind = true) :
      Turn setting lexeme ⟨.colon opener members key, holes, reports⟩
        ⟨.value, .property opener members key :: holes,
          Report.add (Report.instead .expectedColon lexeme) reports⟩
  | noPair {opener : Token} {members : List Member} {key : Key} {holes : List Hole}
      {reports : List Diagnostic} (hcut : setting.isCutIn lexeme = false)
      (hkind : lexeme.kind ≠ .colon)
      (hfirst : KindSet.valueFirst.contains lexeme.kind = false) :
      Turn setting lexeme ⟨.colon opener members key, holes, reports⟩
        ⟨.skip 0 (.object opener (.bare key :: members)) .separator, holes,
          Report.add (Report.instead .expectedColon lexeme) reports⟩
  | noName {marker : Token} {holes : List Hole} {reports : List Diagnostic}
      (hcut : setting.isCutIn lexeme = false) (hkind : lexeme.kind ≠ .identifier) :
      Turn setting lexeme ⟨.parameterName marker, holes, reports⟩
        ⟨.skipParameter 0, holes,
          Report.add (Report.instead .expectedParameterName lexeme) reports⟩
  | noMarker {marker : Token} {name : String} {holes : List Hole} {reports : List Diagnostic}
      (hcut : setting.isCutInMarker lexeme = false) (hkind : lexeme.kind ≠ .parameterClose) :
      Turn setting lexeme ⟨.parameterClose marker name, holes, reports⟩
        (deliver none holes
          (Report.add (Report.instead .expectedParameterClose lexeme) reports))
  | resumeParameter {holes : List Hole} {reports : List Diagnostic}
      (hrecovery : KindSet.valueRecovery.contains lexeme.kind = true) :
      Turn setting lexeme ⟨.skipParameter 0, holes, reports⟩ (deliver none holes reports)

/-- How a reader takes a token. -/
inductive Shift (setting : Setting) (lexeme : Lexeme) : Reader → Reader → Prop
  /-- The body is cut off in the token. -/
  | cut {reader : Reader}
      (hcut : setting.isCutIn lexeme = true ∨
        reader.awaitsMarker = true ∧ setting.isCutInMarker lexeme = true) :
      Shift setting lexeme reader ⟨.stopped reader.cutRoot true, [], reader.reports⟩
  | tooDeep {limit : Nat} {holes : List Hole} {reports : List Diagnostic}
      (hkind : lexeme.kind = .braceOpen ∨ lexeme.kind = .bracketOpen)
      (hexceeded : setting.exceeded? holes.length = some limit) :
      Shift setting lexeme ⟨.value, holes, reports⟩
        ⟨.stopped (Hole.abandon holes) false, [],
          Report.add (Report.tooDeep limit lexeme) reports⟩
  | opening {holes : List Hole} {reports : List Diagnostic}
      (hkind : lexeme.kind = .braceOpen ∨ lexeme.kind = .bracketOpen)
      (hroom : setting.exceeded? holes.length = none) :
      Shift setting lexeme ⟨.value, holes, reports⟩
        ⟨.part (.ofOpener lexeme.toToken) none, holes, reports⟩
  | parameterOpen {holes : List Hole} {reports : List Diagnostic}
      (hkind : lexeme.kind = .parameterOpen) :
      Shift setting lexeme ⟨.value, holes, reports⟩
        ⟨.parameterName lexeme.toToken, holes, reports⟩
  | scalar {content : Scalar} {holes : List Hole} {reports : List Diagnostic}
      (hcontent : lexeme.scalar? = some content) :
      Shift setting lexeme ⟨.value, holes, reports⟩
        (deliver (some (.scalar lexeme.toToken content)) holes reports)
  /-- A token that begins no value stands in the place of one. -/
  | noValue {holes : List Hole} {reports : List Diagnostic}
      (hcut : setting.isCutIn lexeme = false)
      (hrecovery : KindSet.valueRecovery.contains lexeme.kind = false)
      (hfirst : KindSet.valueFirst.contains lexeme.kind = false) :
      Shift setting lexeme ⟨.value, holes, reports⟩
        (deliver none holes (Report.add (Report.noValue lexeme) reports))
  | name {opener : Token} {members : List Member} {comma : Option Token} {holes : List Hole}
      {reports : List Diagnostic} (hkind : lexeme.kind = .string) :
      Shift setting lexeme ⟨.part (.object opener members) comma, holes, reports⟩
        ⟨.colon opener members lexeme.key, holes, reports⟩
  | colon {opener : Token} {members : List Member} {key : Key} {holes : List Hole}
      {reports : List Diagnostic} (hkind : lexeme.kind = .colon) :
      Shift setting lexeme ⟨.colon opener members key, holes, reports⟩
        ⟨.value, .property opener members key :: holes, reports⟩
  | parameterName {marker : Token} {holes : List Hole} {reports : List Diagnostic}
      (hkind : lexeme.kind = .identifier) :
      Shift setting lexeme ⟨.parameterName marker, holes, reports⟩
        ⟨.parameterClose marker lexeme.word, holes, reports⟩
  | parameterClose {marker : Token} {name : String} {holes : List Hole}
      {reports : List Diagnostic} (hkind : lexeme.kind = .parameterClose) :
      Shift setting lexeme ⟨.parameterClose marker name, holes, reports⟩
        (deliver (some (.scalar marker (.parameter name))) holes reports)
  | comma {container : Container} {holes : List Hole} {reports : List Diagnostic}
      (hkind : lexeme.kind = .comma) :
      Shift setting lexeme ⟨.separator container, holes, reports⟩
        ⟨.part container (some lexeme.toToken), holes, reports⟩
  /-- A comma stands in the place of a part. -/
  | extraComma {container : Container} {comma : Option Token} {holes : List Hole}
      {reports : List Diagnostic} (hkind : lexeme.kind = .comma) :
      Shift setting lexeme ⟨.part container comma, holes, reports⟩
        ⟨.part container (some lexeme.toToken), holes,
          Report.add (Report.noPart container lexeme) reports⟩
  | close {container : Container} {holes : List Hole} {reports : List Diagnostic}
      (hkind : lexeme.kind = container.closer) :
      Shift setting lexeme ⟨.separator container, holes, reports⟩
        (deliver (some container.value) holes reports)
  | closePart {container : Container} {comma : Option Token} {holes : List Hole}
      {reports : List Diagnostic} (hkind : lexeme.kind = container.closer) :
      Shift setting lexeme ⟨.part container comma, holes, reports⟩
        (deliver (some container.value) holes (reportComma comma reports))
  | pass {depth : Nat} {container : Container} {next : Resumption} {holes : List Hole}
      {reports : List Diagnostic}
      (hgoes : ¬(depth = 0 ∧ KindSet.valueRecovery.contains lexeme.kind = true)) :
      Shift setting lexeme ⟨.skip depth container next, holes, reports⟩
        ⟨.skip (pass lexeme depth) container next, holes, reports⟩
  | passParameter {depth : Nat} {holes : List Hole} {reports : List Diagnostic}
      (hgoes : ¬(depth = 0 ∧ KindSet.parameterRecovery.contains lexeme.kind = true)) :
      Shift setting lexeme ⟨.skipParameter depth, holes, reports⟩
        ⟨.skipParameter (pass lexeme depth), holes, reports⟩
  /-- The closing marker of a broken placeholder still belongs to it. -/
  | brokenMarker {holes : List Hole} {reports : List Diagnostic}
      (hkind : lexeme.kind = .parameterClose) :
      Shift setting lexeme ⟨.skipParameter 0, holes, reports⟩ (deliver none holes reports)
  | excess {root : Option Value} {holes : List Hole} {reports : List Diagnostic}
      (hcut : setting.isCutIn lexeme = false) :
      Shift setting lexeme ⟨.finished root, holes, reports⟩
        ⟨.stopped root false, [], Report.add (Report.instead .trailingContent lexeme) reports⟩
  | stopped {root : Option Value} {isCut : Bool} {holes : List Hole}
      {reports : List Diagnostic} :
      Shift setting lexeme ⟨.stopped root isCut, holes, reports⟩
        ⟨.stopped root isCut, holes, reports⟩

/-- Some turns and a shift lead from one reader to the other. -/
def Moves (setting : Setting) (lexeme : Lexeme) (first last : Reader) : Prop :=
  ∃ turned, Relation.ReflTransGen (Turn setting lexeme) first turned ∧
    Shift setting lexeme turned last

theorem Shift.moves {first last : Reader} (hshift : Shift setting lexeme first last) :
    Moves setting lexeme first last := ⟨first, .refl, hshift⟩

theorem Turn.moves {first turned last : Reader} (hturn : Turn setting lexeme first turned)
    (hmoves : Moves setting lexeme turned last) : Moves setting lexeme first last := by
  obtain ⟨mid, hturns, hshift⟩ := hmoves
  exact ⟨mid, .head hturn hturns, hshift⟩

/-! ### A turn leaves the token to be taken -/

theorem isCutIn_of_valueRecovery
    (hrecovery : KindSet.valueRecovery.contains lexeme.kind = true) :
    setting.isCutIn lexeme = false := by
  by_contra hcut
  have hopen := isOpen_of_isCutIn (Bool.eq_true_of_not_eq_false hcut)
  rw [Lexeme.not_valueRecovery_of_isOpen hopen] at hrecovery
  contradiction

theorem take_deliver_none {holes : List Hole} (hcut : setting.isCutIn lexeme = false)
    (reports : List Diagnostic) :
    take setting (deliver none holes reports) lexeme = giveUp lexeme holes reports := by
  cases holes with
  | nil => simp [deliver, take, giveUp, hcut]
  | cons hole rest => rfl

/-- A closing bracket that belongs to a container further out ends this one first. -/
theorem close_of_mismatched {container : Container} {holes : List Hole}
    {reports : List Diagnostic} (comma : Option Token)
    (hrecovery : KindSet.valueRecovery.contains lexeme.kind = true)
    (hcomma : lexeme.kind ≠ .comma) (hcloser : lexeme.kind ≠ container.closer) :
    close lexeme container comma reports holes =
      take setting
        (deliver (some container.value) holes
          (Report.add (Report.mismatched container lexeme) reports)) lexeme := by
  have hcut : setting.isCutIn lexeme = false := isCutIn_of_valueRecovery hrecovery
  rw [close, if_neg hcloser]
  cases holes with
  | nil => simp [deliver, take, hcut]
  | cons hole rest =>
      simp only [deliver, take, separator, hrecovery, endPart, hcomma, if_true, if_false]

theorem Turn.take_eq {first last : Reader} (hturn : Turn setting lexeme first last) :
    first.take setting lexeme = last.take setting lexeme := by
  cases hturn with
  | item hrecovery => simp [take, part, hrecovery]
  | missingValue hrecovery =>
      have hcut : setting.isCutIn lexeme = false := isCutIn_of_valueRecovery hrecovery
      rw [take_deliver_none hcut]
      simp [take, value, hcut, hrecovery]
  | noProperty hcut hrecovery hkind => simp [take, part, property, hrecovery, hcut, hkind]
  | missingComma hrecovery hbegins => simp [take, separator, hrecovery, hbegins]
  | noPart hrecovery hbegins => simp [take, separator, hrecovery, hbegins]
  | resume hrecovery => simp [take, skip, separator, hrecovery]
  | resumePart hrecovery => simp [take, skip, part, hrecovery]
  | mismatched hrecovery hcomma hcloser =>
      rw [← close_of_mismatched none hrecovery hcomma hcloser]
      simp only [take, separator, hrecovery, endPart, hcomma, if_true, if_false]
  | mismatchedPart hrecovery hcomma hcloser =>
      rename_i container comma holes reports
      rw [← close_of_mismatched comma hrecovery hcomma hcloser]
      simp only [take, part, hrecovery, emptyPart, hcomma, if_true, if_false]
  | missingColon hcut hkind hfirst => simp [take, colon, hcut, hkind, hfirst]
  | noPair hcut hkind hfirst => simp [take, colon, hcut, hkind, hfirst]
  | noName hcut hkind => simp [take, parameterName, hcut, hkind]
  | noMarker hcut hkind =>
      rw [take_deliver_none (isCutIn_of_isCutInMarker hcut)]
      simp [take, parameterClose, hcut, hkind]
  | resumeParameter hrecovery =>
      have hmarker : lexeme.kind ≠ .parameterClose := by
        intro hkind
        rw [hkind] at hrecovery
        contradiction
      rw [take_deliver_none (isCutIn_of_valueRecovery hrecovery)]
      simp [take, skipParameter, KindSet.parameterRecovery, hrecovery, hmarker]

/-! ### Every token is taken by moves -/

variable {container : Container} {holes : List Hole} {reports : List Diagnostic}

theorem moves_close (hrecovery : KindSet.valueRecovery.contains lexeme.kind = true)
    (hcomma : lexeme.kind ≠ .comma) :
    Moves setting lexeme ⟨.separator container, holes, reports⟩
      (close lexeme container none reports holes) := by
  induction holes generalizing container reports with
  | nil =>
      unfold close
      split
      next hkind => exact (Shift.close hkind).moves
      next hkind =>
        apply (Turn.mismatched hrecovery hcomma hkind).moves
        exact (Shift.excess (isCutIn_of_valueRecovery hrecovery)).moves
  | cons hole rest ih =>
      unfold close
      split
      next hkind => exact (Shift.close hkind).moves
      next hkind => exact (Turn.mismatched hrecovery hcomma hkind).moves ih

theorem moves_closePart (hrecovery : KindSet.valueRecovery.contains lexeme.kind = true)
    (hcomma : lexeme.kind ≠ .comma) (comma : Option Token) :
    Moves setting lexeme ⟨.part container comma, holes, reports⟩
      (close lexeme container comma reports holes) := by
  unfold close
  split
  next hkind => exact (Shift.closePart hkind).moves
  next hkind =>
    apply (Turn.mismatchedPart hrecovery hcomma hkind).moves
    cases holes with
    | nil => exact (Shift.excess (isCutIn_of_valueRecovery hrecovery)).moves
    | cons hole rest => exact moves_close hrecovery hcomma

theorem moves_endPart (hrecovery : KindSet.valueRecovery.contains lexeme.kind = true) :
    Moves setting lexeme ⟨.separator container, holes, reports⟩
      (endPart lexeme container holes reports) := by
  unfold endPart
  split
  next hkind => exact (Shift.comma hkind).moves
  next hkind => exact moves_close hrecovery hkind

theorem moves_emptyPart (hrecovery : KindSet.valueRecovery.contains lexeme.kind = true)
    (comma : Option Token) :
    Moves setting lexeme ⟨.part container comma, holes, reports⟩
      (emptyPart lexeme container comma holes reports) := by
  unfold emptyPart
  split
  next hkind => exact (Shift.extraComma hkind).moves
  next hkind => exact moves_closePart hrecovery hkind comma

theorem moves_skip (depth : Nat) (next : Resumption) :
    Moves setting lexeme ⟨.skip depth container next, holes, reports⟩
      (skip lexeme depth container next holes reports) := by
  unfold skip
  split
  next hends =>
    obtain ⟨hdepth, hrecovery⟩ := Bool.and_eq_true_iff.mp hends
    have hzero : depth = 0 := by simpa using hdepth
    subst hzero
    cases next with
    | separator => exact (Turn.resume hrecovery).moves (moves_endPart hrecovery)
    | part => exact (Turn.resumePart hrecovery).moves (moves_emptyPart hrecovery none)
  next hgoes => exact (Shift.pass (by simpa using hgoes)).moves

theorem moves_giveUp (hcut : setting.isCutIn lexeme = false) :
    Moves setting lexeme (deliver none holes reports) (giveUp lexeme holes reports) := by
  cases holes with
  | nil => exact (Shift.excess hcut).moves
  | cons hole rest => exact moves_skip 0 .separator

theorem moves_skipParameter (depth : Nat) :
    Moves setting lexeme ⟨.skipParameter depth, holes, reports⟩
      (skipParameter lexeme depth holes reports) := by
  unfold skipParameter
  split
  next hends =>
    obtain ⟨hdepth, hset⟩ := Bool.and_eq_true_iff.mp hends
    have hzero : depth = 0 := by simpa using hdepth
    subst hzero
    split
    next hkind => exact (Shift.brokenMarker hkind).moves
    next hkind =>
      have hrecovery : KindSet.valueRecovery.contains lexeme.kind = true := by
        rw [KindSet.parameterRecovery, KindSet.contains_union] at hset
        simpa [KindSet.contains, hkind] using hset
      exact (Turn.resumeParameter hrecovery).moves
        (moves_giveUp (isCutIn_of_valueRecovery hrecovery))
  next hgoes => exact (Shift.passParameter (by simpa using hgoes)).moves

theorem moves_openContainer (hkind : lexeme.kind = .braceOpen ∨ lexeme.kind = .bracketOpen) :
    Moves setting lexeme ⟨.value, holes, reports⟩
      (openContainer setting lexeme holes reports) := by
  unfold openContainer
  split
  next hexceeded => exact (Shift.tooDeep hkind hexceeded).moves
  next hroom => exact (Shift.opening hkind hroom).moves

/-- What is neither a container nor a parameter nor a scalar begins no value. -/
theorem not_valueFirst_of_scalar? (hbrace : lexeme.kind ≠ .braceOpen)
    (hbracket : lexeme.kind ≠ .bracketOpen) (hparameter : lexeme.kind ≠ .parameterOpen)
    (hcontent : lexeme.scalar? = none) : KindSet.valueFirst.contains lexeme.kind = false := by
  unfold Lexeme.scalar? at hcontent
  cases hkind : lexeme.kind <;> rw [hkind] at hcontent hbrace hbracket hparameter <;>
    first | rfl | contradiction

theorem moves_value :
    Moves setting lexeme ⟨.value, holes, reports⟩ (value setting lexeme holes reports) := by
  unfold value
  split
  next hcut => exact (Shift.cut (Or.inl hcut)).moves
  next hcut =>
    have hopen : setting.isCutIn lexeme = false := Bool.eq_false_of_not_eq_true hcut
    split
    next hrecovery => exact (Turn.missingValue hrecovery).moves (moves_giveUp hopen)
    next hrecovery =>
      split
      next hkind => exact moves_openContainer (Or.inl hkind)
      next hkind => exact moves_openContainer (Or.inr hkind)
      next hkind => exact (Shift.parameterOpen hkind).moves
      next hbrace hbracket hparameter =>
        split
        next content hcontent => exact (Shift.scalar hcontent).moves
        next hcontent =>
          have hfirst := not_valueFirst_of_scalar? hbrace hbracket hparameter hcontent
          exact (Shift.noValue hopen (Bool.eq_false_of_not_eq_true hrecovery) hfirst).moves

theorem moves_property {opener : Token} {members : List Member}
    (hrecovery : KindSet.valueRecovery.contains lexeme.kind = false) (comma : Option Token) :
    Moves setting lexeme ⟨.part (.object opener members) comma, holes, reports⟩
      (property setting lexeme opener members holes reports) := by
  unfold property
  split
  next hcut => exact (Shift.cut (Or.inl hcut)).moves
  next hcut =>
    split
    next hkind => exact (Shift.name hkind).moves
    next hkind =>
      exact (Turn.noProperty (Bool.eq_false_of_not_eq_true hcut) hrecovery hkind).moves
        (moves_skip 0 .separator)

theorem moves_part (comma : Option Token) :
    Moves setting lexeme ⟨.part container comma, holes, reports⟩
      (part setting lexeme container comma holes reports) := by
  unfold part
  split
  next hrecovery => exact moves_emptyPart hrecovery comma
  next hrecovery =>
    have hother := Bool.eq_false_of_not_eq_true hrecovery
    cases container with
    | array opener items => exact (Turn.item hother).moves moves_value
    | object opener members => exact moves_property hother comma

theorem moves_separator :
    Moves setting lexeme ⟨.separator container, holes, reports⟩
      (separator setting lexeme container holes reports) := by
  unfold separator
  split
  next hrecovery => exact moves_endPart hrecovery
  next hrecovery =>
    have hother := Bool.eq_false_of_not_eq_true hrecovery
    dsimp only
    split
    next hbegins => exact (Turn.missingComma hother hbegins).moves (moves_part none)
    next hbegins =>
      exact (Turn.noPart hother (Bool.eq_false_of_not_eq_true hbegins)).moves (moves_skip 0 .part)

theorem moves_colon {opener : Token} {members : List Member} {key : Key} :
    Moves setting lexeme ⟨.colon opener members key, holes, reports⟩
      (colon setting lexeme opener members key holes reports) := by
  unfold colon
  split
  next hcut => exact (Shift.cut (Or.inl hcut)).moves
  next hcut =>
    have hopen := Bool.eq_false_of_not_eq_true hcut
    split
    next hkind => exact (Shift.colon hkind).moves
    next hkind =>
      dsimp only
      split
      next hfirst => exact (Turn.missingColon hopen hkind hfirst).moves moves_value
      next hfirst =>
        exact (Turn.noPair hopen hkind (Bool.eq_false_of_not_eq_true hfirst)).moves
          (moves_skip 0 .separator)

theorem moves_parameterName {marker : Token} :
    Moves setting lexeme ⟨.parameterName marker, holes, reports⟩
      (parameterName setting lexeme marker holes reports) := by
  unfold parameterName
  split
  next hcut => exact (Shift.cut (Or.inl hcut)).moves
  next hcut =>
    split
    next hkind => exact (Shift.parameterName hkind).moves
    next hkind =>
      exact (Turn.noName (Bool.eq_false_of_not_eq_true hcut) hkind).moves (moves_skipParameter 0)

theorem moves_parameterClose {marker : Token} {name : String} :
    Moves setting lexeme ⟨.parameterClose marker name, holes, reports⟩
      (parameterClose setting lexeme marker name holes reports) := by
  unfold parameterClose
  split
  next hcut => exact (Shift.cut (Or.inr ⟨rfl, hcut⟩)).moves
  next hcut =>
    have hopen := Bool.eq_false_of_not_eq_true hcut
    split
    next hkind => exact (Shift.parameterClose hkind).moves
    next hkind =>
      exact (Turn.noMarker hopen hkind).moves (moves_giveUp (isCutIn_of_isCutInMarker hopen))

theorem moves_take (setting : Setting) (reader : Reader) (lexeme : Lexeme) :
    Moves setting lexeme reader (reader.take setting lexeme) := by
  obtain ⟨focus, holes, reports⟩ := reader
  cases focus with
  | value => exact moves_value
  | part container comma => exact moves_part comma
  | separator container => exact moves_separator
  | colon opener members key => exact moves_colon
  | parameterName marker => exact moves_parameterName
  | parameterClose marker name => exact moves_parameterClose
  | skip depth container next => exact moves_skip depth next
  | skipParameter depth => exact moves_skipParameter depth
  | finished root =>
      unfold take
      dsimp only
      split
      next hcut => exact (Shift.cut (Or.inl hcut)).moves
      next hcut => exact (Shift.excess (Bool.eq_false_of_not_eq_true hcut)).moves
  | stopped root isCut => exact Shift.stopped.moves

/-- What every turn keeps is kept by a few. -/
theorem turns_induction (motive : Reader → Prop)
    (hturn : ∀ first last, Turn setting lexeme first last → motive first → motive last)
    {first last : Reader} (hturns : Relation.ReflTransGen (Turn setting lexeme) first last)
    (hfirst : motive first) : motive last := by
  induction hturns with
  | refl => exact hfirst
  | tail _ hlast ih => exact hturn _ _ hlast ih

theorem take_of_turns {first last : Reader}
    (hturns : Relation.ReflTransGen (Turn setting lexeme) first last) :
    last.take setting lexeme = first.take setting lexeme :=
  turns_induction (fun turned => turned.take setting lexeme = _)
    (fun _ _ hturn ih => hturn.take_eq.symm.trans ih) hturns rfl

/-- What every turn keeps and every shift makes of it holds once the token is taken. -/
theorem take_induction (motive result : Reader → Prop)
    (hturn : ∀ first last, Turn setting lexeme first last → motive first → motive last)
    (hshift : ∀ first last, Shift setting lexeme first last → motive first → result last)
    {reader : Reader} (hreader : motive reader) : result (reader.take setting lexeme) := by
  obtain ⟨turned, hturns, htaken⟩ := moves_take setting reader lexeme
  exact hshift _ _ htaken (turns_induction motive hturn hturns hreader)

/-- In a body that must be complete there is one way to take a token. -/
theorem Shift.take_eq (hstrict : setting.allowsFragments = false) {first last : Reader}
    (hshift : Shift setting lexeme first last) : first.take setting lexeme = last := by
  have hopen : setting.isCutIn lexeme = false := by simp [Setting.isCutIn, hstrict]
  have hmarker : setting.isCutInMarker lexeme = false := by
    simp [Setting.isCutInMarker, hopen, hstrict]
  cases hshift with
  | cut hcut => simp [hopen, hmarker] at hcut
  | tooDeep hkind hexceeded =>
      rcases hkind with hkind | hkind <;>
        simp [take, value, hopen, hkind, openContainer, hexceeded, KindSet.valueRecovery,
          KindSet.contains]
  | opening hkind hroom =>
      rcases hkind with hkind | hkind <;>
        simp [take, value, hopen, hkind, openContainer, hroom, KindSet.valueRecovery,
          KindSet.contains]
  | parameterOpen hkind => exact take_value_parameterOpen hopen hkind _ _
  | scalar hcontent => exact take_value_scalar hopen hcontent _ _
  | noValue hcut hrecovery hfirst =>
      simp only [take, value, hopen, hrecovery, Bool.false_eq_true, if_false]
      unfold Lexeme.scalar?
      cases hkind : lexeme.kind <;> rw [hkind] at hfirst <;> first | rfl | contradiction
  | name hkind => exact take_part_name hopen hkind _ _ _ _ _
  | colon hkind => exact take_colon hopen hkind _ _ _ _ _
  | parameterName hkind => exact take_parameterName hopen hkind _ _ _
  | parameterClose hkind => simp [take, Reader.parameterClose, hmarker, hkind]
  | comma hkind => exact take_separator_comma hkind _ _ _
  | extraComma hkind =>
      simp [take, part, emptyPart, hkind, KindSet.valueRecovery, KindSet.contains]
  | close hkind => exact take_separator_closer hkind _ _
  | closePart hkind => exact take_part_closer hkind _ _ _
  | pass hgoes => simp [take, skip, hgoes]
  | passParameter hgoes => simp [take, skipParameter, hgoes]
  | brokenMarker hkind =>
      have hends : KindSet.parameterRecovery.contains .parameterClose = true := by decide
      simp [take, skipParameter, hkind, hends]
  | excess hcut => simp [take, hopen, Reader.excess]
  | stopped => rfl

end Reader
end QueryBody
