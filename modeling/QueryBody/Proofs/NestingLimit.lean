import QueryBody.Proofs.Acceptance
import QueryBody.Proofs.LaterReports
import QueryBody.Proofs.Outline
import Mathlib.Tactic

/-!
# The nesting limit

With a limit on the nesting, a body is read as it is without one, up to the first bracket
with too many containers around it.  There the rest of the body is ignored, and nothing but
that is reported.
-/

namespace QueryBody

/-- The options with another limit, or with none. -/
def Options.within (options : Options) (limit : Option Nat) : Options :=
  { options with nestingLimit := limit }

/-- What is missing before a token that begins a value. -/
def Focus.missing? : Focus → Option Problem
  | .separator _ => some .missingComma
  | .colon _ _ _ => some .expectedColon
  | _ => none

def Setting.lifted (setting : Setting) : Setting := { setting with nestingLimit := none }

namespace Reader

variable {setting : Setting} {lexeme : Lexeme} {holes : List Hole} {reports : List Diagnostic}
  {first last reader : Reader}

/-! ### Reading without the limit -/

/-- A value is waited for inside as many containers as the limit allows, and the token opens one
more. -/
structure OpensTooDeep (setting : Setting) (lexeme : Lexeme) (reader : Reader)
    (holes : List Hole) (reports : List Diagnostic) : Prop where
  turns : Relation.ReflTransGen (Turn setting lexeme) reader ⟨.value, holes, reports⟩
  opens : lexeme.Opens
  exceeded : (setting.exceeded? holes.length).isSome

theorem Turn.lifted (hturn : Turn setting lexeme first last) :
    Turn setting.lifted lexeme first last := by
  cases hturn with
  | item hrecovery => exact .item hrecovery
  | missingValue hrecovery => exact .missingValue hrecovery
  | noProperty hcut hrecovery hkind => exact .noProperty hcut hrecovery hkind
  | missingComma hrecovery hbegins => exact .missingComma hrecovery hbegins
  | noPart hrecovery hbegins => exact .noPart hrecovery hbegins
  | resume hrecovery => exact .resume hrecovery
  | resumePart hrecovery => exact .resumePart hrecovery
  | mismatched hrecovery hcomma hcloser => exact .mismatched hrecovery hcomma hcloser
  | mismatchedPart hrecovery hcomma hcloser => exact .mismatchedPart hrecovery hcomma hcloser
  | missingColon hcut hkind hfirst => exact .missingColon hcut hkind hfirst
  | noPair hcut hkind hfirst => exact .noPair hcut hkind hfirst
  | noName hcut hkind => exact .noName hcut hkind
  | noMarker hcut hkind => exact .noMarker hcut hkind
  | resumeParameter hrecovery => exact .resumeParameter hrecovery

theorem take_lifted_of_turns
    (hturns : Relation.ReflTransGen (Turn setting lexeme) first last) :
    last.take setting.lifted lexeme = first.take setting.lifted lexeme :=
  turns_induction (fun turned => turned.take setting.lifted lexeme = _)
    (fun _ _ hturn ih => hturn.lifted.take_eq.symm.trans ih) hturns rfl

/-- The reports once a value begins with a token. -/
def reportMissing (reader : Reader) (lexeme : Lexeme) : List Diagnostic :=
  match reader.focus.missing? with
  | some problem => Report.add (Report.instead problem lexeme) reader.reports
  | none => reader.reports

theorem take_value_of_opens (hopens : lexeme.Opens) (holes : List Hole)
    (reports : List Diagnostic) :
    take setting ⟨.value, holes, reports⟩ lexeme = openContainer setting lexeme holes reports := by
  simp only [take, value, hopens.isCutIn, hopens.valueRecovery, Bool.false_eq_true, if_false]
  rcases hopens with hkind | hkind <;> rw [hkind]

theorem value_lifted (hother : ¬lexeme.Opens) (holes : List Hole) (reports : List Diagnostic) :
    value setting.lifted lexeme holes reports = value setting lexeme holes reports := by
  have hcut : setting.lifted.isCutIn lexeme = setting.isCutIn lexeme := rfl
  unfold value
  rw [hcut]
  cases hkind : lexeme.kind with
  | braceOpen => exact (hother (Or.inl hkind)).elim
  | bracketOpen => exact (hother (Or.inr hkind)).elim
  | _ => rfl

theorem take_lifted_of_not_opens (hother : ¬lexeme.Opens) (reader : Reader) :
    reader.take setting.lifted lexeme = reader.take setting lexeme := by
  obtain ⟨focus, holes, reports⟩ := reader
  cases focus with
  | value => exact value_lifted hother _ _
  | part container comma =>
      cases container with
      | array opener items => simp only [take, part, value_lifted hother]
      | object opener members => rfl
  | separator container =>
      cases container with
      | array opener items => simp only [take, separator, part, value_lifted hother]
      | object opener members => rfl
  | colon opener members key =>
      simp only [take, colon, value_lifted hother]
      rfl
  | _ => rfl

/-- An opening bracket opens a container where a value is waited for, also if the comma or the
colon before it is missing.  Everywhere else it opens none. -/
theorem turns_or_of_opens (hopens : lexeme.Opens) (reader : Reader) :
    (∃ holes, holes.length = reader.openers.length ∧
      ∀ setting, Relation.ReflTransGen (Turn setting lexeme) reader
        ⟨.value, holes, reader.reportMissing lexeme⟩) ∨
    ∀ setting : Setting, reader.take setting.lifted lexeme = reader.take setting lexeme ∧
      (reader.take setting lexeme).openers.length ≤ reader.openers.length := by
  have hcut := hopens.isCutIn
  have hrecovery := hopens.valueRecovery
  obtain ⟨hstring, hcolon, hname, hmarker⟩ : lexeme.kind ≠ .string ∧ lexeme.kind ≠ .colon ∧
      lexeme.kind ≠ .identifier ∧ lexeme.kind ≠ .parameterClose := by
    rcases hopens with hkind | hkind <;> rw [hkind] <;> decide
  have hparameter : KindSet.parameterRecovery.contains lexeme.kind = false := by
    rcases hopens with hkind | hkind <;> rw [hkind] <;> rfl
  obtain ⟨focus, holes, reports⟩ := reader
  -- a place for a value is reached in at most two turns; at any other the limit is not looked at
  cases focus with
  | value => exact Or.inl ⟨holes, by simp [Focus.opener?], fun _ => .refl⟩
  | part container comma =>
      cases container with
      | array opener items =>
          refine Or.inl ⟨.item opener items :: holes, by simp [Focus.opener?], ?_⟩
          exact fun _ => .single (.item hrecovery)
      | object opener members =>
          refine Or.inr fun setting => ⟨rfl, ?_⟩
          simp [take, part, property, skip, hcut, hrecovery, hstring, Focus.opener?]
  | separator container =>
      cases container with
      | array opener items =>
          refine Or.inl ⟨.item opener items :: holes, by simp [Focus.opener?], ?_⟩
          exact fun _ =>
            .head (.missingComma hrecovery hopens.valueFirst) (.single (.item hrecovery))
      | object opener members =>
          refine Or.inr fun setting => ⟨rfl, ?_⟩
          simp [take, separator, beginsPart, skip, hrecovery, hstring, Focus.opener?]
  | colon opener members key =>
      refine Or.inl ⟨.property opener members key :: holes, by simp [Focus.opener?], ?_⟩
      exact fun setting => .single (.missingColon (hcut setting) hcolon hopens.valueFirst)
  | parameterName marker =>
      refine Or.inr fun setting => ⟨rfl, ?_⟩
      simp [take, parameterName, skipParameter, hcut, hname, hparameter, Focus.opener?]
  | parameterClose marker name =>
      refine Or.inr fun setting => ⟨rfl, ?_⟩
      cases hend : setting.isCutInMarker lexeme with
      | true => simp [take, Reader.parameterClose, hend, Focus.opener?]
      | false =>
          cases holes <;>
            simp [take, Reader.parameterClose, hend, hmarker, giveUp, excess, skip, hrecovery,
              Focus.opener?]
  | skip depth container next =>
      refine Or.inr fun setting => ⟨rfl, ?_⟩
      simp [take, skip, hrecovery, Focus.opener?]
  | skipParameter depth =>
      refine Or.inr fun setting => ⟨rfl, ?_⟩
      simp [take, skipParameter, hparameter, Focus.opener?]
  | finished root =>
      refine Or.inr fun setting => ⟨rfl, ?_⟩
      simp [take, excess, hcut, Focus.opener?]
  | stopped root isCut => exact Or.inr fun setting => ⟨rfl, le_rfl⟩

theorem take_lifted_or (reader : Reader) (lexeme : Lexeme) :
    reader.take setting.lifted lexeme = reader.take setting lexeme ∨
      ∃ holes reports, OpensTooDeep setting lexeme reader holes reports := by
  by_cases hopens : lexeme.Opens
  · rcases turns_or_of_opens hopens reader with ⟨holes, -, hturns⟩ | hsame
    · cases hroom : setting.exceeded? holes.length with
      | none =>
          left
          rw [← take_of_turns (hturns setting), ← take_lifted_of_turns (hturns setting),
            take_value_of_opens hopens, take_value_of_opens hopens, openContainer,
            openContainer, hroom]
          rfl
      | some limit => exact Or.inr ⟨holes, _, hturns setting, hopens, by rw [hroom]; rfl⟩
    · exact Or.inl (hsame setting).1
  · exact Or.inl (take_lifted_of_not_opens hopens reader)

/-- Two runs over the same tokens stay together until the limit is exceeded. -/
theorem run_lifted_or (setting : Setting) (lexemes : List Lexeme) (reader : Reader) :
    reader.run setting.lifted lexemes = reader.run setting lexemes ∨
      ∃ front lexeme back holes reports, lexemes = front ++ lexeme :: back ∧
        reader.run setting.lifted front = reader.run setting front ∧
        OpensTooDeep setting lexeme (reader.run setting front) holes reports := by
  induction lexemes generalizing reader with
  | nil => exact Or.inl rfl
  | cons lexeme rest ih =>
      have hstep : reader.step setting.lifted lexeme = reader.step setting lexeme ∨
          ∃ holes reports, OpensTooDeep setting lexeme reader holes reports := by
        unfold step
        split
        · exact Or.inl rfl
        · exact take_lifted_or reader lexeme
      rcases hstep with hsame | ⟨holes, reports, hdeep⟩
      · rw [run_cons, run_cons, hsame]
        refine (ih _).imp_right ?_
        rintro ⟨front, later, back, holes, reports, rfl, hfront, hdeep⟩
        exact ⟨lexeme :: front, later, back, holes, reports, rfl,
          by rw [run_cons, hsame, hfront, run_cons], hdeep⟩
      · exact Or.inr ⟨[], lexeme, rest, holes, reports, rfl, rfl, hdeep⟩

namespace OpensTooDeep

theorem run_eq {limit : Nat} (hlimit : setting.nestingLimit = some limit)
    (hdeep : OpensTooDeep setting lexeme reader holes reports) (back : List Lexeme) :
    reader.run setting (lexeme :: back) =
      ⟨.stopped (Hole.abandon holes) false, [],
        Report.add (Report.tooDeep limit lexeme) reports⟩ := by
  have hexceeded : setting.exceeded? holes.length = some limit := by
    have hsome := hdeep.exceeded
    simp only [Setting.exceeded?, hlimit, Option.filter] at hsome ⊢
    split at hsome
    next hle => rw [if_pos hle]
    next => contradiction
  rw [run_cons, step_of_not_isTrivia hdeep.opens.isTrivia, ← take_of_turns hdeep.turns,
    take_value_of_opens hdeep.opens, openContainer, hexceeded, run_stopped]

theorem step_lifted (hdeep : OpensTooDeep setting lexeme reader holes reports) :
    reader.step setting.lifted lexeme =
      ⟨.part (.ofOpener lexeme.toToken) none, holes, reports⟩ := by
  rw [step_of_not_isTrivia hdeep.opens.isTrivia, ← take_lifted_of_turns hdeep.turns,
    take_value_of_opens hdeep.opens]
  rfl

theorem outline_eq (hdeep : OpensTooDeep setting lexeme reader holes reports) :
    reader.outline = (Descent.layout holes).map Descent.Node.spot :=
  (turns_induction (fun turned => turned.outline = reader.outline)
    (fun _ _ hturn ih => hturn.outline_eq.trans ih) hdeep.turns rfl).symm

theorem le_length {limit : Nat} (hlimit : setting.nestingLimit = some limit)
    (hdeep : OpensTooDeep setting lexeme reader holes reports) : limit ≤ holes.length := by
  have hsome := hdeep.exceeded
  simpa [Setting.exceeded?, hlimit, Option.filter] using hsome

end OpensTooDeep
end Reader

namespace Reader

variable {setting : Setting} {lexeme : Lexeme}

/-! ### What is reported before and after the bracket -/

section

variable {source : String} {front back : List Lexeme} {container : Container}
  {holes : List Hole} {reports : List Diagnostic}

theorem OpensTooDeep.of_mem_reports (hlex : lex source = front ++ lexeme :: back)
    (hdeep : OpensTooDeep setting lexeme (start.run setting.lifted front) holes reports) :
    ∀ diagnostic ∈ reports,
      diagnostic.problem ≠ .nestingTooDeep ∧ diagnostic.offset ≤ lexeme.span.start := by
  let before (diagnostic : Diagnostic) : Prop :=
    diagnostic.problem ≠ .nestingTooDeep ∧ diagnostic.offset ≤ lexeme.span.start
  have horder := (tiles_lex source).pairwise
  rw [hlex, List.pairwise_append] at horder
  have hstart : start.ReportsOnly before [] := ⟨.refl _ _, by simp [ReportsComma, start]⟩
  have hfront : (start.run setting.lifted front).ReportsOnly before [] := by
    refine hstart.run ?_
    intro earlier hmem diagnostic hreported
    have hplain := hreported.isPlainAt rfl
    have hlt := horder.2.2 earlier hmem lexeme List.mem_cons_self
    exact ⟨hplain.problem_ne, by rw [hplain.offset_eq]; exact hlt.le⟩
  have hturned := hfront.turns
    (fun diagnostic hnoted => ⟨hnoted.isPlainAt.problem_ne, hnoted.isPlainAt.offset_eq.le⟩)
    hdeep.turns
  obtain ⟨later, hreports, hlater⟩ := hturned.since
  obtain rfl : reports = later := by simpa using hreports
  exact hlater

theorem since_finish_run (hsize : setting.size = Utf8.size source.toList)
    (hlex : lex source = front ++ lexeme :: back) (hunlimited : setting.nestingLimit = none)
    (isGroup : Bool) :
    Report.Since (fun diagnostic => lexeme.span.start < diagnostic.offset) reports
      ((run setting ⟨.part container none, holes, reports⟩ back).finish setting
        isGroup).reports := by
  have htiles := tiles_lex source
  have horder := htiles.pairwise
  rw [hlex, List.pairwise_append, List.pairwise_cons] at horder
  -- no comma is waiting to be reported, so all that follows is about later tokens
  have hpart : ReportsOnly (fun diagnostic => lexeme.span.start < diagnostic.offset) reports
      ⟨.part container none, holes, reports⟩ := ⟨.refl _ _, by simp [ReportsComma]⟩
  have hrun := hpart.run fun later hmem diagnostic hreported =>
    (hreported.isPlainAt hunlimited).offset_eq ▸ horder.2.1.1 later hmem
  refine since_finish ?_ hrun.since isGroup
  intro diagnostic hatEnd
  have hoffset := hatEnd.offset_eq
  have hmem : lexeme ∈ lex source := by simp [hlex]
  obtain ⟨_, hlt, hle⟩ := htiles.mem hmem
  omega

end

end Reader

theorem Report.filter_add_tooDeep {reports : List Diagnostic}
    (hreports : ∀ diagnostic ∈ reports, diagnostic.problem ≠ .nestingTooDeep) (limit : Nat)
    (lexeme : Lexeme) :
    (add (tooDeep limit lexeme) reports).filter (·.problem ≠ .nestingTooDeep) = reports := by
  have hall : reports.filter (·.problem ≠ .nestingTooDeep) = reports := by
    simpa [List.filter_eq_self] using hreports
  rcases add_eq (tooDeep limit lexeme) reports with hadd | hadd
  · rw [hadd, hall]
  · rw [hadd, List.filter_cons_of_neg (by simp [tooDeep, Diagnostic.withDetail,
      Diagnostic.ofToken, Diagnostic.plain]), hall]

/-! ### Bodies with and without a limit -/

namespace Tree

variable {tree : Tree} {limit : Nat}

/-- Every object and every array is in fewer containers than the limit. -/
def NestsWithin (tree : Tree) (limit : Nat) : Prop :=
  ∀ place ∈ tree.places, place.IsContainer → (tree.ancestors place).length < limit

/-- The first of the objects and arrays that are in as many containers as the limit. -/
structure IsFirstTooDeep (tree : Tree) (limit : Nat) (place : Place) : Prop where
  mem : place ∈ tree.places
  isContainer : place.IsContainer
  le : limit ≤ (tree.ancestors place).length
  first : ∀ other ∈ tree.places, other.IsContainer → limit ≤ (tree.ancestors other).length →
    place.id ≤ other.id

theorem length_ancestors_lt {outline : List Spot} (hshallow : Reader.Shallow limit outline)
    (hstarts : outline <+: tree.places.map Place.spot) {place : Place}
    (hmem : place ∈ tree.places) (hbefore : place.id < outline.length)
    (hcontainer : place.IsContainer) : (tree.ancestors place).length < limit := by
  have hget : outline[place.id]? = some place.spot := by
    obtain ⟨rest, hrest⟩ := hstarts
    rw [← List.getElem?_append_left hbefore, hrest, List.getElem?_map]
    exact congrArg (Option.map Place.spot) (get?_of_mem hmem)
  obtain ⟨_, hspot⟩ := List.getElem?_eq_some_iff.mp hget
  have hsplit : outline = outline.take place.id ++ place.spot :: outline.drop (place.id + 1) := by
    rw [← hspot, List.getElem_cons_drop, List.take_append_drop]
  obtain ⟨holes, htake, hparent, hlt⟩ := hshallow _ _ _ hsplit hcontainer
  have hplace : place.id = Descent.place holes := by
    have hlength := congrArg List.length htake
    rw [List.length_take, List.length_map] at hlength
    rw [Descent.place]
    omega
  have hholes : (Descent.layout holes).map Descent.Node.spot <+: tree.places.map Place.spot :=
    htake ▸ (List.take_prefix _ _).trans hstarts
  rw [length_ancestors hholes hplace hparent]
  exact hlt

/-- After what has been read within the limit comes the first container that is not within it. -/
theorem exists_isFirstTooDeep {holes : List Hole} {spot : Spot}
    (hshallow : Reader.Shallow limit ((Descent.layout holes).map Descent.Node.spot))
    (hstarts : (Descent.layout holes).map Descent.Node.spot ++ [spot] <+:
      tree.places.map Place.spot)
    (hcontainer : spot.IsContainer) (hparent : spot.parent = Descent.owner holes)
    (hle : limit ≤ holes.length) :
    ∃ place, tree.IsFirstTooDeep limit place ∧ place.id = Descent.place holes ∧
      place.spot = spot := by
  have hbefore : (Descent.layout holes).map Descent.Node.spot <+: tree.places.map Place.spot :=
    (List.prefix_append _ _).trans hstarts
  obtain ⟨place, hget, rfl⟩ : ∃ place, tree.get? (Descent.place holes) = some place ∧
      place.spot = spot := by
    obtain ⟨rest, hrest⟩ := hstarts
    apply Option.map_eq_some_iff.mp
    rw [get?, ← List.getElem?_map, ← hrest]
    simp [Descent.place]
  have hid : place.id = Descent.place holes := id_of_get? hget
  have hmem : place ∈ tree.places := List.mem_of_getElem? hget
  refine ⟨place, ⟨hmem, hcontainer, ?_, ?_⟩, hid, rfl⟩
  · rw [length_ancestors hbefore hid hparent]
    exact hle
  · intro other hother hotherContainer hdeep
    by_contra hearlier
    have hlt : other.id < ((Descent.layout holes).map Descent.Node.spot).length := by
      rw [List.length_map]
      exact (not_le.mp hearlier).trans_eq hid
    exact absurd (length_ancestors_lt hshallow hbefore hother hlt hotherContainer)
      (not_lt.mpr hdeep)

end Tree

/-- The places of one body are those of the other before a place, and apart from the nesting it
reports what the other one does up to there. -/
structure Body.EndsBefore (place : Place) (body other : Body) : Prop where
  size_eq : body.tree.size = place.id
  spots_eq : body.tree.places.map Place.spot =
    (other.tree.places.take place.id).map Place.spot
  reports_eq : body.diagnostics.toList.filter (·.problem ≠ .nestingTooDeep) =
    other.diagnostics.toList.filter (·.offset ≤ place.token.span.start)

namespace Reader

variable {setting : Setting} {lexeme : Lexeme} {holes : List Hole} {reports : List Diagnostic}

theorem finish_lifted (isGroup : Bool) (reader : Reader) :
    reader.finish setting.lifted isGroup = reader.finish setting isGroup := by
  obtain ⟨focus, holes, reports⟩ := reader
  cases focus <;> rfl

end Reader

namespace Options

variable {options : Options} {source : String} {limit : Nat}

theorem outline_parse (hstrict : options.allowsFragments = false) (source : String) :
    (options.parse source).tree.places.map Place.spot =
      (Reader.start.run (options.setting source) (lex source)).outline :=
  (Tree.map_spot_places _).trans (Reader.outline_finish hstrict options.isGroup _)

theorem nestsWithin_of_run_eq (hstrict : options.allowsFragments = false)
    (hrun : Reader.start.run ((options.within none).setting source) (lex source) =
      Reader.start.run ((options.within (some limit)).setting source) (lex source)) :
    ((options.within none).parse source).tree.NestsWithin limit ∧
      (options.within (some limit)).parse source = (options.within none).parse source := by
  have hopen : (options.within none).allowsFragments = false := hstrict
  have houtline := outline_parse hopen source
  constructor
  · have hshallow : Reader.Shallow limit
        (((options.within none).parse source).tree.places.map Place.spot) := by
      rw [houtline, hrun]
      exact Reader.shallow_run rfl hstrict Reader.shallow_start _
    intro place hmem hcontainer
    refine Tree.length_ancestors_lt hshallow List.prefix_rfl hmem ?_ hcontainer
    rw [List.length_map]
    exact (List.getElem?_eq_some_iff.mp (Tree.get?_of_mem hmem)).1
  · rw [parse, parse, hrun]
    exact congrArg Body.ofOutcome (Reader.finish_lifted _ _).symm

section

variable {front back : List Lexeme} {lexeme : Lexeme} {holes : List Hole}
  {reports : List Diagnostic}

theorem parse_within_some (hlex : lex source = front ++ lexeme :: back)
    (hdeep : Reader.OpensTooDeep ((options.within (some limit)).setting source) lexeme
      (Reader.start.run ((options.within (some limit)).setting source) front) holes reports) :
    (options.within (some limit)).parse source =
      .ofOutcome ⟨Hole.abandon holes, Report.add (Report.tooDeep limit lexeme) reports,
        false⟩ := by
  rw [parse, hlex, Reader.run_append, hdeep.run_eq rfl]
  rfl

theorem run_within_none (hlex : lex source = front ++ lexeme :: back)
    (hdeep : Reader.OpensTooDeep ((options.within (some limit)).setting source) lexeme
      (Reader.start.run ((options.within none).setting source) front) holes reports) :
    Reader.start.run ((options.within none).setting source) (lex source) =
      Reader.run ((options.within none).setting source)
        ⟨.part (.ofOpener lexeme.toToken) none, holes, reports⟩ back := by
  rw [hlex, Reader.run_append, Reader.run_cons]
  exact congrArg (Reader.run _ · back) hdeep.step_lifted

theorem reports_within_some (hlex : lex source = front ++ lexeme :: back)
    (hfront : Reader.start.run ((options.within none).setting source) front =
      Reader.start.run ((options.within (some limit)).setting source) front)
    (hdeep : Reader.OpensTooDeep ((options.within (some limit)).setting source) lexeme
      (Reader.start.run ((options.within none).setting source) front) holes reports) :
    ((options.within (some limit)).parse source).diagnostics.toList.filter
        (·.problem ≠ .nestingTooDeep) =
      ((options.within none).parse source).diagnostics.toList.filter
        (·.offset ≤ lexeme.span.start) := by
  have hreports := Reader.OpensTooDeep.of_mem_reports hlex hdeep
  have hlimited : ((options.within (some limit)).parse source).diagnostics.toList =
      (Report.add (Report.tooDeep limit lexeme) reports).reverse := by
    rw [parse_within_some hlex (hfront ▸ hdeep)]
    rfl
  have hsince : Report.Since (fun diagnostic => lexeme.span.start < diagnostic.offset) reports
      ((options.within none).parse source).diagnostics.toList.reverse := by
    rw [parse, run_within_none hlex hdeep, Body.ofOutcome, List.reverse_reverse]
    exact Reader.since_finish_run rfl hlex rfl options.isGroup
  calc ((options.within (some limit)).parse source).diagnostics.toList.filter
        (·.problem ≠ .nestingTooDeep)
      = reports.reverse := by
        rw [hlimited, List.filter_reverse,
          Report.filter_add_tooDeep fun diagnostic hmem => (hreports diagnostic hmem).1]
    _ = ((options.within none).parse source).diagnostics.toList.filter
          (·.offset ≤ lexeme.span.start) := by
        rw [← hsince.filter_eq fun diagnostic hmem => (hreports diagnostic hmem).2,
          List.filter_reverse, List.reverse_reverse]

/-- A body whose nesting exceeds the limit at a token ends before that token. -/
theorem exists_firstTooDeep (hstrict : options.allowsFragments = false)
    (hlex : lex source = front ++ lexeme :: back)
    (hfront : Reader.start.run ((options.within none).setting source) front =
      Reader.start.run ((options.within (some limit)).setting source) front)
    (hdeep : Reader.OpensTooDeep ((options.within (some limit)).setting source) lexeme
      (Reader.start.run ((options.within (some limit)).setting source) front) holes reports) :
    ∃ place, ((options.within none).parse source).tree.IsFirstTooDeep limit place ∧
      ((options.within (some limit)).parse source).EndsBefore place
        ((options.within none).parse source) := by
  have hopen : (options.within none).allowsFragments = false := hstrict
  have hlimited := parse_within_some hlex hdeep
  -- with the limit, the body is what was around the bracket
  have hlimitedSpots : ((options.within (some limit)).parse source).tree.places.map Place.spot =
      (Descent.layout holes).map Descent.Node.spot := by
    rw [hlimited]
    exact (Tree.map_spot_places _).trans (Hole.outline_abandon holes)
  have hshallow : Reader.Shallow limit ((Descent.layout holes).map Descent.Node.spot) := by
    rw [← hdeep.outline_eq]
    exact Reader.shallow_run rfl hstrict Reader.shallow_start _
  -- without it, the container of the bracket comes next, and the rest after that
  rw [← hfront] at hdeep
  have hrun := run_within_none hlex hdeep
  have hspots : (Descent.layout holes).map Descent.Node.spot ++
      [Descent.spotAt (Container.ofOpener lexeme.toToken).value holes] <+:
        ((options.within none).parse source).tree.places.map Place.spot := by
    rw [outline_parse hopen, hrun,
      ← Descent.map_spot_nodesWith (Reader.size_ofOpener lexeme.toToken)]
    exact Reader.outline_isPrefix_run hopen
      ⟨.part (.ofOpener lexeme.toToken) none, holes, reports⟩ back
  obtain ⟨place, hfirst, hid, hspot⟩ := Tree.exists_isFirstTooDeep hshallow hspots
    (Reader.isContainer_ofOpener _ _) rfl (hdeep.le_length rfl)
  refine ⟨place, hfirst, ?_, ?_, ?_⟩
  · have hlength := congrArg List.length hlimitedSpots
    rw [List.length_map, List.length_map] at hlength
    exact hlength.trans hid.symm
  · have hbefore := List.prefix_iff_eq_take.mp ((List.prefix_append _ _).trans hspots)
    rw [hlimitedSpots, List.map_take, hid]
    simpa [Descent.place] using hbefore
  · have htoken : place.token = lexeme.toToken :=
      (congrArg Spot.token hspot).trans (Reader.token_ofOpener _)
    rw [htoken]
    exact reports_within_some hlex hfront hdeep

end

end Options

/-- A limit on the nesting only cuts a body off.  If every object and every array is in fewer
containers than the limit, the limit changes nothing.  Otherwise the body ends before the first
one that is not: what is before it is the same, and so is what is reported up to its bracket,
apart from the report about the nesting. -/
theorem parse_within_limit (options : Options) (source : String) (limit : Nat)
    (hstrict : options.allowsFragments = false) :
    (((options.within none).parse source).tree.NestsWithin limit →
      (options.within (some limit)).parse source = (options.within none).parse source) ∧
    (¬((options.within none).parse source).tree.NestsWithin limit →
      ∃ place, ((options.within none).parse source).tree.IsFirstTooDeep limit place ∧
        ((options.within (some limit)).parse source).EndsBefore place
          ((options.within none).parse source)) := by
  rcases Reader.run_lifted_or ((options.within (some limit)).setting source) (lex source)
    Reader.start with hrun | hexceeds
  · obtain ⟨hnests, hsame⟩ := Options.nestsWithin_of_run_eq hstrict hrun
    exact ⟨fun _ => hsame, fun hdeep => (hdeep hnests).elim⟩
  · obtain ⟨front, lexeme, back, holes, reports, hlex, hfront, hdeep⟩ := hexceeds
    obtain ⟨place, hfirst, hends⟩ := Options.exists_firstTooDeep hstrict hlex hfront hdeep
    refine ⟨fun hnests => ?_, fun _ => ⟨place, hfirst, hends⟩⟩
    exact absurd (hnests place hfirst.mem hfirst.isContainer) (not_lt.mpr hfirst.le)

/-- The missing comma before the inner array is reported; its missing end is not. -/
theorem parse_within_limit_of_missing_comma :
    Options.group.allowsFragments = false ∧
      ∃ place, place.id = 3 ∧
        ((Options.group.within none).parse "[1 2, [3], 4").tree.IsFirstTooDeep 1 place ∧
        ((Options.group.within (some 1)).parse "[1 2, [3], 4").EndsBefore place
          ((Options.group.within none).parse "[1 2, [3], 4") := by
  have hsize : ((Options.group.within (some 1)).parse "[1 2, [3], 4").tree.size = 3 := by decide +kernel
  have hwhole : ((Options.group.within none).parse "[1 2, [3], 4").tree.size = 6 := by decide +kernel
  obtain ⟨hshallow, hdeep⟩ := parse_within_limit Options.group "[1 2, [3], 4" 1 rfl
  obtain ⟨place, hfirst, hends⟩ := hdeep fun hnests => by
    rw [hshallow hnests, hwhole] at hsize
    contradiction
  exact ⟨rfl, place, hends.size_eq.symm.trans hsize, hfirst, hends⟩

end QueryBody
