import QueryBody.Proofs.Acceptance
import QueryBody.Proofs.Moves
import Mathlib.Tactic

/-!
# Stages of a part

Between the commas of a container a reader passes through stages.  How it goes on from a
stage depends on the kinds and the texts of the tokens, and on neither the container nor
what is around it.  What the tokens add to the container does not depend on them either.
-/

namespace QueryBody

namespace Kind

/-- The bracket that closes what a bracket opens. -/
def closer? : Kind → Option Kind
  | braceOpen => some braceClose
  | bracketOpen => some bracketClose
  | _ => none

/-- The brackets that a token opens. -/
def rise (kind : Kind) : Nat := if kind.closer?.isSome then 1 else 0

theorem isOpener_iff {kind : Kind} :
    kind.closer?.isSome = true ↔ kind = .braceOpen ∨ kind = .bracketOpen := by
  cases kind <;> simp [closer?]

end Kind

/-! ### Parts of a container -/

/-- What a part of a container says. -/
inductive Part
  | item (datum : Datum)
  | slot (name : String) (datum : Option Datum)

namespace Part

/-- What a container gets with a value or with the lack of one, after a name or without one. -/
def filling : Option String → Option Datum → List Part
  | none, none => []
  | none, some datum => [item datum]
  | some name, datum => [slot name datum]

def item? : Part → Option Datum
  | item datum => some datum
  | slot _ _ => none

def slot? : Part → Option (String × Option Datum)
  | item _ => none
  | slot name datum => some (name, datum)

/-- What a container with this closing bracket says that has these parts, the latest first. -/
def datum (closer : Kind) (parts : List Part) : Datum :=
  if closer = .braceClose then .object (Slots.ofList (parts.reverse.filterMap slot?))
  else .array (parts.reverse.filterMap item?)

end Part

def Member.part : Member → Part
  | bare key => .slot key.text none
  | pair key value => .slot key.text (some value.datum)

/-- What the parts of a container say, the latest first. -/
def Container.parts : Container → List Part
  | array _ items => items.map fun item => .item item.datum
  | object _ members => members.map Member.part

theorem Value.itemData_eq_map (items : List Value) : itemData items = items.map datum := by
  induction items with
  | nil => rfl
  | cons item rest ih => rw [itemData, ih, List.map_cons]

theorem Value.memberData_eq_filterMap (members : List Member) :
    memberData members = (members.map Member.part).filterMap Part.slot? := by
  induction members with
  | nil => rfl
  | cons member rest ih => cases member <;> simp [memberData, ih, Member.part, Part.slot?]

theorem Container.datum_value (container : Container) :
    container.value.datum = Part.datum container.closer container.parts := by
  cases container with
  | array opener items =>
      simp [value, Value.datum, Part.datum, closer, parts, Value.itemData_eq_map,
        ← List.map_reverse, List.filterMap_map, Function.comp_def, Part.item?]
  | object opener members =>
      simp [value, Value.datum, Part.datum, closer, parts, Value.memberData_eq_filterMap]

/-- The container has this closing bracket and these parts, the latest first. -/
structure Container.Has (container : Container) (closer : Kind) (parts : List Part) : Prop where
  closer : container.closer = closer
  parts : container.parts = parts

theorem Container.Has.datum_value {container : Container} {closer : Kind} {parts : List Part}
    (hhas : container.Has closer parts) : container.value.datum = Part.datum closer parts := by
  obtain ⟨rfl, rfl⟩ := hhas
  exact Container.datum_value container

/-- A name without a value is a part as well. -/
theorem Container.has_bare {opener : Token} {members : List Member} {key : Key} {name : String}
    {closer : Kind} {parts : List Part} (hhas : (object opener members).Has closer parts)
    (hname : key.text = name) :
    (object opener (.bare key :: members)).Has closer (.slot name none :: parts) := by
  obtain ⟨rfl, rfl⟩ := hhas
  subst hname
  exact ⟨rfl, rfl⟩

namespace Hole

def name? : Hole → Option String
  | item _ _ => none
  | property _ _ key => some key.text

theorem has_fill {hole : Hole} {closer : Kind} {parts : List Part}
    (hhas : hole.discard.Has closer parts) (value : Option Value) :
    (hole.fill value).Has closer
      (Part.filling hole.name? (value.map Value.datum) ++ parts) := by
  obtain ⟨rfl, rfl⟩ := hhas
  cases hole <;> cases value <;> exact ⟨rfl, rfl⟩

end Hole

/-! ### Stages -/

/-- What a reader expects in a container, apart from what it has read so far. -/
inductive Stage
  | part
  | separator
  | skip (depth : Nat) (next : Resumption)
  | colon (name : String)
  /-- A value, after a name or without one. -/
  | value (name : Option String)
  | parameterName (name : Option String)
  | parameterClose (name : Option String) (parameter : String)
  | skipParameter (depth : Nat) (name : Option String)

namespace Stage

/-- The brackets that are open since the part broke. -/
def depth : Stage → Nat
  | skip depth _ | skipParameter depth _ => depth
  | _ => 0

/-- What the container gets if the part ends at the stage. -/
def rest : Stage → List Part
  | colon name => [.slot name none]
  | value name | parameterName name | parameterClose name _ | skipParameter _ name =>
      Part.filling name none
  | part | separator | skip _ _ => []

end Stage

/-- The reader is at a stage of a container with this closing bracket and these parts, the latest
first.  What it is reading is not among them. -/
inductive Reader.At (closer : Kind) (parts : List Part) (holes : List Hole) :
    Stage → Reader → Prop
  | part {container : Container} (hhas : container.Has closer parts) (comma : Option Token)
      (reports : List Diagnostic) :
      At closer parts holes .part ⟨.part container comma, holes, reports⟩
  | separator {container : Container} (hhas : container.Has closer parts)
      (reports : List Diagnostic) :
      At closer parts holes .separator ⟨.separator container, holes, reports⟩
  | skip {container : Container} {depth : Nat} {next : Resumption}
      (hhas : container.Has closer parts) (reports : List Diagnostic) :
      At closer parts holes (.skip depth next) ⟨.skip depth container next, holes, reports⟩
  | colon {opener : Token} {members : List Member} {key : Key} {name : String}
      (hhas : (Container.object opener members).Has closer parts) (hname : key.text = name)
      (reports : List Diagnostic) :
      At closer parts holes (.colon name) ⟨.colon opener members key, holes, reports⟩
  | value {hole : Hole} {name : Option String} (hhas : hole.discard.Has closer parts)
      (hname : hole.name? = name) (reports : List Diagnostic) :
      At closer parts holes (.value name) ⟨.value, hole :: holes, reports⟩
  | parameterName {hole : Hole} {name : Option String} (hhas : hole.discard.Has closer parts)
      (hname : hole.name? = name) (marker : Token) (reports : List Diagnostic) :
      At closer parts holes (.parameterName name)
        ⟨.parameterName marker, hole :: holes, reports⟩
  | parameterClose {hole : Hole} {name : Option String} {parameter : String}
      (hhas : hole.discard.Has closer parts) (hname : hole.name? = name) (marker : Token)
      (reports : List Diagnostic) :
      At closer parts holes (.parameterClose name parameter)
        ⟨.parameterClose marker parameter, hole :: holes, reports⟩
  | skipParameter {hole : Hole} {depth : Nat} {name : Option String}
      (hhas : hole.discard.Has closer parts) (hname : hole.name? = name)
      (reports : List Diagnostic) :
      At closer parts holes (.skipParameter depth name)
        ⟨.skipParameter depth, hole :: holes, reports⟩

namespace Reader

variable {closer : Kind} {parts : List Part} {holes : List Hole} {hole : Hole}
  {name : Option String}

theorem at_deliver_some (hhas : hole.discard.Has closer parts) (hname : hole.name? = name)
    (value : Value) (reports : List Diagnostic) :
    At closer (Part.filling name (some value.datum) ++ parts) holes .separator
      (deliver (some value) (hole :: holes) reports) := by
  subst hname
  exact .separator (Hole.has_fill hhas (some value)) reports

theorem at_deliver_none (hhas : hole.discard.Has closer parts) (hname : hole.name? = name)
    (reports : List Diagnostic) :
    At closer (Part.filling name none ++ parts) holes (.skip 0 .separator)
      (deliver none (hole :: holes) reports) := by
  subst hname
  exact .skip (Hole.has_fill hhas none) reports

theorem at_opened {opener : Token} (hkind : opener.kind.closer? = some closer)
    (holes : List Hole) (reports : List Diagnostic) :
    At closer [] holes .part ⟨.part (.ofOpener opener) none, holes, reports⟩ := by
  refine .part ⟨?_, ?_⟩ none reports
  · rcases Kind.isOpener_iff.mp (by rw [hkind]; rfl) with hopener | hopener <;>
      rw [hopener] at hkind <;> cases hkind <;> simp [Container.ofOpener, hopener, Container.closer]
  · unfold Container.ofOpener
    split <;> rfl

theorem pass_eq {lexeme : Lexeme} (hrecovery : KindSet.valueRecovery.contains lexeme.kind = false)
    (depth : Nat) : pass lexeme depth = depth + lexeme.kind.rise := by
  unfold pass
  cases hkind : lexeme.kind <;> rw [hkind] at hrecovery <;> first | rfl | contradiction

/-- A container that ends with this bracket may begin a part with a token of this kind. -/
def mayBegin (closer kind : Kind) : Bool :=
  if closer = .bracketClose then KindSet.valueFirst.contains kind else kind = .string

theorem beginsPart_eq {container : Container} (hhas : container.Has closer parts) (kind : Kind) :
    beginsPart container kind = mayBegin closer kind := by
  obtain ⟨rfl, -⟩ := hhas
  cases container <;> rfl

end Reader

/-- A token of a kind and a text at no place in particular. -/
def Lexeme.ofPiece (piece : Kind × List Char) : Lexeme := ⟨⟨piece.1, .point 0⟩, piece.2⟩

namespace Stage

open Reader

variable {setting : Setting} {closer : Kind} {piece : Kind × List Char}

/-- The tokens of a kind and a text lead from one stage to the next, whatever the container has
and whatever is around it, and add parts to the container. -/
def Takes (setting : Setting) (closer : Kind) (piece : Kind × List Char) (stage next : Stage)
    (added : List Part) : Prop :=
  ∀ ⦃lexeme : Lexeme⦄, lexeme.piece = piece → ∀ ⦃parts holes reader⦄,
    At closer parts holes stage reader →
      At closer (added ++ parts) holes next (reader.take setting lexeme)

/-- Before such a token is taken the reader turns to another stage. -/
def Turns (setting : Setting) (closer : Kind) (piece : Kind × List Char) (stage turned : Stage)
    (added : List Part) : Prop :=
  ∀ ⦃lexeme : Lexeme⦄, lexeme.piece = piece → ∀ ⦃parts holes reader⦄,
    At closer parts holes stage reader →
      ∃ other, Turn setting lexeme reader other ∧ At closer (added ++ parts) holes turned other

/-- Such a token opens a container in the part. -/
def Opens (setting : Setting) (closer : Kind) (piece : Kind × List Char) (stage : Stage)
    (name : Option String) : Prop :=
  ∀ ⦃lexeme : Lexeme⦄, lexeme.piece = piece → ∀ ⦃parts holes reader⦄,
    At closer parts holes stage reader →
      ∃ hole reports, hole.discard.Has closer parts ∧ hole.name? = name ∧
        reader.take setting lexeme =
          ⟨.part (.ofOpener lexeme.toToken) none, hole :: holes, reports⟩

theorem Takes.of_turns {stage turned next : Stage} {first second : List Part}
    (htakes : Takes setting closer piece turned next second)
    (hturns : Turns setting closer piece stage turned first) :
    Takes setting closer piece stage next (second ++ first) := by
  intro lexeme hpiece parts holes reader hat
  obtain ⟨other, hturn, hother⟩ := hturns hpiece hat
  rw [hturn.take_eq, List.append_assoc]
  exact htakes hpiece hother

theorem Opens.of_turns {stage turned : Stage} {name : Option String}
    (hopens : Opens setting closer piece turned name)
    (hturns : Turns setting closer piece stage turned []) :
    Opens setting closer piece stage name := by
  intro lexeme hpiece parts holes reader hat
  obtain ⟨other, hturn, hother⟩ := hturns hpiece hat
  rw [hturn.take_eq]
  exact hopens hpiece hother

/-- What the tokens of a kind and a text do at a stage, if they do not end the part. -/
inductive Responds (setting : Setting) (closer : Kind) (piece : Kind × List Char)
    (stage : Stage) : Prop
  | opens (name : Option String) (hopener : piece.1.closer?.isSome = true)
      (hdepth : stage.depth = 0) (hopens : Opens setting closer piece stage name)
  | takes (next : Stage) (added : List Part) (hdepth : next.depth = stage.depth + piece.1.rise)
      (htakes : Takes setting closer piece stage next added)

theorem Responds.of_turns {stage turned : Stage} (hresponds : Responds setting closer piece turned)
    (hturns : Turns setting closer piece stage turned []) (hdepth : turned.depth = stage.depth) :
    Responds setting closer piece stage := by
  cases hresponds with
  | opens name hopener hzero hopens =>
      exact .opens name hopener (hdepth ▸ hzero) (hopens.of_turns hturns)
  | takes next added hnext htakes =>
      exact .takes next (added ++ []) (hdepth ▸ hnext) (htakes.of_turns hturns)

section

variable (hrecovery : KindSet.valueRecovery.contains piece.1 = false)
  (hstrict : setting.allowsFragments = false)

include hrecovery hstrict

theorem takes_skip (depth : Nat) (next : Resumption) :
    Takes setting closer piece (.skip depth next) (.skip (depth + piece.1.rise) next) [] := by
  rintro lexeme rfl parts holes reader hat
  cases hat with
  | skip hhas reports =>
      have hgoes : ¬(depth = 0 ∧ KindSet.valueRecovery.contains lexeme.kind = true) := by
        simp [show KindSet.valueRecovery.contains lexeme.kind = false from hrecovery]
      rw [(Shift.pass hgoes).take_eq hstrict, pass_eq hrecovery]
      exact .skip hhas reports

theorem responds_skip (depth : Nat) (next : Resumption) :
    Responds setting closer piece (.skip depth next) :=
  .takes _ [] rfl (takes_skip hrecovery hstrict depth next)

theorem responds_skipParameter (depth : Nat) (name : Option String) :
    Responds setting closer piece (.skipParameter depth name) := by
  by_cases hends : depth = 0 ∧ piece.1 = .parameterClose
  · obtain ⟨rfl, hkind⟩ := hends
    refine .takes (.skip 0 .separator) (Part.filling name none) (by rw [hkind]; rfl) ?_
    rintro lexeme rfl parts holes reader hat
    cases hat with
    | skipParameter hhas hname reports =>
        rw [(Shift.brokenMarker hkind).take_eq hstrict]
        exact at_deliver_none hhas hname reports
  · refine .takes (.skipParameter (depth + piece.1.rise) name) [] rfl ?_
    rintro lexeme rfl parts holes reader hat
    cases hat with
    | skipParameter hhas hname reports =>
        have hgoes : ¬(depth = 0 ∧ KindSet.parameterRecovery.contains lexeme.kind = true) := by
          rintro ⟨hzero, hcontains⟩
          have hother : KindSet.valueRecovery.contains lexeme.kind = false := hrecovery
          rw [KindSet.parameterRecovery, KindSet.contains_union, hother, Bool.false_or] at hcontains
          have hmarker : lexeme.kind = .parameterClose := by
            simpa [KindSet.contains] using hcontains
          exact hends ⟨hzero, hmarker⟩
        rw [(Shift.passParameter hgoes).take_eq hstrict, pass_eq hrecovery]
        exact .skipParameter hhas hname reports

theorem responds_value (hunlimited : setting.nestingLimit = none) (name : Option String) :
    Responds setting closer piece (.value name) := by
  by_cases hopener : piece.1.closer?.isSome = true
  · refine .opens name hopener rfl ?_
    rintro lexeme rfl parts holes reader hat
    cases hat with
    | @value hole _ hhas hname reports =>
        have hroom : setting.exceeded? (hole :: holes).length = none := by
          simp [Setting.exceeded?, hunlimited]
        have hkind : lexeme.kind = .braceOpen ∨ lexeme.kind = .bracketOpen :=
          Kind.isOpener_iff.mp hopener
        exact ⟨hole, reports, hhas, hname, (Shift.opening hkind hroom).take_eq hstrict⟩
  have hrise : piece.1.rise = 0 := if_neg hopener
  by_cases hmarker : piece.1 = .parameterOpen
  · refine .takes (.parameterName name) [] (by rw [hrise]; rfl) ?_
    rintro lexeme rfl parts holes reader hat
    cases hat with
    | value hhas hname reports =>
        rw [(Shift.parameterOpen hmarker).take_eq hstrict]
        exact .parameterName hhas hname lexeme.toToken reports
  cases hcontent : (Lexeme.ofPiece piece).scalar? with
  | some content =>
      refine .takes .separator (Part.filling name (some (.scalar content))) (by rw [hrise]; rfl) ?_
      rintro lexeme rfl parts holes reader hat
      cases hat with
      | value hhas hname reports =>
          have hscalar : lexeme.scalar? = some content := hcontent
          rw [(Shift.scalar hscalar).take_eq hstrict]
          exact at_deliver_some hhas hname (.scalar lexeme.toToken content) reports
  | none =>
      refine .takes (.skip 0 .separator) (Part.filling name none) (by rw [hrise]; rfl) ?_
      rintro lexeme rfl parts holes reader hat
      cases hat with
      | value hhas hname reports =>
          have hfirst : KindSet.valueFirst.contains lexeme.kind = false := by
            rw [Kind.isOpener_iff, not_or] at hopener
            exact not_valueFirst_of_scalar? hopener.1 hopener.2 hmarker hcontent
          have hcut := Setting.isCutIn_of_strict hstrict lexeme
          rw [(Shift.noValue hcut hrecovery hfirst).take_eq hstrict]
          exact at_deliver_none hhas hname _

theorem turns_skip_of_noProperty (hclosing : closer ≠ .bracketClose)
    (hkind : piece.1 ≠ .string) :
    Turns setting closer piece .part (.skip 0 .separator) [] := by
  rintro lexeme rfl parts holes reader hat
  cases hat with
  | @part container hhas comma reports =>
      cases container with
      | array opener items => exact absurd hhas.closer.symm hclosing
      | object opener members =>
          exact ⟨_, .noProperty (Setting.isCutIn_of_strict hstrict lexeme) hrecovery hkind,
            .skip hhas _⟩

theorem responds_part (hunlimited : setting.nestingLimit = none) :
    Responds setting closer piece .part := by
  by_cases hclosing : closer = .bracketClose
  · refine (responds_value hrecovery hstrict hunlimited none).of_turns ?_ rfl
    rintro lexeme rfl parts holes reader hat
    cases hat with
    | @part container hhas comma reports =>
        cases container with
        | array opener items =>
            have hdiscard : (Hole.item opener items).discard.Has closer parts := hhas
            exact ⟨_, .item hrecovery, .value hdiscard rfl reports⟩
        | object opener members =>
            rw [← hhas.closer] at hclosing
            contradiction
  by_cases hkind : piece.1 = .string
  · refine .takes (.colon (Lexeme.ofPiece piece).string) [] (by rw [hkind]; rfl) ?_
    rintro lexeme rfl parts holes reader hat
    cases hat with
    | @part container hhas comma reports =>
        cases container with
        | array opener items => exact absurd hhas.closer.symm hclosing
        | object opener members =>
            have hname : lexeme.key.text = (Lexeme.ofPiece lexeme.piece).string := rfl
            rw [(Shift.name hkind).take_eq hstrict]
            exact .colon hhas hname reports
  · exact (responds_skip hrecovery hstrict 0 .separator).of_turns
      (turns_skip_of_noProperty hrecovery hstrict hclosing hkind) rfl

theorem responds_separator (hunlimited : setting.nestingLimit = none) :
    Responds setting closer piece .separator := by
  cases hbegins : mayBegin closer piece.1 with
  | true =>
      refine (responds_part hrecovery hstrict hunlimited).of_turns ?_ rfl
      rintro lexeme rfl parts holes reader hat
      cases hat with
      | separator hhas reports =>
          rw [← beginsPart_eq hhas] at hbegins
          exact ⟨_, .missingComma hrecovery hbegins, .part hhas none _⟩
  | false =>
      refine (responds_skip hrecovery hstrict 0 .part).of_turns ?_ rfl
      rintro lexeme rfl parts holes reader hat
      cases hat with
      | separator hhas reports =>
          rw [← beginsPart_eq hhas] at hbegins
          exact ⟨_, .noPart hrecovery hbegins, .skip hhas _⟩

theorem responds_colon (hunlimited : setting.nestingLimit = none) (name : String) :
    Responds setting closer piece (.colon name) := by
  have hopen := Setting.isCutIn_of_strict hstrict
  by_cases hkind : piece.1 = .colon
  · refine .takes (.value (some name)) [] (by rw [hkind]; rfl) ?_
    rintro lexeme rfl parts holes reader hat
    cases hat with
    | @colon opener members key _ hhas hname reports =>
        have hdiscard : (Hole.property opener members key).discard.Has closer parts := hhas
        rw [(Shift.colon hkind).take_eq hstrict]
        exact .value hdiscard (congrArg some hname) reports
  cases hfirst : KindSet.valueFirst.contains piece.1 with
  | true =>
      refine (responds_value hrecovery hstrict hunlimited (some name)).of_turns ?_ rfl
      rintro lexeme rfl parts holes reader hat
      cases hat with
      | @colon opener members key _ hhas hname reports =>
          have hdiscard : (Hole.property opener members key).discard.Has closer parts := hhas
          exact ⟨_, .missingColon (hopen lexeme) hkind hfirst,
            .value hdiscard (congrArg some hname) _⟩
  | false =>
      refine .takes (.skip (0 + piece.1.rise) .separator) [.slot name none] rfl ?_
      refine (takes_skip hrecovery hstrict 0 .separator).of_turns ?_
      rintro lexeme rfl parts holes reader hat
      cases hat with
      | colon hhas hname reports =>
          exact ⟨_, .noPair (hopen lexeme) hkind hfirst,
            .skip (Container.has_bare hhas hname) _⟩

theorem responds_parameterName (name : Option String) :
    Responds setting closer piece (.parameterName name) := by
  by_cases hkind : piece.1 = .identifier
  · refine .takes (.parameterClose name (Lexeme.ofPiece piece).word) [] (by rw [hkind]; rfl) ?_
    rintro lexeme rfl parts holes reader hat
    cases hat with
    | parameterName hhas hname marker reports =>
        rw [(Shift.parameterName hkind).take_eq hstrict]
        exact .parameterClose hhas hname marker reports
  · refine (responds_skipParameter hrecovery hstrict 0 name).of_turns ?_ rfl
    rintro lexeme rfl parts holes reader hat
    cases hat with
    | parameterName hhas hname marker reports =>
        have hcut := Setting.isCutIn_of_strict hstrict lexeme
        exact ⟨_, .noName hcut hkind, .skipParameter hhas hname _⟩

theorem responds_parameterClose (name : Option String) (parameter : String) :
    Responds setting closer piece (.parameterClose name parameter) := by
  by_cases hkind : piece.1 = .parameterClose
  · refine .takes .separator (Part.filling name (some (.scalar (.parameter parameter))))
      (by rw [hkind]; rfl) ?_
    rintro lexeme rfl parts holes reader hat
    cases hat with
    | parameterClose hhas hname marker reports =>
        rw [(Shift.parameterClose hkind).take_eq hstrict]
        exact at_deliver_some hhas hname (.scalar marker (.parameter parameter)) reports
  · refine .takes (.skip (0 + piece.1.rise) .separator) (Part.filling name none) rfl ?_
    refine (takes_skip hrecovery hstrict 0 .separator).of_turns ?_
    rintro lexeme rfl parts holes reader hat
    cases hat with
    | parameterClose hhas hname marker reports =>
        have hcut := Setting.isCutInMarker_of_strict hstrict lexeme
        exact ⟨_, .noMarker hcut hkind, at_deliver_none hhas hname _⟩

/-- Whatever the stage is, all tokens of a kind and a text do the same there. -/
theorem responds (hunlimited : setting.nestingLimit = none) (stage : Stage) :
    Responds setting closer piece stage := by
  cases stage with
  | part => exact responds_part hrecovery hstrict hunlimited
  | separator => exact responds_separator hrecovery hstrict hunlimited
  | skip depth next => exact responds_skip hrecovery hstrict depth next
  | colon name => exact responds_colon hrecovery hstrict hunlimited name
  | value name => exact responds_value hrecovery hstrict hunlimited name
  | parameterName name => exact responds_parameterName hrecovery hstrict name
  | parameterClose name parameter =>
      exact responds_parameterClose hrecovery hstrict name parameter
  | skipParameter depth name => exact responds_skipParameter hrecovery hstrict depth name

end

/-! ### Commas and closing brackets -/

variable {stage : Stage} {depth : Nat}

/-- A token inside brackets of a broken part is passed, whatever it is. -/
theorem exists_takes_inside (hstrict : setting.allowsFragments = false)
    (hdepth : stage.depth = depth + 1) {after : Nat}
    (hpass : ∀ lexeme : Lexeme, lexeme.piece = piece → Reader.pass lexeme (depth + 1) = after) :
    ∃ next : Stage, next.depth = after ∧ Takes setting closer piece stage next [] := by
  have hgoes : ∀ prop : Prop, ¬(depth + 1 = 0 ∧ prop) := fun _ hzero => Nat.succ_ne_zero _ hzero.1
  cases stage with
  | skip depth next =>
      obtain rfl := hdepth
      refine ⟨.skip after next, rfl, ?_⟩
      rintro lexeme rfl parts holes reader hat
      cases hat with
      | skip hhas reports =>
          rw [(Shift.pass (hgoes _)).take_eq hstrict, hpass lexeme rfl]
          exact .skip hhas reports
  | skipParameter depth name =>
      obtain rfl := hdepth
      refine ⟨.skipParameter after name, rfl, ?_⟩
      rintro lexeme rfl parts holes reader hat
      cases hat with
      | skipParameter hhas hname reports =>
          rw [(Shift.passParameter (hgoes _)).take_eq hstrict, hpass lexeme rfl]
          exact .skipParameter hhas hname reports
  | _ => contradiction

/-- A comma or a closing bracket after a part is taken after the lack of a value. -/
theorem exists_take_of_lack {lexeme : Lexeme} {hole : Hole} {name : Option String}
    {parts : List Part} (hrecovery : KindSet.valueRecovery.contains lexeme.kind = true)
    (hhas : hole.discard.Has closer parts) (hname : hole.name? = name) (holes : List Hole)
    (reports : List Diagnostic) :
    ∃ container : Container, container.Has closer (Part.filling name none ++ parts) ∧
      take setting (deliver none (hole :: holes) reports) lexeme =
        take setting ⟨.separator container, holes, reports⟩ lexeme := by
  subst hname
  exact ⟨hole.fill none, Hole.has_fill hhas none, (Turn.resume hrecovery).take_eq⟩

/-- Where a part may end, a reader takes a comma or a closing bracket as one after the part or
before the next one. -/
theorem exists_take_eq (hstrict : setting.allowsFragments = false) (hdepth : stage.depth = 0)
    {lexeme : Lexeme} (hrecovery : KindSet.valueRecovery.contains lexeme.kind = true)
    {parts : List Part} {holes : List Hole} {reader : Reader}
    (hat : At closer parts holes stage reader) :
    ∃ container : Container, container.Has closer (stage.rest ++ parts) ∧
      ((∃ reports, reader.take setting lexeme =
          take setting ⟨.separator container, holes, reports⟩ lexeme) ∨
        ∃ comma reports, reader.take setting lexeme =
          take setting ⟨.part container comma, holes, reports⟩ lexeme) := by
  have hcut := Setting.isCutIn_of_strict hstrict lexeme
  have hfirst : KindSet.valueFirst.contains lexeme.kind = false := by
    by_contra hbegins
    rw [KindSet.valueRecovery_of_valueFirst (Bool.eq_true_of_not_eq_false hbegins)] at hrecovery
    contradiction
  have hother {kind : Kind} (hkind : KindSet.valueRecovery.contains kind = false) :
      lexeme.kind ≠ kind := by
    rintro rfl
    rw [hkind] at hrecovery
    contradiction
  cases hat with
  | part hhas comma reports => exact ⟨_, hhas, Or.inr ⟨comma, reports, rfl⟩⟩
  | separator hhas reports => exact ⟨_, hhas, Or.inl ⟨reports, rfl⟩⟩
  | @skip container _ next hhas reports =>
      obtain rfl := hdepth
      cases next with
      | separator => exact ⟨_, hhas, Or.inl ⟨reports, (Turn.resume hrecovery).take_eq⟩⟩
      | part => exact ⟨_, hhas, Or.inr ⟨none, reports, (Turn.resumePart hrecovery).take_eq⟩⟩
  | @colon opener members key _ hhas hname reports =>
      have hcolon : lexeme.kind ≠ .colon := hother (by decide)
      exact ⟨_, Container.has_bare hhas hname, Or.inl ⟨_,
        (Turn.noPair hcut hcolon hfirst).take_eq.trans (Turn.resume hrecovery).take_eq⟩⟩
  | value hhas hname reports =>
      obtain ⟨container, hafter, htake⟩ := exists_take_of_lack hrecovery hhas hname holes _
      exact ⟨container, hafter, Or.inl ⟨_, (Turn.missingValue hrecovery).take_eq.trans htake⟩⟩
  | parameterName hhas hname marker reports =>
      obtain ⟨container, hafter, htake⟩ := exists_take_of_lack hrecovery hhas hname holes _
      have hidentifier : lexeme.kind ≠ .identifier := hother (by decide)
      exact ⟨container, hafter, Or.inl ⟨_, (Turn.noName hcut hidentifier).take_eq.trans
        ((Turn.resumeParameter hrecovery).take_eq.trans htake)⟩⟩
  | parameterClose hhas hname marker reports =>
      obtain ⟨container, hafter, htake⟩ := exists_take_of_lack hrecovery hhas hname holes _
      have hopen := Setting.isCutInMarker_of_strict hstrict lexeme
      have hmarker : lexeme.kind ≠ .parameterClose := hother (by decide)
      exact ⟨container, hafter, Or.inl ⟨_, (Turn.noMarker hopen hmarker).take_eq.trans htake⟩⟩
  | skipParameter hhas hname reports =>
      obtain rfl := hdepth
      obtain ⟨container, hafter, htake⟩ := exists_take_of_lack hrecovery hhas hname holes _
      exact ⟨container, hafter, Or.inl ⟨_, (Turn.resumeParameter hrecovery).take_eq.trans htake⟩⟩

theorem takes_comma (hstrict : setting.allowsFragments = false) (hdepth : stage.depth = 0)
    (hkind : piece.1 = .comma) : Takes setting closer piece stage .part stage.rest := by
  rintro lexeme rfl parts holes reader hat
  have hcomma : lexeme.kind = .comma := hkind
  have hrecovery : KindSet.valueRecovery.contains lexeme.kind = true := by rw [hcomma]; rfl
  obtain ⟨container, hhas, ⟨reports, htake⟩ | ⟨comma, reports, htake⟩⟩ :=
    exists_take_eq hstrict hdepth hrecovery hat
  · rw [htake, (Shift.comma hcomma).take_eq hstrict]
    exact .part hhas _ reports
  · rw [htake, (Shift.extraComma hcomma).take_eq hstrict]
    exact .part hhas _ _

/-- The closing bracket of a container ends it where a part may end. -/
theorem exists_take_closer (hstrict : setting.allowsFragments = false) (hdepth : stage.depth = 0)
    (hcloser : KindSet.valueRecovery.contains closer = true) {lexeme : Lexeme}
    (hkind : lexeme.kind = closer) {parts : List Part} {holes : List Hole} {reader : Reader}
    (hat : At closer parts holes stage reader) :
    ∃ (container : Container) (reports : List Diagnostic),
      container.Has closer (stage.rest ++ parts) ∧
        reader.take setting lexeme = deliver (some container.value) holes reports := by
  rw [← hkind] at hcloser
  obtain ⟨container, hhas, ⟨reports, htake⟩ | ⟨comma, reports, htake⟩⟩ :=
    exists_take_eq hstrict hdepth hcloser hat
  · have hown : lexeme.kind = container.closer := hkind.trans hhas.closer.symm
    exact ⟨container, _, hhas, htake.trans ((Shift.close hown).take_eq hstrict)⟩
  · have hown : lexeme.kind = container.closer := hkind.trans hhas.closer.symm
    exact ⟨container, _, hhas, htake.trans ((Shift.closePart hown).take_eq hstrict)⟩

end Stage

end QueryBody
