import QueryBody.Proofs.Acceptance
import QueryBody.Value.Tree
import Mathlib.Tactic

/-!
# Tokens at other places

A body that must be complete is read by the kinds and the texts of its tokens.  The places
of tokens are only compared, to see whether two reports are at one place.  So a reader
that takes the same tokens at other places does the same there.
-/

namespace QueryBody

/-- Other places for all spans, where two spans begin together if and only if they did. -/
structure Relocation where
  span : Span → Span
  start_eq_iff : ∀ first second : Span,
    (span first).start = (span second).start ↔ first.start = second.start

variable (relocation : Relocation)

def Token.relocate (token : Token) : Token := ⟨token.kind, relocation.span token.span⟩

def Lexeme.relocate (lexeme : Lexeme) : Lexeme := ⟨lexeme.toToken.relocate relocation, lexeme.text⟩

def Key.relocate (key : Key) : Key := ⟨key.token.relocate relocation, key.text⟩

namespace Value

mutual

/-- The value with its tokens at other places. -/
def relocate : Value → Value
  | scalar token content => scalar (token.relocate relocation) content
  | array opener items => array (opener.relocate relocation) (relocateItems items)
  | object opener members => object (opener.relocate relocation) (relocateMembers members)

def relocateItems : List Value → List Value
  | [] => []
  | item :: rest => relocate item :: relocateItems rest

def relocateMembers : List Member → List Member
  | [] => []
  | .bare key :: rest => .bare (key.relocate relocation) :: relocateMembers rest
  | .pair key value :: rest =>
      .pair (key.relocate relocation) (relocate value) :: relocateMembers rest

end

end Value

namespace Member

def relocate : Member → Member
  | bare key => bare (key.relocate relocation)
  | pair key value => pair (key.relocate relocation) (value.relocate relocation)

@[simp] theorem relocate_of (key : Key) (value : Option Value) :
    (of key value).relocate relocation =
      of (key.relocate relocation) (value.map (Value.relocate relocation)) := by
  cases value <;> rfl

end Member

namespace Value

theorem relocateItems_eq_map (items : List Value) :
    relocateItems relocation items = items.map (relocate relocation) := by
  induction items with
  | nil => rfl
  | cons item rest ih => rw [relocateItems, ih, List.map_cons]

theorem relocateMembers_eq_map (members : List Member) :
    relocateMembers relocation members = members.map (Member.relocate relocation) := by
  induction members with
  | nil => rfl
  | cons member rest ih => cases member <;> rw [relocateMembers, ih, List.map_cons] <;> rfl

end Value

namespace Container

def relocate : Container → Container
  | array opener items => array (opener.relocate relocation) (items.map (Value.relocate relocation))
  | object opener members =>
      object (opener.relocate relocation) (members.map (Member.relocate relocation))

@[simp] theorem closer_relocate (container : Container) :
    (container.relocate relocation).closer = container.closer := by
  cases container <;> rfl

@[simp] theorem relocate_value (container : Container) :
    container.value.relocate relocation = (container.relocate relocation).value := by
  cases container <;>
    simp [value, relocate, Value.relocate, Value.relocateItems_eq_map,
      Value.relocateMembers_eq_map]

@[simp] theorem relocate_ofOpener (opener : Token) :
    (ofOpener opener).relocate relocation = ofOpener (opener.relocate relocation) := by
  by_cases hkind : opener.kind = .braceOpen <;> simp [ofOpener, Token.relocate, hkind, relocate]

end Container

namespace Hole

def relocate : Hole → Hole
  | item opener items => item (opener.relocate relocation) (items.map (Value.relocate relocation))
  | property opener members key =>
      property (opener.relocate relocation) (members.map (Member.relocate relocation))
        (key.relocate relocation)

@[simp] theorem relocate_fill (hole : Hole) (value : Option Value) :
    (hole.fill value).relocate relocation =
      (hole.relocate relocation).fill (value.map (Value.relocate relocation)) := by
  cases hole <;> cases value <;> simp [fill, relocate, Container.relocate]

end Hole

@[simp] theorem Container.relocate_enclose (container : Container) (holes : List Hole) :
    (container.enclose holes).relocate relocation =
      (container.relocate relocation).enclose (holes.map (Hole.relocate relocation)) := by
  induction holes generalizing container with
  | nil => simp [enclose]
  | cons hole rest ih => simp [enclose, ih]

@[simp] theorem Hole.map_relocate_abandon (holes : List Hole) :
    (abandon holes).map (Value.relocate relocation) =
      abandon (holes.map (Hole.relocate relocation)) := by
  cases holes <;> simp [abandon]

/-! ### Tokens and reports -/

namespace Lexeme

variable (lexeme : Lexeme)

@[simp] theorem toToken_relocate :
    (lexeme.relocate relocation).toToken = lexeme.toToken.relocate relocation := rfl

@[simp] theorem word_relocate : (lexeme.relocate relocation).word = lexeme.word := rfl

@[simp] theorem scalar?_relocate : (lexeme.relocate relocation).scalar? = lexeme.scalar? := rfl

@[simp] theorem relocate_key : lexeme.key.relocate relocation = (lexeme.relocate relocation).key :=
  rfl

end Lexeme

@[simp] theorem Token.kind_relocate (token : Token) :
    (token.relocate relocation).kind = token.kind := rfl

def Related.relocate (related : Related) : Related :=
  ⟨related.message, relocation.span related.span⟩

def Diagnostic.relocate (diagnostic : Diagnostic) : Diagnostic :=
  { diagnostic with
    span := relocation.span diagnostic.span
    token := diagnostic.token.map (Token.relocate relocation)
    related := diagnostic.related.map (Related.relocate relocation) }

namespace Report

@[simp] theorem relocate_add (diagnostic : Diagnostic) (reports : List Diagnostic) :
    (add diagnostic reports).map (Diagnostic.relocate relocation) =
      add (diagnostic.relocate relocation) (reports.map (Diagnostic.relocate relocation)) := by
  cases reports with
  | nil => rfl
  | cons latest rest =>
      have hplace : (latest.relocate relocation).offset = (diagnostic.relocate relocation).offset ↔
          latest.offset = diagnostic.offset := relocation.start_eq_iff _ _
      by_cases hsame : latest.offset = diagnostic.offset <;> simp [add, hplace, hsame]

variable (lexeme : Lexeme)

open Lexeme

@[simp] theorem relocate_instead (problem : Problem) :
    (instead problem lexeme).relocate relocation =
      instead problem (lexeme.relocate relocation) := rfl

@[simp] theorem relocate_noValue :
    (noValue lexeme).relocate relocation = noValue (lexeme.relocate relocation) := by
  have hdetail : escapeDetail? (lexeme.relocate relocation) = escapeDetail? lexeme := rfl
  unfold noValue
  simp only [toToken_relocate, Token.kind_relocate]
  split <;> first | rfl | (simp only [hdetail]; split <;> rfl)

@[simp] theorem relocate_noProperty :
    (noProperty lexeme).relocate relocation = noProperty (lexeme.relocate relocation) := by
  by_cases hkind : lexeme.kind.isLexicalError = true <;> simp [noProperty, hkind]

@[simp] theorem relocate_tooDeep (limit : Nat) :
    (tooDeep limit lexeme).relocate relocation = tooDeep limit (lexeme.relocate relocation) := rfl

@[simp] theorem relocate_trailingComma (comma : Token) :
    (trailingComma comma).relocate relocation = trailingComma (comma.relocate relocation) := rfl

@[simp] theorem relocate_mismatched (container : Container) :
    (mismatched container lexeme).relocate relocation =
      mismatched (container.relocate relocation) (lexeme.relocate relocation) := by
  cases container <;> rfl

@[simp] theorem relocate_noPart (container : Container) :
    (noPart container lexeme).relocate relocation =
      noPart (container.relocate relocation) (lexeme.relocate relocation) := by
  cases container <;> rfl

end Report

/-! ### A reader at other places -/

def Focus.relocate : Focus → Focus
  | .value => .value
  | .part container comma =>
      .part (container.relocate relocation) (comma.map (Token.relocate relocation))
  | .separator container => .separator (container.relocate relocation)
  | .colon opener members key =>
      .colon (opener.relocate relocation) (members.map (Member.relocate relocation))
        (key.relocate relocation)
  | .parameterName marker => .parameterName (marker.relocate relocation)
  | .parameterClose marker name => .parameterClose (marker.relocate relocation) name
  | .skip depth container next => .skip depth (container.relocate relocation) next
  | .skipParameter depth => .skipParameter depth
  | .finished root => .finished (root.map (Value.relocate relocation))
  | .stopped root isCut => .stopped (root.map (Value.relocate relocation)) isCut

namespace Reader

def relocate (reader : Reader) : Reader :=
  ⟨reader.focus.relocate relocation, reader.holes.map (Hole.relocate relocation),
    reader.reports.map (Diagnostic.relocate relocation)⟩

@[simp] theorem relocate_mk (focus : Focus) (holes : List Hole) (reports : List Diagnostic) :
    relocate relocation ⟨focus, holes, reports⟩ =
      ⟨focus.relocate relocation, holes.map (Hole.relocate relocation),
        reports.map (Diagnostic.relocate relocation)⟩ := rfl

variable (lexeme : Lexeme) (container : Container) (holes : List Hole)
  (reports : List Diagnostic)

@[simp] theorem relocate_deliver (value : Option Value) :
    (deliver value holes reports).relocate relocation =
      deliver (value.map (Value.relocate relocation)) (holes.map (Hole.relocate relocation))
        (reports.map (Diagnostic.relocate relocation)) := by
  cases holes <;> cases value <;> simp [deliver, Focus.relocate]

@[simp] theorem relocate_excess (root : Option Value) :
    (excess lexeme root reports).relocate relocation =
      excess (lexeme.relocate relocation) (root.map (Value.relocate relocation))
        (reports.map (Diagnostic.relocate relocation)) := by
  simp [excess, Focus.relocate]

@[simp] theorem map_relocate_reportComma (comma : Option Token) :
    (reportComma comma reports).map (Diagnostic.relocate relocation) =
      reportComma (comma.map (Token.relocate relocation))
        (reports.map (Diagnostic.relocate relocation)) := by
  cases comma <;> simp [reportComma]

@[simp] theorem relocate_close (comma : Option Token) :
    (close lexeme container comma reports holes).relocate relocation =
      close (lexeme.relocate relocation) (container.relocate relocation)
        (comma.map (Token.relocate relocation)) (reports.map (Diagnostic.relocate relocation))
        (holes.map (Hole.relocate relocation)) := by
  induction holes generalizing container comma reports with
  | nil => by_cases hkind : lexeme.kind = container.closer <;> simp [close, hkind]
  | cons hole rest ih =>
      rw [List.map_cons, close, close]
      by_cases hkind : lexeme.kind = container.closer <;> simp [hkind, ih]

@[simp] theorem relocate_endPart :
    (endPart lexeme container holes reports).relocate relocation =
      endPart (lexeme.relocate relocation) (container.relocate relocation)
        (holes.map (Hole.relocate relocation)) (reports.map (Diagnostic.relocate relocation)) := by
  by_cases hkind : lexeme.kind = .comma <;> simp [endPart, hkind, Focus.relocate]

@[simp] theorem relocate_emptyPart (comma : Option Token) :
    (emptyPart lexeme container comma holes reports).relocate relocation =
      emptyPart (lexeme.relocate relocation) (container.relocate relocation)
        (comma.map (Token.relocate relocation)) (holes.map (Hole.relocate relocation))
        (reports.map (Diagnostic.relocate relocation)) := by
  by_cases hkind : lexeme.kind = .comma <;> simp [emptyPart, hkind, Focus.relocate]

@[simp] theorem pass_relocate (depth : Nat) : pass (lexeme.relocate relocation) depth =
    pass lexeme depth := rfl

@[simp] theorem relocate_skip (depth : Nat) (next : Resumption) :
    (skip lexeme depth container next holes reports).relocate relocation =
      skip (lexeme.relocate relocation) depth (container.relocate relocation) next
        (holes.map (Hole.relocate relocation)) (reports.map (Diagnostic.relocate relocation)) := by
  by_cases hends : depth = 0 ∧ KindSet.valueRecovery.contains lexeme.kind = true <;>
    cases next <;> simp [skip, hends, Focus.relocate]

@[simp] theorem relocate_giveUp :
    (giveUp lexeme holes reports).relocate relocation =
      giveUp (lexeme.relocate relocation) (holes.map (Hole.relocate relocation))
        (reports.map (Diagnostic.relocate relocation)) := by
  cases holes <;> simp [giveUp]

@[simp] theorem relocate_skipParameter (depth : Nat) :
    (skipParameter lexeme depth holes reports).relocate relocation =
      skipParameter (lexeme.relocate relocation) depth (holes.map (Hole.relocate relocation))
        (reports.map (Diagnostic.relocate relocation)) := by
  cases depth with
  | succ depth => simp [skipParameter, Focus.relocate]
  | zero =>
      by_cases hmarker : lexeme.kind = .parameterClose
      · have hends : KindSet.parameterRecovery.contains .parameterClose = true := by decide
        simp [skipParameter, hmarker, hends]
      · by_cases hends : KindSet.parameterRecovery.contains lexeme.kind = true <;>
          simp [skipParameter, hmarker, hends, Focus.relocate]

variable (setting : Setting)

@[simp] theorem relocate_openContainer :
    (openContainer setting lexeme holes reports).relocate relocation =
      openContainer setting (lexeme.relocate relocation) (holes.map (Hole.relocate relocation))
        (reports.map (Diagnostic.relocate relocation)) := by
  cases hexceeded : setting.exceeded? holes.length <;>
    simp [openContainer, hexceeded, Focus.relocate]

variable {setting} (hstrict : setting.allowsFragments = false)

include hstrict

theorem relocate_value :
    (value setting lexeme holes reports).relocate relocation =
      value setting (lexeme.relocate relocation) (holes.map (Hole.relocate relocation))
        (reports.map (Diagnostic.relocate relocation)) := by
  by_cases hrecovery : KindSet.valueRecovery.contains lexeme.kind = true
  · simp [value, Setting.isCutIn_of_strict hstrict, hrecovery]
  · cases hscalar : lexeme.scalar? <;>
      simp only [value, Setting.isCutIn_of_strict hstrict, Lexeme.toToken_relocate,
        Token.kind_relocate, Lexeme.scalar?_relocate, hrecovery, hscalar, Bool.false_eq_true,
        if_false] <;>
      split <;> simp [Focus.relocate, Value.relocate]

theorem relocate_property (opener : Token) (members : List Member) :
    (property setting lexeme opener members holes reports).relocate relocation =
      property setting (lexeme.relocate relocation) (opener.relocate relocation)
        (members.map (Member.relocate relocation)) (holes.map (Hole.relocate relocation))
        (reports.map (Diagnostic.relocate relocation)) := by
  by_cases hkind : lexeme.kind = .string <;>
    simp [property, Setting.isCutIn_of_strict hstrict, hkind, Focus.relocate, Container.relocate]

theorem relocate_part (comma : Option Token) :
    (part setting lexeme container comma holes reports).relocate relocation =
      part setting (lexeme.relocate relocation) (container.relocate relocation)
        (comma.map (Token.relocate relocation)) (holes.map (Hole.relocate relocation))
        (reports.map (Diagnostic.relocate relocation)) := by
  by_cases hrecovery : KindSet.valueRecovery.contains lexeme.kind = true
  · simp [part, hrecovery]
  · cases container <;>
      simp [part, hrecovery, Container.relocate, relocate_value relocation _ _ _ hstrict,
        relocate_property relocation _ _ _ hstrict, Hole.relocate]

omit hstrict in
@[simp] theorem beginsPart_relocate (kind : Kind) :
    beginsPart (container.relocate relocation) kind = beginsPart container kind := by
  cases container <;> rfl

theorem relocate_separator :
    (separator setting lexeme container holes reports).relocate relocation =
      separator setting (lexeme.relocate relocation) (container.relocate relocation)
        (holes.map (Hole.relocate relocation)) (reports.map (Diagnostic.relocate relocation)) := by
  by_cases hrecovery : KindSet.valueRecovery.contains lexeme.kind = true
  · simp [separator, hrecovery]
  · by_cases hbegins : beginsPart container lexeme.kind = true <;>
      simp [separator, hrecovery, hbegins, relocate_part relocation _ _ _ _ hstrict]

theorem relocate_colon (opener : Token) (members : List Member) (key : Key) :
    (colon setting lexeme opener members key holes reports).relocate relocation =
      colon setting (lexeme.relocate relocation) (opener.relocate relocation)
        (members.map (Member.relocate relocation)) (key.relocate relocation)
        (holes.map (Hole.relocate relocation)) (reports.map (Diagnostic.relocate relocation)) := by
  by_cases hcolon : lexeme.kind = .colon
  · simp [colon, Setting.isCutIn_of_strict hstrict, hcolon, Focus.relocate, Hole.relocate]
  · by_cases hfirst : KindSet.valueFirst.contains lexeme.kind = true <;>
      simp [colon, Setting.isCutIn_of_strict hstrict, hcolon, hfirst, Hole.relocate,
        Container.relocate, Member.relocate, relocate_value relocation _ _ _ hstrict]

theorem relocate_parameterName (marker : Token) :
    (parameterName setting lexeme marker holes reports).relocate relocation =
      parameterName setting (lexeme.relocate relocation) (marker.relocate relocation)
        (holes.map (Hole.relocate relocation)) (reports.map (Diagnostic.relocate relocation)) := by
  by_cases hname : lexeme.kind = .identifier <;>
    simp [parameterName, Setting.isCutIn_of_strict hstrict, hname, Focus.relocate]

theorem relocate_parameterClose (marker : Token) (name : String) :
    (parameterClose setting lexeme marker name holes reports).relocate relocation =
      parameterClose setting (lexeme.relocate relocation) (marker.relocate relocation) name
        (holes.map (Hole.relocate relocation)) (reports.map (Diagnostic.relocate relocation)) := by
  by_cases hmarker : lexeme.kind = .parameterClose <;>
    simp [parameterClose, Setting.isCutInMarker_of_strict hstrict, hmarker, Value.relocate]

/-- A reader takes a token at another place as it takes it where it is. -/
theorem relocate_take (reader : Reader) :
    (reader.take setting lexeme).relocate relocation =
      (reader.relocate relocation).take setting (lexeme.relocate relocation) := by
  obtain ⟨focus, holes, reports⟩ := reader
  cases focus with
  | value => exact relocate_value relocation lexeme holes reports hstrict
  | part container comma => exact relocate_part relocation lexeme _ holes reports hstrict comma
  | separator container => exact relocate_separator relocation lexeme _ holes reports hstrict
  | colon opener members key =>
      exact relocate_colon relocation lexeme holes reports hstrict opener members key
  | parameterName marker =>
      exact relocate_parameterName relocation lexeme holes reports hstrict marker
  | parameterClose marker name =>
      exact relocate_parameterClose relocation lexeme holes reports hstrict marker name
  | skip depth container next => exact relocate_skip relocation lexeme _ holes reports depth next
  | skipParameter depth => exact relocate_skipParameter relocation lexeme holes reports depth
  | finished root => simp [take, Setting.isCutIn_of_strict hstrict, Focus.relocate]
  | stopped root isCut => rfl

theorem relocate_run {lexemes : List Lexeme}
    (hgrammar : ∀ lexeme ∈ lexemes, lexeme.kind.isTrivia = false) (reader : Reader) :
    (reader.run setting lexemes).relocate relocation =
      (reader.relocate relocation).run setting (lexemes.map (Lexeme.relocate relocation)) := by
  induction lexemes generalizing reader with
  | nil => rfl
  | cons lexeme rest ih =>
      have hstep : (reader.step setting lexeme).relocate relocation =
          (reader.relocate relocation).step setting (lexeme.relocate relocation) := by
        have hkind : lexeme.kind.isTrivia = false := hgrammar lexeme List.mem_cons_self
        simp [step, hkind, relocate_take relocation lexeme hstrict]
      rw [List.map_cons, run_cons, run_cons, ← hstep]
      exact ih (fun later hlater => hgrammar later (List.mem_cons_of_mem lexeme hlater)) _

def Outcome.relocate (outcome : Outcome) : Outcome :=
  ⟨outcome.root.map (Value.relocate relocation),
    outcome.reports.map (Diagnostic.relocate relocation), outcome.isCut⟩

variable {size : Nat} (hend : relocation.span (.point setting.size) = .point size)

include hend

theorem relocate_endIn :
    (endIn setting container holes reports).relocate relocation =
      endIn { setting with size := size } (container.relocate relocation)
        (holes.map (Hole.relocate relocation)) (reports.map (Diagnostic.relocate relocation)) := by
  have hunclosed : (Report.unclosed container setting.size).relocate relocation =
      Report.unclosed (container.relocate relocation) size := by
    cases container <;>
      simp [Report.unclosed, Report.started, Report.missing, Diagnostic.atEnd, Diagnostic.plain,
        Diagnostic.withDetail, Diagnostic.relatedTo, Diagnostic.relocate, Related.relocate, hend,
        Container.relocate, Container.opener, Token.relocate]
  simp [endIn, hstrict, Outcome.relocate, hunclosed]

theorem relocate_endWithout :
    (endWithout setting holes reports).relocate relocation =
      endWithout { setting with size := size } (holes.map (Hole.relocate relocation))
        (reports.map (Diagnostic.relocate relocation)) := by
  cases holes with
  | nil => rfl
  | cons hole rest => simp [endWithout, relocate_endIn relocation _ _ _ hstrict hend]

omit hstrict in
/-- A report at the end of the body is at its end also at other places. -/
theorem relocate_missing (problem : Problem) :
    (Report.missing problem setting.size).relocate relocation = Report.missing problem size := by
  simp [Report.missing, Diagnostic.atEnd, Diagnostic.plain, Diagnostic.withDetail,
    Diagnostic.relocate, hend]

theorem relocate_endBefore {diagnostic moved : Diagnostic}
    (hmoved : diagnostic.relocate relocation = moved) :
    (endBefore setting diagnostic holes reports).relocate relocation =
      endBefore { setting with size := size } moved (holes.map (Hole.relocate relocation))
        (reports.map (Diagnostic.relocate relocation)) := by
  simp [endBefore, hstrict, relocate_endWithout relocation _ _ hstrict hend, hmoved]

/-- What a run comes to at the end of the body does not depend on the places either. -/
theorem relocate_finish (isGroup : Bool) (reader : Reader) :
    (reader.finish setting isGroup).relocate relocation =
      (reader.relocate relocation).finish { setting with size := size } isGroup := by
  have hmissing := relocate_missing relocation hend
  have hunexpected : (Diagnostic.atEnd .unexpectedEnd setting.size).relocate relocation =
      .atEnd .unexpectedEnd size := by
    simp [Diagnostic.atEnd, Diagnostic.plain, Diagnostic.relocate, hend]
  obtain ⟨focus, holes, reports⟩ := reader
  cases focus with
  | value =>
      cases holes with
      | nil => cases isGroup <;> simp [finish, Outcome.relocate, Focus.relocate, hmissing]
      | cons hole rest =>
          exact relocate_endBefore relocation (hole :: rest) reports hstrict hend hunexpected
  | part container comma => exact relocate_endIn relocation container holes reports hstrict hend
  | separator container => exact relocate_endIn relocation container holes reports hstrict hend
  | colon opener members key =>
      have hin := relocate_endIn relocation (.object opener (.bare key :: members)) holes
        (Report.add (Report.missing .expectedColon setting.size) reports) hstrict hend
      simpa [finish, endAfterName, hstrict, Focus.relocate, Container.relocate, Member.relocate,
        hmissing] using hin
  | parameterName marker =>
      exact relocate_endBefore relocation holes reports hstrict hend (hmissing _)
  | parameterClose marker name =>
      exact relocate_endBefore relocation holes reports hstrict hend (hmissing _)
  | skip depth container next =>
      exact relocate_endIn relocation container holes reports hstrict hend
  | skipParameter depth => exact relocate_endWithout relocation holes reports hstrict hend
  | finished root => rfl
  | stopped root isCut => rfl

end Reader

/-! ### The tree at other places -/

namespace Value

mutual

@[simp] theorem size_relocate : ∀ value : Value, (value.relocate relocation).size = value.size
  | scalar _ _ => rfl
  | array _ items => by rw [relocate, size, size, itemsSize_relocate items]
  | object _ members => by rw [relocate, size, size, membersSize_relocate members]

theorem itemsSize_relocate :
    ∀ items : List Value, itemsSize (relocateItems relocation items) = itemsSize items
  | [] => rfl
  | item :: rest => by
      rw [relocateItems, itemsSize, itemsSize, size_relocate item, itemsSize_relocate rest]

theorem membersSize_relocate :
    ∀ members : List Member,
      membersSize (relocateMembers relocation members) = membersSize members
  | [] => rfl
  | .bare _ :: rest => by
      rw [relocateMembers, membersSize, membersSize, membersSize_relocate rest]
  | .pair _ value :: rest => by
      rw [relocateMembers, membersSize, membersSize, size_relocate value,
        membersSize_relocate rest]

end

theorem itemIds_relocate (next : Nat) (items : List Value) :
    itemIds next (relocateItems relocation items) = itemIds next items := by
  induction items generalizing next with
  | nil => rfl
  | cons item rest ih => rw [relocateItems, itemIds, itemIds, ih, size_relocate]

theorem memberIds_relocate (next : Nat) (members : List Member) :
    memberIds next (relocateMembers relocation members) = memberIds next members := by
  induction members generalizing next with
  | nil => rfl
  | cons member rest ih =>
      cases member <;> simp [relocateMembers, memberIds, ih, Key.relocate]

@[simp] theorem token_relocate (value : Value) :
    (value.relocate relocation).token = value.token.relocate relocation := by
  cases value <;> rfl

end Value

def Place.relocate (place : Place) : Place :=
  { place with value := place.value.relocate relocation }

/-- What a place holds is numbers and scalars, so it is the same at other places. -/
theorem Place.content_relocate (place : Place) :
    (place.relocate relocation).content = place.content := by
  obtain ⟨id, parent, value⟩ := place
  cases value with
  | scalar token content => rfl
  | array opener items =>
      simp only [relocate, Value.relocate, content, Value.itemIds_relocate]
  | object opener members =>
      simp only [relocate, Value.relocate, content, Value.memberIds_relocate]

namespace Value

mutual

theorem places_relocate (parent : Option Nat) (id : Nat) :
    ∀ value : Value, places parent id (value.relocate relocation) =
      (places parent id value).map (Place.relocate relocation)
  | scalar _ _ => rfl
  | array _ items => by
      rw [relocate, places, places, List.map_cons, itemPlaces_relocate id (id + 1) items]
      rfl
  | object _ members => by
      rw [relocate, places, places, List.map_cons, memberPlaces_relocate id (id + 1) members]
      rfl

theorem itemPlaces_relocate (parent next : Nat) :
    ∀ items : List Value, itemPlaces parent next (relocateItems relocation items) =
      (itemPlaces parent next items).map (Place.relocate relocation)
  | [] => rfl
  | item :: rest => by
      rw [relocateItems, itemPlaces, itemPlaces, List.map_append,
        places_relocate (some parent) next item, size_relocate,
        itemPlaces_relocate parent (next + item.size) rest]

theorem memberPlaces_relocate (parent next : Nat) :
    ∀ members : List Member, memberPlaces parent next (relocateMembers relocation members) =
      (memberPlaces parent next members).map (Place.relocate relocation)
  | [] => rfl
  | .bare _ :: rest => by
      rw [relocateMembers, memberPlaces, memberPlaces, List.map_cons,
        memberPlaces_relocate parent (next + 1) rest]
      rfl
  | .pair _ value :: rest => by
      rw [relocateMembers, memberPlaces, memberPlaces, List.map_append, List.map_cons,
        places_relocate (some parent) (next + 1) value, size_relocate,
        memberPlaces_relocate parent (next + 1 + value.size) rest]
      rfl

end

end Value

theorem Tree.places_relocate (root : Option Value) :
    (⟨root.map (Value.relocate relocation)⟩ : Tree).places =
      (⟨root⟩ : Tree).places.map (Place.relocate relocation) := by
  cases root with
  | none => rfl
  | some value => exact Value.places_relocate relocation none 0 value

end QueryBody
