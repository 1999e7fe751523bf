import QueryBody.Parser.Meaning
import QueryBody.Parser.Report
import QueryBody.Token.KindSet

/-!
# Reading tokens

A reader takes the tokens of a body one by one.  Its focus says what it expects
next; the containers around the focus wait in a stack of holes.  Every token is
taken exactly once, so there is nothing to run out of and no place to get stuck.

After a mistake the reader skips to the next comma or closing bracket outside the
brackets it meets on the way, and goes on there.
-/

namespace QueryBody

/-- What a run depends on besides its tokens. -/
structure Setting where
  allowsFragments : Bool
  nestingLimit : Option Nat
  /-- The size of the body. -/
  size : Nat
  deriving DecidableEq, Repr

/-- Where reading goes on after a skip. -/
inductive Resumption
  | separator
  | part
  deriving DecidableEq, Repr

/-- What a reader expects. -/
inductive Focus
  /-- A value for the innermost hole, or the root. -/
  | value
  /-- A part of a container, or its end; the comma before it, if there is one. -/
  | part (container : Container) (comma : Option Token)
  /-- The comma after a part, or the end of the container. -/
  | separator (container : Container)
  /-- The colon after a property name. -/
  | colon (opener : Token) (members : List Member) (key : Key)
  | parameterName (marker : Token)
  | parameterClose (marker : Token) (name : String)
  /-- The end of a broken part, with the brackets open since it began. -/
  | skip (depth : Nat) (container : Container) (next : Resumption)
  /-- The end of a broken placeholder. -/
  | skipParameter (depth : Nat)
  /-- Nothing more. -/
  | finished (root : Option Value)
  /-- Nothing: the rest of the body is ignored. -/
  | stopped (root : Option Value) (isCut : Bool)

/-- A reader between two tokens. -/
structure Reader where
  focus : Focus
  /-- The containers around the focus, the innermost first. -/
  holes : List Hole
  /-- The reports so far, the latest first. -/
  reports : List Diagnostic

namespace Setting

/-- The body is cut off in a token: it is the last one and further input could change it. -/
def isCutIn (setting : Setting) (lexeme : Lexeme) : Bool :=
  setting.allowsFragments && lexeme.span.stop = setting.size && lexeme.isOpen

/-- After the name of a parameter, a brace at the end may be the beginning of the marker. -/
def isCutInMarker (setting : Setting) (lexeme : Lexeme) : Bool :=
  setting.isCutIn lexeme ||
    setting.allowsFragments && lexeme.kind = .braceOpen && lexeme.span.stop = setting.size

/-- The limit, if so many open containers exceed it by one more. -/
def exceeded? (setting : Setting) (depth : Nat) : Option Nat :=
  setting.nestingLimit.filter (· ≤ depth)

end Setting

namespace Reader

def start : Reader := ⟨.value, [], []⟩

/-- Puts a value, or the lack of one, where it is waited for. -/
def deliver (value : Option Value) (holes : List Hole) (reports : List Diagnostic) : Reader :=
  match holes, value with
  | [], value => ⟨.finished value, [], reports⟩
  | hole :: rest, some value => ⟨.separator (hole.fill (some value)), rest, reports⟩
  | hole :: rest, none => ⟨.skip 0 (hole.fill none) .separator, rest, reports⟩

/-- A token after the root; only the first one is reported. -/
def excess (lexeme : Lexeme) (root : Option Value) (reports : List Diagnostic) : Reader :=
  ⟨.stopped root false, [], Report.add (Report.instead .trailingContent lexeme) reports⟩

/-- The reports once a container is closed after a comma or without one. -/
def reportComma (comma : Option Token) (reports : List Diagnostic) : List Diagnostic :=
  match comma with
  | some comma => Report.add (Report.trailingComma comma) reports
  | none => reports

/-- A closing bracket.  It closes the innermost container of its kind; the containers inside that
one are mismatched and end before it. -/
def close (lexeme : Lexeme) (container : Container) (comma : Option Token)
    (reports : List Diagnostic) (holes : List Hole) : Reader :=
  if lexeme.kind = container.closer then
    deliver (some container.value) holes (reportComma comma reports)
  else
    let reports := Report.add (Report.mismatched container lexeme) reports
    match holes with
    | [] => excess lexeme (some container.value) reports
    | hole :: rest => close lexeme (hole.fill (some container.value)) none reports rest

/-- A comma or a closing bracket after a part of a container. -/
def endPart (lexeme : Lexeme) (container : Container) (holes : List Hole)
    (reports : List Diagnostic) : Reader :=
  if lexeme.kind = .comma then ⟨.part container (some lexeme.toToken), holes, reports⟩
  else close lexeme container none reports holes

/-- A comma or a closing bracket before a part of a container. -/
def emptyPart (lexeme : Lexeme) (container : Container) (comma : Option Token) (holes : List Hole)
    (reports : List Diagnostic) : Reader :=
  if lexeme.kind = .comma then
    ⟨.part container (some lexeme.toToken), holes,
      Report.add (Report.noPart container lexeme) reports⟩
  else close lexeme container comma reports holes

/-- A token that is skipped, with the brackets it opens or closes. -/
def pass (lexeme : Lexeme) (depth : Nat) : Nat :=
  match lexeme.kind with
  | .braceOpen | .bracketOpen => depth + 1
  | .braceClose | .bracketClose => depth - 1
  | _ => depth

/-- A token in or after a broken part. -/
def skip (lexeme : Lexeme) (depth : Nat) (container : Container) (next : Resumption)
    (holes : List Hole) (reports : List Diagnostic) : Reader :=
  if depth = 0 && KindSet.valueRecovery.contains lexeme.kind then
    match next with
    | .separator => endPart lexeme container holes reports
    | .part => emptyPart lexeme container none holes reports
  else ⟨.skip (pass lexeme depth) container next, holes, reports⟩

/-- A token that does not belong to the value waited for, which could not be read. -/
def giveUp (lexeme : Lexeme) (holes : List Hole) (reports : List Diagnostic) : Reader :=
  match holes with
  | [] => excess lexeme none reports
  | hole :: rest => skip lexeme 0 (hole.fill none) .separator rest reports

/-- A token in or after a broken placeholder; its closing marker still belongs to it. -/
def skipParameter (lexeme : Lexeme) (depth : Nat) (holes : List Hole)
    (reports : List Diagnostic) : Reader :=
  if depth = 0 && KindSet.parameterRecovery.contains lexeme.kind then
    if lexeme.kind = .parameterClose then deliver none holes reports
    else giveUp lexeme holes reports
  else ⟨.skipParameter (pass lexeme depth), holes, reports⟩

/-- A bracket that opens a container, if there may be one more. -/
def openContainer (setting : Setting) (lexeme : Lexeme) (holes : List Hole)
    (reports : List Diagnostic) : Reader :=
  match setting.exceeded? holes.length with
  | some limit =>
      ⟨.stopped (Hole.abandon holes) false, [], Report.add (Report.tooDeep limit lexeme) reports⟩
  | none => ⟨.part (.ofOpener lexeme.toToken) none, holes, reports⟩

/-- A token where a value is waited for. -/
def value (setting : Setting) (lexeme : Lexeme) (holes : List Hole)
    (reports : List Diagnostic) : Reader :=
  if setting.isCutIn lexeme then ⟨.stopped (Hole.cutOff holes) true, [], reports⟩
  else if KindSet.valueRecovery.contains lexeme.kind then
    giveUp lexeme holes (Report.add (Report.instead .expectedValue lexeme) reports)
  else
    match lexeme.kind with
    | .braceOpen | .bracketOpen => openContainer setting lexeme holes reports
    | .parameterOpen => ⟨.parameterName lexeme.toToken, holes, reports⟩
    | _ =>
        match lexeme.scalar? with
        | some content => deliver (some (.scalar lexeme.toToken content)) holes reports
        | none => deliver none holes (Report.add (Report.noValue lexeme) reports)

/-- A token where a property begins. -/
def property (setting : Setting) (lexeme : Lexeme) (opener : Token) (members : List Member)
    (holes : List Hole) (reports : List Diagnostic) : Reader :=
  if setting.isCutIn lexeme then
    ⟨.stopped (some ((Container.object opener members).cutOff holes)) true, [], reports⟩
  else if lexeme.kind = .string then ⟨.colon opener members lexeme.key, holes, reports⟩
  else
    skip lexeme 0 (.object opener members) .separator holes
      (Report.add (Report.noProperty lexeme) reports)

/-- A token where a part of a container begins or the container ends. -/
def part (setting : Setting) (lexeme : Lexeme) (container : Container) (comma : Option Token)
    (holes : List Hole) (reports : List Diagnostic) : Reader :=
  if KindSet.valueRecovery.contains lexeme.kind then
    emptyPart lexeme container comma holes reports
  else
    match container with
    | .array opener items => value setting lexeme (.item opener items :: holes) reports
    | .object opener members => property setting lexeme opener members holes reports

/-- A part of a container begins with this kind of token. -/
def beginsPart (container : Container) (kind : Kind) : Bool :=
  match container with
  | .array _ _ => KindSet.valueFirst.contains kind
  | .object _ _ => kind = .string

def separator (setting : Setting) (lexeme : Lexeme) (container : Container) (holes : List Hole)
    (reports : List Diagnostic) : Reader :=
  if KindSet.valueRecovery.contains lexeme.kind then endPart lexeme container holes reports
  else
    let reports := Report.add (Report.instead .missingComma lexeme) reports
    if beginsPart container lexeme.kind then part setting lexeme container none holes reports
    else skip lexeme 0 container .part holes reports

def colon (setting : Setting) (lexeme : Lexeme) (opener : Token) (members : List Member) (key : Key)
    (holes : List Hole) (reports : List Diagnostic) : Reader :=
  if setting.isCutIn lexeme then
    ⟨.stopped (some ((Container.object opener members).cutOff holes)) true, [], reports⟩
  else if lexeme.kind = .colon then ⟨.value, .property opener members key :: holes, reports⟩
  else
    let reports := Report.add (Report.instead .expectedColon lexeme) reports
    if KindSet.valueFirst.contains lexeme.kind then
      value setting lexeme (.property opener members key :: holes) reports
    else skip lexeme 0 (.object opener (.bare key :: members)) .separator holes reports

/-- A token after the opening marker of a placeholder. -/
def parameterName (setting : Setting) (lexeme : Lexeme) (marker : Token) (holes : List Hole)
    (reports : List Diagnostic) : Reader :=
  if setting.isCutIn lexeme then ⟨.stopped (Hole.cutOff holes) true, [], reports⟩
  else if lexeme.kind = .identifier then ⟨.parameterClose marker lexeme.word, holes, reports⟩
  else
    skipParameter lexeme 0 holes
      (Report.add (Report.instead .expectedParameterName lexeme) reports)

/-- A token after the name in a placeholder. -/
def parameterClose (setting : Setting) (lexeme : Lexeme) (marker : Token) (name : String)
    (holes : List Hole) (reports : List Diagnostic) : Reader :=
  if setting.isCutInMarker lexeme then ⟨.stopped (Hole.cutOff holes) true, [], reports⟩
  else if lexeme.kind = .parameterClose then
    deliver (some (.scalar marker (.parameter name))) holes reports
  else
    giveUp lexeme holes (Report.add (Report.instead .expectedParameterClose lexeme) reports)

def take (setting : Setting) (reader : Reader) (lexeme : Lexeme) : Reader :=
  let { focus, holes, reports } := reader
  match focus with
  | .value => value setting lexeme holes reports
  | .part container comma => part setting lexeme container comma holes reports
  | .separator container => separator setting lexeme container holes reports
  | .colon opener members key => colon setting lexeme opener members key holes reports
  | .parameterName marker => parameterName setting lexeme marker holes reports
  | .parameterClose marker name => parameterClose setting lexeme marker name holes reports
  | .skip depth container next => skip lexeme depth container next holes reports
  | .skipParameter depth => skipParameter lexeme depth holes reports
  | .finished root =>
      if setting.isCutIn lexeme then ⟨.stopped root true, [], reports⟩
      else excess lexeme root reports
  | .stopped root isCut => ⟨.stopped root isCut, holes, reports⟩

/-- The rest of the body is ignored. -/
def isStopped (reader : Reader) : Bool :=
  match reader.focus with
  | .stopped _ _ => true
  | _ => false

/-- A token between the tokens of the grammar.  Of these, a comment without an end is reported,
unless the body may be cut off in it. -/
def ignore (setting : Setting) (reader : Reader) (lexeme : Lexeme) : Reader :=
  if lexeme.kind = .unterminatedComment && !setting.allowsFragments && !reader.isStopped then
    { reader with reports := Report.add (Report.openComment lexeme) reader.reports }
  else reader

def step (setting : Setting) (reader : Reader) (lexeme : Lexeme) : Reader :=
  if lexeme.kind.isTrivia then reader.ignore setting lexeme else reader.take setting lexeme

def run (setting : Setting) (reader : Reader) (lexemes : List Lexeme) : Reader :=
  lexemes.foldl (step setting) reader

@[simp] theorem run_nil (setting : Setting) (reader : Reader) : reader.run setting [] = reader :=
  rfl

@[simp] theorem run_cons (setting : Setting) (reader : Reader) (lexeme : Lexeme)
    (rest : List Lexeme) :
    reader.run setting (lexeme :: rest) = (reader.step setting lexeme).run setting rest := rfl

theorem run_append (setting : Setting) (reader : Reader) (first second : List Lexeme) :
    reader.run setting (first ++ second) = (reader.run setting first).run setting second := by
  simp [run]

/-- What a run has made of a body: its root, its reports with the latest first, and whether it
was cut off. -/
structure Outcome where
  root : Option Value
  reports : List Diagnostic
  isCut : Bool

def endIn (setting : Setting) (container : Container) (holes : List Hole)
    (reports : List Diagnostic) : Outcome :=
  if setting.allowsFragments then ⟨some (container.cutOff holes), reports, true⟩
  else
    ⟨some (container.enclose holes), Report.add (Report.unclosed container setting.size) reports,
      false⟩

/-- The body ends after a value that could not be read. -/
def endWithout (setting : Setting) (holes : List Hole) (reports : List Diagnostic) : Outcome :=
  match holes with
  | [] => ⟨none, reports, false⟩
  | hole :: rest => endIn setting (hole.fill none) rest reports

/-- The body ends where a value or the rest of one is waited for. -/
def endBefore (setting : Setting) (diagnostic : Diagnostic) (holes : List Hole)
    (reports : List Diagnostic) : Outcome :=
  if setting.allowsFragments then ⟨Hole.cutOff holes, reports, true⟩
  else endWithout setting holes (Report.add diagnostic reports)

def endAfterName (setting : Setting) (opener : Token) (members : List Member) (key : Key)
    (holes : List Hole) (reports : List Diagnostic) : Outcome :=
  if setting.allowsFragments then endIn setting (.object opener members) holes reports
  else
    endIn setting (.object opener (.bare key :: members)) holes
      (Report.add (Report.missing .expectedColon setting.size) reports)

/-- The end of the body.  A body without any value is a mistake only if it is a group. -/
def finish (setting : Setting) (isGroup : Bool) (reader : Reader) : Outcome :=
  let { focus, holes, reports } := reader
  match focus with
  | .value =>
      match holes with
      | [] =>
          ⟨none, if isGroup then Report.add (Report.missing .expectedValue setting.size) reports
            else reports, false⟩
      | holes => endBefore setting (.atEnd .unexpectedEnd setting.size) holes reports
  | .part container _ | .separator container | .skip _ container _ =>
      endIn setting container holes reports
  | .colon opener members key => endAfterName setting opener members key holes reports
  | .parameterName _ =>
      endBefore setting (Report.missing .expectedParameterName setting.size) holes reports
  | .parameterClose _ _ =>
      endBefore setting (Report.missing .expectedParameterClose setting.size) holes reports
  | .skipParameter _ => endWithout setting holes reports
  | .finished root => ⟨root, reports, false⟩
  | .stopped root isCut => ⟨root, reports, isCut⟩

end Reader
end QueryBody
