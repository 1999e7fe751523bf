import QueryBody.Body

/-!
# Recursive descent

The grammar once more, with a procedure for every production.  The values go into an
arena of numbered nodes, and a part that turns out to be cut off is taken out of it
again.  What such a parser takes for granted is checked on the way: a check that fails
is a fault.  Numbers and counters have 32 bits, the texts of tokens are cut out of the
body, and every loop has a bound on its steps.  The memory that the calls themselves
need is not counted.
-/

namespace QueryBody
namespace Descent

/-- Why a parse breaks down. -/
inductive Fault
  /-- The tokens ahead have been looked at too often without taking one. -/
  | stuck
  /-- A token is taken after the last one. -/
  | pastEnd
  /-- A production is entered at another token than its first one. -/
  | wrongFirst (expected found : Kind)
  /-- Something is left open at the end. -/
  | unbalanced
  /-- An element is put into something else than an array. -/
  | notArray (id : Nat)
  /-- A property is put into something else than an object. -/
  | notObject (id : Nat)
  /-- No node has the number. -/
  | noSuchId (id : Nat)
  /-- The range is none of the text, or splits a character. -/
  | badSlice (span : Span)
  /-- A number does not fit into 32 bits. -/
  | overflow (number : Nat)
  /-- A loop or a recursion has used up its steps. -/
  | endless
  deriving DecidableEq, Repr

/-- A node of the arena.  The parts of a value are numbers of other nodes. -/
structure Node where
  content : Content
  token : Token
  parent : Option Nat

/-- What has been built so far, and what is open. -/
structure Work where
  nodes : List Node
  depth : Nat
  /-- The brackets of the open containers, the innermost first. -/
  delimiters : List Token

structure State where
  /-- The tokens that have not been taken. -/
  rest : List Token
  /-- The reports so far, the latest first. -/
  reports : List Diagnostic
  /-- How often the next tokens may still be looked at. -/
  fuel : Nat
  work : Work
  /-- The body is cut off here. -/
  isCut : Bool
  /-- The rest of the body is ignored. -/
  isAbandoned : Bool

/-- What is parsed, and how. -/
structure Input where
  options : Options
  source : String

namespace Input

def text (input : Input) : List Char := input.source.toList

def size (input : Input) : Nat := Utf8.size input.text

def setting (input : Input) : Setting := input.options.setting input.source

end Input

abbrev Run := StateT State (Except Fault)

/-- How often the next tokens may be looked at before one is taken. -/
def fullFuel : Nat := 256

/-- A number that has to fit into 32 bits. -/
def word (number : Nat) : Run Nat :=
  if number < UInt32.size then pure number else throw (.overflow number)

def slice (span : Span) (text : List Char) : Run (List Char) :=
  match Utf8.slice? span.start span.stop text with
  | some part => pure part
  | none => throw (.badSlice span)

/-- A text without its quotes. -/
def unquoted (text : List Char) : Run (List Char) := slice ⟨1, Utf8.size text - 1⟩ text

def report (diagnostic : Diagnostic) : Run Unit :=
  modify fun state => { state with reports := Report.add diagnostic state.reports }

def modifyWork (change : Work → Work) : Run Unit :=
  modify fun state => { state with work := change state.work }

/-! ### The arena -/

def alloc (content : Content) (token : Token) (parent : Option Nat) : Run Nat := do
  let id ← word (← get).work.nodes.length
  modifyWork fun work => { work with nodes := work.nodes ++ [⟨content, token, parent⟩] }
  return id

/-- The number of the next node. -/
def mark : Run Nat := return (← get).work.nodes.length

/-- Drops the nodes from a number on. -/
def rollback (mark : Nat) : Run Unit :=
  modifyWork fun work => { work with nodes := work.nodes.take mark }

def node (id : Nat) : Run Node := do
  match (← get).work.nodes[id]? with
  | some node => return node
  | none => throw (.noSuchId id)

/-- The content is that of a container without parts. -/
def hasNoParts : Content → Bool
  | .array items => items.isEmpty
  | .object entries => entries.isEmpty
  | .scalar _ => false

def isEmptyContainer (id : Nat) : Run Bool := return hasNoParts (← node id).content

def setContent (id : Nat) (content : Content) : Run Unit :=
  modifyWork fun work =>
    { work with nodes := work.nodes.modify id fun node => { node with content } }

def pushElement (array element : Nat) : Run Unit := do
  match (← node array).content with
  | .array items => setContent array (.array (items ++ [element]))
  | _ => throw (.notArray array)

def insertProperty (object : Nat) (key : String) (entry : Entry) : Run Unit := do
  match (← node object).content with
  | .object entries => setContent object (.object (Slots.insert key entry entries))
  | _ => throw (.notObject object)

/-! ### Tokens -/

/-- The kind of the next token. -/
def kindOf : List Token → Kind
  | [] => .endOfInput
  | token :: _ => token.kind

section

variable (input : Input)

/-- A comment without an end is reported, unless the body may be cut off in it. -/
def reportTrivia (token : Token) (reports : List Diagnostic) : List Diagnostic :=
  if token.kind = .unterminatedComment && !input.options.allowsFragments then
    Report.add (.ofToken .unterminatedComment token) reports
  else reports

/-- The tokens after the trivia that come next, and the reports with those about them. -/
def pastTrivia : List Token → List Diagnostic → List Token × List Diagnostic
  | [], reports => ([], reports)
  | token :: rest, reports =>
      if token.kind.isTrivia then pastTrivia rest (reportTrivia input token reports)
      else (token :: rest, reports)

def skipTrivia : Run Unit :=
  modify fun state =>
    let (rest, reports) := pastTrivia input state.rest state.reports
    { state with rest, reports }

/-- Looks at the next token, which uses up fuel. -/
def current : Run Kind := do
  skipTrivia input
  let state ← get
  if state.fuel ≤ 1 then throw .stuck
  else
    set { state with fuel := state.fuel - 1 }
    return kindOf state.rest

def current? : Run (Option Token) := do
  skipTrivia input
  return (← get).rest.head?

def bump : Run Token := do
  skipTrivia input
  let state ← get
  match state.rest with
  | [] => throw .pastEnd
  | token :: rest =>
      set { state with rest, fuel := fullFuel }
      return token

/-- Takes the next token if it is of this kind. -/
def eat (kind : Kind) : Run (Option Token) := do
  if (← current input) = kind then return some (← bump input) else return none

def assertCurrent (expected : Kind) : Run Unit := do
  let found ← current input
  if found = expected then return () else throw (.wrongFirst expected found)

def text (token : Token) : Run (List Char) := slice token.span input.text

def currentText : Run (List Char) := do
  match ← current? input with
  | some token => text input token
  | none => return []

/-- The decoded content of a string. -/
def stringValue (token : Token) : Run String := do
  match unescape (← unquoted (← text input token)) with
  | .ok text => return String.ofList text
  | .error _ => return ""

/-! ### Where the body is cut off -/

def shouldStop : Run Bool := return (← get).isCut || (← get).isAbandoned

/-- The token is the last one, and further input could change it. -/
def isIncomplete (token : Token) : Run Bool := do
  if token.span.stop = input.size then
    return Lexeme.isOpen ⟨token, ← text input token⟩
  else return false

def noteCut (isCut : Bool) : Run Bool := do
  if isCut then
    modify fun state => { state with isCut := true }
    return true
  else return false

def atCut : Run Bool := do
  if (← get).isCut then return true
  else if !input.options.allowsFragments then return false
  else
    match ← current? input with
    | none => noteCut true
    | some token => noteCut (← isIncomplete input token)

/-- In a placeholder, a brace at the end may be the beginning of the closing marker. -/
def atCutInMarker : Run Bool := do
  if ← atCut input then return true
  else if !input.options.allowsFragments then return false
  else
    match ← current? input with
    | none => return false
    | some token => noteCut (token.kind = .braceOpen && token.span.stop = input.size)

/-! ### Reports -/

/-- A problem of a token, or of the end of the body. -/
def diagnosticAt (problem : Problem) (token : Option Token) (detail : Option String) :
    Diagnostic :=
  let diagnostic := match token with
    | some token => Diagnostic.ofToken problem token
    | none => Diagnostic.atEnd problem input.size
  match detail with
  | some detail => diagnostic.withDetail detail
  | none => diagnostic

def reportAt (problem : Problem) (token : Option Token) (detail : Option String) : Run Unit :=
  report (diagnosticAt input problem token detail)

def error (problem : Problem) : Run Unit := do
  reportAt input problem (← current? input) none

def errorMessage (problem : Problem) (detail : String) : Run Unit := do
  reportAt input problem (← current? input) (some detail)

def describeCurrent : Run String := do
  match ← current input with
  | .identifier | .garbage =>
      return Report.backquoted (String.ofList (← currentText input))
  | kind => return kind.describe

def errorFound (problem : Problem) : Run Unit := do
  errorMessage input problem (← describeCurrent input)

def errorAndBump (problem : Problem) (detail : Option String) : Run Unit := do
  let token ← current? input
  reportAt input problem token detail
  if token.isSome then
    let _ ← bump input

/-- A token that begins no value is reported and taken. -/
def errorBadValue : Run Unit := do
  let kind ← current input
  let text ← currentText input
  let quoted := Report.backquoted (String.ofList text)
  match kind with
  | .unterminatedString => errorAndBump input .unterminatedString none
  | .invalidString =>
      match unescape (← unquoted text) with
      | .ok _ => errorAndBump input .invalidEscape none
      | .error error => errorAndBump input .invalidEscape (some error.message)
  | .malformedNumber => errorAndBump input .malformedNumber (some quoted)
  | .partialMarker => errorAndBump input .malformedMarker (some quoted)
  | .garbage => errorAndBump input .unrecognizedCharacter (some quoted)
  | .identifier =>
      errorAndBump input .unexpectedToken
        (some ("identifier " ++ quoted ++ "; strings must be quoted"))
  | _ => errorAndBump input .expectedValue (some (← describeCurrent input))

/-- The container that a bracket opens ends here, without its closing bracket. -/
def errorUnclosed (opener : Token) : Run Unit := do
  let isObject : Bool := opener.kind = .braceOpen
  let token ← current? input
  let problem := match token with
    | some _ => Problem.mismatchedDelimiter
    | none => if isObject then .unclosedObject else .unclosedArray
  let found := match token with
    | some token => token.kind
    | none => .endOfInput
  let noun := if isObject then "object" else "array"
  report ((diagnosticAt input problem token (some found.describe)).relatedTo
    (noun ++ " started here") opener.span)

def closeMismatched : Run Unit := do
  match (← get).work.delimiters with
  | opener :: _ => errorUnclosed input opener
  | [] => return ()

/-- The comma before a closing bracket, if there is one. -/
def errorTrailingComma : Option Token → Run Unit
  | some comma => report (Report.trailingComma comma)
  | none => return ()

/-- The nesting after a token that is skipped. -/
def nestingAfter (kind : Kind) (nesting : Nat) : Run Nat :=
  match kind with
  | .braceOpen | .bracketOpen => word (nesting + 1)
  | .braceClose | .bracketClose => return nesting - 1
  | _ => return nesting

def skipFrom (recovery : KindSet) : (steps nesting : Nat) → Run Unit
  | 0, _ => throw .endless
  | steps + 1, nesting => do
      let kind ← current input
      if kind = .endOfInput || nesting = 0 && recovery.contains kind then return ()
      else
        let nesting ← nestingAfter kind nesting
        let _ ← bump input
        skipFrom recovery steps nesting

/-- Skips to a token of the set that is in no bracket, or to the end. -/
def skipUntil (recovery : KindSet) : Run Unit := do
  skipFrom input recovery ((← get).rest.length + 1) 0

/-! ### Nesting -/

def refuel : Run Unit := modify fun state => { state with fuel := fullFuel }

/-- Enters a container, unless there are too many around it: then the rest is ignored. -/
def enterRecursion : Run Bool := do
  let work := (← get).work
  match input.setting.exceeded? work.depth with
  | some limit =>
      errorMessage input .nestingTooDeep
        ("more than " ++ limit.repr ++ " levels of objects and arrays")
      modify fun state => { state with rest := [], isAbandoned := true }
      return false
  | none =>
      let depth ← word (work.depth + 1)
      modifyWork fun work => { work with depth }
      refuel
      return true

def exitRecursion : Run Unit := do
  modifyWork fun work => { work with depth := work.depth - 1 }
  refuel

def pushDelimiter (opener : Token) : Run Unit :=
  modifyWork fun work => { work with delimiters := opener :: work.delimiters }

def popDelimiter : Run Unit :=
  modifyWork fun work => { work with delimiters := work.delimiters.tail }

end

/-! ### Productions -/

/-- The two kinds of containers. -/
inductive Form
  | array
  | object
  deriving DecidableEq, Repr

namespace Form

def opener : Form → Kind
  | array => .bracketOpen
  | object => .braceOpen

def closer : Form → Kind
  | array => .bracketClose
  | object => .braceClose

/-- The content of a container without parts. -/
def empty : Form → Content
  | array => .array []
  | object => .object []

/-- The kind may begin a part. -/
def begins : Form → Kind → Bool
  | array, kind => KindSet.valueFirst.contains kind
  | object, kind => kind = .string

end Form

section

variable (input : Input)

/-- A part that is cut off is kept if it is more than an empty container. -/
def keepCut (value : Option Nat) (mark : Nat) (keep : Nat → Run Unit) : Run Unit := do
  match value with
  | some id => if ← isEmptyContainer id then rollback mark else keep id
  | none => rollback mark

/-- What becomes of a part once its value has been read: it is kept, or lacks the value. -/
def settle (value : Option Nat) (mark : Nat) (keep : Nat → Run Unit) (lack : Run Unit) :
    Run Unit := do
  if (← get).isCut then keepCut value mark keep
  else
    match value with
    | some id => keep id
    | none =>
        skipUntil input .valueRecovery
        lack

/-- The comma after a part, if there is one. -/
def separator (form : Form) : Run (Option Token) := do
  match ← current input with
  | .comma => return some (← bump input)
  | .braceClose | .bracketClose | .endOfInput => return none
  | kind =>
      errorFound input .missingComma
      if form.begins kind then return none
      else
        skipUntil input .valueRecovery
        return none

/-- A placeholder: the opening marker, a name and the closing marker. -/
def parameter (parent : Option Nat) : Run (Option Nat) := do
  assertCurrent input .parameterOpen
  let marker ← bump input
  if ← atCut input then return none
  else
    match ← eat input .identifier with
    | none =>
        errorFound input .expectedParameterName
        skipUntil input .parameterRecovery
        let _ ← eat input .parameterClose
        return none
    | some name =>
        let name ← text input name
        if ← atCutInMarker input then return none
        else
          match ← eat input .parameterClose with
          | none =>
              errorFound input .expectedParameterClose
              return none
          | some _ =>
              return some (← alloc (.scalar (.parameter (String.ofList name))) marker parent)

variable (read : Option Nat → Run (Option Nat))

/-- The value of a property; without one its name is kept alone. -/
def propertyValue (object mark : Nat) (key : String) (name : Nat) : Run Unit := do
  if ← atCut input then rollback mark
  else
    let value ← read (some object)
    settle input value mark (fun id => insertProperty object key ⟨name, some id⟩)
      (insertProperty object key ⟨name, none⟩)

def property (object : Nat) : Run Unit := do
  assertCurrent input .string
  let mark ← mark
  let token ← bump input
  let key ← stringValue input token
  let name ← alloc (.scalar (.string key)) token (some object)
  if ← atCut input then rollback mark
  else
    match ← eat input .colon with
    | some _ => propertyValue input read object mark key name
    | none =>
        errorFound input .expectedColon
        if KindSet.valueFirst.contains (← current input) then
          propertyValue input read object mark key name
        else
          skipUntil input .valueRecovery
          insertProperty object key ⟨name, none⟩

def errorNoProperty (kind : Kind) : Run Unit :=
  if kind.isLexicalError then errorBadValue input else errorFound input .expectedPropertyName

/-- A part of an object, or what stands in its place. -/
def member (object : Nat) (kind : Kind) : Run Unit := do
  if kind = .string then property input read object
  else if kind = .comma then errorFound input .expectedPropertyName
  else
    errorNoProperty input kind
    skipUntil input .valueRecovery

/-- A part of an array, or what stands in its place. -/
def element (array : Nat) : Run Unit := do
  let mark ← mark
  let value ← read (some array)
  settle input value mark (pushElement array) (return ())

def part (form : Form) (id : Nat) (kind : Kind) : Run Unit :=
  match form with
  | .array => element input read id
  | .object => member input read id kind

/-- No container goes on before the kind, be it its own closing bracket or not. -/
def endsContainer : Kind → Bool
  | .braceClose | .bracketClose | .endOfInput => true
  | _ => false

/-- The parts of a container and its closing bracket. -/
def parts (form : Form) (id : Nat) : (steps : Nat) → (comma : Option Token) → Run Unit
  | 0, _ => throw .endless
  | steps + 1, comma => do
      if ← shouldStop then return ()
      else if ← atCut input then return ()
      else
        let kind ← current input
        if kind = form.closer then
          errorTrailingComma comma
          let _ ← bump input
        else if endsContainer kind then closeMismatched input
        else
          part input read form id kind
          if ← shouldStop then return ()
          else
            let comma ← separator input form
            parts form id steps comma

def container (form : Form) (parent : Option Nat) : Run (Option Nat) := do
  assertCurrent input form.opener
  if ← enterRecursion input then
    let opener ← bump input
    pushDelimiter opener
    let id ← alloc form.empty opener parent
    parts input read form id ((← get).rest.length + 1) none
    popDelimiter
    exitRecursion
    return some id
  else return none

end

section

variable (input : Input)

def value : (steps : Nat) → (parent : Option Nat) → Run (Option Nat)
  | 0, _ => throw .endless
  | steps + 1, parent => do
      if ← atCut input then return none
      else
        match ← current input with
        | .braceOpen => container input (value steps) .object parent
        | .bracketOpen => container input (value steps) .array parent
        | .parameterOpen => parameter input parent
        | .string =>
            let token ← bump input
            let text ← stringValue input token
            return some (← alloc (.scalar (.string text)) token parent)
        | .number =>
            let number := Numeral.read (← currentText input)
            let token ← bump input
            return some (← alloc (.scalar (.number number)) token parent)
        | .trueWord | .falseWord =>
            let token ← bump input
            return some (← alloc (.scalar (.bool (token.kind = .trueWord))) token parent)
        | .nullWord =>
            let token ← bump input
            return some (← alloc (.scalar .null) token parent)
        | .endOfInput =>
            error input .unexpectedEnd
            return none
        | .comma | .braceClose | .bracketClose =>
            errorFound input .expectedValue
            return none
        | _ =>
            errorBadValue input
            return none

/-- The whole body.  Of the tokens after its value only the first one is reported. -/
def root : Run (Option Nat) := do
  if (← current input) = .endOfInput then
    if input.options.isGroup then
      errorMessage input .expectedValue Kind.endOfInput.describe
    return none
  else
    let root ← value input ((← get).rest.length + 1) none
    if ← shouldStop then return root
    else if (← current input) = .endOfInput then return root
    else if ← atCut input then return root
    else
      errorFound input .trailingContent
      modify fun state => { state with rest := [] }
      return root

/-- What a parse makes of a body. -/
structure Parsed where
  root : Option Nat
  nodes : List Node
  diagnostics : Diagnostics
  isCut : Bool

def start : State :=
  ⟨(lex input.source).map Lexeme.toToken, [], fullFuel, ⟨[], 0, []⟩, false, false⟩

/-- Parses a body whose offsets fit into 32 bits. -/
def parse : Except Fault Parsed := do
  if UInt32.size ≤ input.size then throw (.overflow input.size)
  else
    let (root, last) ← (root input).run (start input)
    if last.work.depth = 0 && last.work.delimiters.isEmpty then
      return ⟨root, last.work.nodes, ⟨last.reports.reverse⟩, last.isCut⟩
    else throw .unbalanced

end
end Descent
end QueryBody
