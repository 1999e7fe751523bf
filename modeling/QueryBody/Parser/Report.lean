import QueryBody.Diagnostic.Basic
import QueryBody.Number.Shape
import QueryBody.Parser.Container
import QueryBody.Text.Escape

/-!
# Reports about tokens

The wording of the diagnostics that a parse makes, and the rule that only the first
report at a place is kept.
-/

namespace QueryBody
namespace Report

/-- Adds a report to the earlier ones, the latest of which comes first, unless that one is at the
same place. -/
def add (diagnostic : Diagnostic) : List Diagnostic → List Diagnostic
  | [] => [diagnostic]
  | latest :: rest =>
      if latest.offset = diagnostic.offset then latest :: rest else diagnostic :: latest :: rest

def backquoted (text : String) : String := "`" ++ text ++ "`"

/-- How a report calls a token it did not expect. -/
def found (lexeme : Lexeme) : String :=
  match lexeme.kind with
  | .identifier | .garbage => backquoted lexeme.word
  | kind => kind.describe

/-- A token stands where something else is expected. -/
def instead (problem : Problem) (lexeme : Lexeme) : Diagnostic :=
  (Diagnostic.ofToken problem lexeme.toToken).withDetail (found lexeme)

/-- The input ends where something is expected. -/
def missing (problem : Problem) (offset : Nat) : Diagnostic :=
  (Diagnostic.atEnd problem offset).withDetail Kind.endOfInput.describe

/-- Why the content of a string cannot be decoded. -/
def escapeDetail? (lexeme : Lexeme) : Option String :=
  match unescape lexeme.content with
  | .ok _ => none
  | .error error => some error.message

/-- A token that begins no value. -/
def noValue (lexeme : Lexeme) : Diagnostic :=
  let of (problem : Problem) := Diagnostic.ofToken problem lexeme.toToken
  let quoting (problem : Problem) := (of problem).withDetail (backquoted lexeme.word)
  match lexeme.kind with
  | .unterminatedString => of .unterminatedString
  | .invalidString =>
      match escapeDetail? lexeme with
      | some detail => (of .invalidEscape).withDetail detail
      | none => of .invalidEscape
  | .malformedNumber => quoting .malformedNumber
  | .partialMarker => quoting .malformedMarker
  | .garbage => quoting .unrecognizedCharacter
  | .identifier =>
      (of .unexpectedToken).withDetail
        ("identifier " ++ backquoted lexeme.word ++ "; strings must be quoted")
  | _ => instead .expectedValue lexeme

/-- A token that begins no property. -/
def noProperty (lexeme : Lexeme) : Diagnostic :=
  if lexeme.kind.isLexicalError then noValue lexeme else instead .expectedPropertyName lexeme

/-- Objects and arrays nest deeper than allowed. -/
def tooDeep (limit : Nat) (lexeme : Lexeme) : Diagnostic :=
  (Diagnostic.ofToken .nestingTooDeep lexeme.toToken).withDetail
    ("more than " ++ limit.repr ++ " levels of objects and arrays")

/-- A comma before the closing bracket. -/
def trailingComma (comma : Token) : Diagnostic :=
  (Diagnostic.ofToken .trailingComma comma).withFix "remove the trailing comma" ""

/-- Where a container begins. -/
def started (container : Container) (diagnostic : Diagnostic) : Diagnostic :=
  let noun := match container with
    | .array _ _ => "array"
    | .object _ _ => "object"
  diagnostic.relatedTo (noun ++ " started here") container.opener.span

/-- A container faces the closing bracket of another kind. -/
def mismatched (container : Container) (lexeme : Lexeme) : Diagnostic :=
  started container
    ((Diagnostic.ofToken .mismatchedDelimiter lexeme.toToken).withDetail lexeme.kind.describe)

/-- A container has no end. -/
def unclosed (container : Container) (offset : Nat) : Diagnostic :=
  let problem := match container with
    | .array _ _ => Problem.unclosedArray
    | .object _ _ => Problem.unclosedObject
  started container (missing problem offset)

/-- A comma stands where a container expects its next part. -/
def noPart (container : Container) (lexeme : Lexeme) : Diagnostic :=
  match container with
  | .array _ _ => instead .expectedValue lexeme
  | .object _ _ => instead .expectedPropertyName lexeme

/-- The comment at the end of a body has no end. -/
def openComment (lexeme : Lexeme) : Diagnostic :=
  Diagnostic.ofToken .unterminatedComment lexeme.toToken

end Report
end QueryBody
