/-!
# What can be wrong with a body

The problems are listed by priority: unclosed containers swallow the rest of a
body, missing pieces are what to mend first, misplaced tokens are mistakes at one
place, and lexical errors are confined to one token.
-/

namespace QueryBody

inductive Problem
  | unclosedObject
  | unclosedArray
  | nestingTooDeep
  | unexpectedEnd
  | expectedValue
  | expectedPropertyName
  | expectedColon
  | expectedParameterName
  | expectedParameterClose
  | missingComma
  | trailingComma
  | mismatchedDelimiter
  | trailingContent
  | unexpectedToken
  | unterminatedString
  | invalidEscape
  | malformedNumber
  | unterminatedComment
  | malformedMarker
  | unrecognizedCharacter
  deriving DecidableEq, Repr

namespace Problem

/-- All problems, the highest priority first. -/
def all : List Problem :=
  [unclosedObject, unclosedArray, nestingTooDeep, unexpectedEnd, expectedValue,
    expectedPropertyName, expectedColon, expectedParameterName, expectedParameterClose,
    missingComma, trailingComma, mismatchedDelimiter, trailingContent, unexpectedToken,
    unterminatedString, invalidEscape, malformedNumber, unterminatedComment, malformedMarker,
    unrecognizedCharacter]

def rank (problem : Problem) : Nat := all.idxOf problem

def lower (problem : Problem) : List Problem := all.filter (problem.rank < rank ·)

/-- Problems of a single token's text. -/
def isLexical : Problem → Bool
  | unterminatedString | invalidEscape | malformedNumber | unterminatedComment | malformedMarker
  | unrecognizedCharacter => true
  | _ => false

def plainMessage : Problem → String
  | unclosedObject => "missing closing `\x7d`"
  | unclosedArray => "missing closing `]`"
  | nestingTooDeep => "nesting too deep"
  | unexpectedEnd => "unexpected end of input"
  | expectedValue => "expected a value"
  | expectedPropertyName => "expected a property name"
  | expectedColon => "expected `:` after property name"
  | expectedParameterName => "expected a parameter name after `\x7b\x7b#toJson\x7d\x7d`"
  | expectedParameterClose => "expected `\x7b\x7b/toJson\x7d\x7d` after parameter name"
  | missingComma => "missing `,`"
  | trailingComma => "trailing comma"
  | mismatchedDelimiter => "mismatched closing delimiter"
  | trailingContent => "unexpected content after the query body"
  | unexpectedToken => "unexpected token"
  | unterminatedString => "unterminated string"
  | invalidEscape => "invalid string"
  | malformedNumber => "malformed number"
  | unterminatedComment => "unterminated block comment"
  | malformedMarker => "malformed parameter marker"
  | unrecognizedCharacter => "unrecognized character"

/-- What a message says before its detail. -/
def introduction (problem : Problem) : String :=
  match problem with
  | unexpectedToken => "unexpected "
  | nestingTooDeep => "nesting too deep: "
  | invalidEscape => problem.plainMessage ++ ": "
  | _ => problem.plainMessage ++ if problem.isLexical then " " else ", found "

def detailedMessage (problem : Problem) (detail : String) : String := problem.introduction ++ detail

/-- The form of the messages with a detail, which stands at the braces. -/
def messageForm (problem : Problem) : String := problem.detailedMessage "\x7b\x7d"

def message (problem : Problem) : Option String → String
  | none => problem.plainMessage
  | some detail => problem.detailedMessage detail

end Problem
end QueryBody
