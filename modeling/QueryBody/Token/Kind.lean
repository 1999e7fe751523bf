/-!
# Kinds of tokens

Malformed input has kinds of its own, so every character of a body belongs to a
token.  `endOfInput` is no token: it stands for what follows the last one.
-/

namespace QueryBody

/-- What a token is. -/
inductive Kind
  | braceOpen
  | braceClose
  | bracketOpen
  | bracketClose
  | colon
  | comma
  /-- The marker that opens a parameter placeholder. -/
  | parameterOpen
  /-- The marker that closes a parameter placeholder. -/
  | parameterClose
  /-- Two braces and a beginning of a marker after them, but not a marker. -/
  | partialMarker
  | string
  /-- A quote without the closing one. -/
  | unterminatedString
  /-- A closed string whose content cannot be decoded. -/
  | invalidString
  | number
  /-- Text that looks like a number and is none. -/
  | malformedNumber
  | trueWord
  | falseWord
  | nullWord
  /-- A bare word; only parameters may have one for a name. -/
  | identifier
  | whitespace
  | newline
  | lineComment
  | blockComment
  /-- A block comment without its end. -/
  | unterminatedComment
  /-- A run of characters that begin no token. -/
  | garbage
  | endOfInput
  deriving DecidableEq, Repr

namespace Kind

def all : List Kind :=
  [braceOpen, braceClose, bracketOpen, bracketClose, colon, comma, parameterOpen, parameterClose,
    partialMarker, string, unterminatedString, invalidString, number, malformedNumber, trueWord,
    falseWord, nullWord, identifier, whitespace, newline, lineComment, blockComment,
    unterminatedComment, garbage, endOfInput]

def name : Kind → String
  | braceOpen => "BraceOpen"
  | braceClose => "BraceClose"
  | bracketOpen => "BracketOpen"
  | bracketClose => "BracketClose"
  | colon => "Colon"
  | comma => "Comma"
  | parameterOpen => "ParamOpen"
  | parameterClose => "ParamClose"
  | partialMarker => "PartialMarker"
  | string => "Str"
  | unterminatedString => "UnterminatedStr"
  | invalidString => "InvalidStr"
  | number => "Number"
  | malformedNumber => "MalformedNumber"
  | trueWord => "True"
  | falseWord => "False"
  | nullWord => "Null"
  | identifier => "Ident"
  | whitespace => "Whitespace"
  | newline => "Newline"
  | lineComment => "LineComment"
  | blockComment => "BlockComment"
  | unterminatedComment => "UnterminatedComment"
  | garbage => "Garbage"
  | endOfInput => "Eof"

/-- How diagnostics call a token of this kind. -/
def describe : Kind → String
  | braceOpen => "`\x7b`"
  | braceClose => "`\x7d`"
  | bracketOpen => "`[`"
  | bracketClose => "`]`"
  | colon => "`:`"
  | comma => "`,`"
  | parameterOpen => "`\x7b\x7b#toJson\x7d\x7d`"
  | parameterClose => "`\x7b\x7b/toJson\x7d\x7d`"
  | partialMarker => "incomplete parameter marker"
  | string | invalidString | unterminatedString => "string"
  | number | malformedNumber => "number"
  | trueWord => "`true`"
  | falseWord => "`false`"
  | nullWord => "`null`"
  | identifier => "identifier"
  | whitespace | newline => "whitespace"
  | lineComment | blockComment | unterminatedComment => "comment"
  | garbage => "unrecognized input"
  | endOfInput => "end of input"

/-- Kinds that the grammar of values skips. -/
def isTrivia : Kind → Bool
  | whitespace | newline | lineComment | blockComment | unterminatedComment => true
  | _ => false

/-- Kinds of malformed tokens. -/
def isLexicalError : Kind → Bool
  | unterminatedString | invalidString | malformedNumber | unterminatedComment | partialMarker
  | garbage => true
  | _ => false

end Kind
end QueryBody
