import QueryBody.Body

/-!
# Plain JSON texts

A plain text is a body without mistakes, comments and placeholders.  Reading one is
stricter than parsing a body: a string that is used must have a partner for each of
its surrogates, a number that is used must be in range, and the values that are
used nest at most so deep.  What is passed over need not keep these rules.
-/

namespace QueryBody
namespace Plain

/-- The kinds of tokens in plain JSON. -/
def kinds : KindSet :=
  ⟨[.braceOpen, .braceClose, .bracketOpen, .bracketClose, .colon, .comma, .string, .number,
    .trueWord, .falseWord, .nullWord, .whitespace, .newline]⟩

/-- A body that may nest as deep as it likes. -/
def options : Options := { isGroup := true, nestingLimit := none }

def root? (source : String) : Option Value :=
  let body := options.parse source
  if (lex source).all (kinds.contains ·.kind) && !body.hasError then body.root else none

/-- The greatest nesting of the values that are used. -/
def greatestNesting : Nat := 127

/-- No surrogate of the string at a token is without its partner. -/
def isPaired (source : String) (token : Token) : Bool :=
  let text := Utf8.slice token.span.start token.span.stop source.toList
  match Escape.pieces text.tail.dropLast with
  | .ok pieces => Escape.isPaired pieces
  | .error _ => false

def hasPairedKeys (source : String) (members : List Member) : Bool :=
  members.all fun member => isPaired source member.key.token

mutual

/-- A value that nests at most `room` deep, as JSON. -/
def json? (source : String) (room : Nat) : Value → Option Json
  | .scalar _ .null => some .null
  | .scalar _ (.bool value) => some (.bool value)
  | .scalar _ (.number (.finite number)) => some (.number number)
  | .scalar _ (.number (.outOfRange _)) => none
  | .scalar token (.string text) => if isPaired source token then some (.string text) else none
  | .scalar _ (.parameter _) => none
  | .array _ items =>
      match room with
      | 0 => none
      | room + 1 => (itemsJson? source room items).map .array
  | .object _ members =>
      match room with
      | 0 => none
      | room + 1 =>
          if hasPairedKeys source members then (membersJson? source room members).map .ofEntries
          else none

def itemsJson? (source : String) (room : Nat) : List Value → Option (List Json)
  | [] => some []
  | item :: rest => do
      let first ← json? source room item
      let others ← itemsJson? source room rest
      return first :: others

def membersJson? (source : String) (room : Nat) : List Member → Option (List (String × Json))
  | [] => some []
  | .bare _ :: _ => none
  | .pair key value :: rest => do
      let first ← json? source room value
      let others ← membersJson? source room rest
      return (key.text, first) :: others

end

/-- A string that can be used. -/
def string? (source : String) : Value → Option String
  | .scalar token (.string text) => if isPaired source token then some text else none
  | _ => none

def integer? (least greatest : Int) : Value → Option Int
  | .scalar _ (.number (.finite (.integer value))) =>
      if least ≤ value ∧ value ≤ greatest then some value else none
  | _ => none

/-- A natural number of 64 bits. -/
def natural? (value : Value) : Option Nat :=
  (integer? 0 (UInt64.size - 1 : Nat) value).map Int.toNat

/-- The only value of a property. -/
def field? (members : List Member) (name : String) : Option Value :=
  match members.filter (·.key.text = name) with
  | [.pair _ value] => some value
  | _ => none

/-- The fields of a record: an array of them in order, or an object that has each of them once
and may have other properties. -/
def fields? (source : String) (names : List String) : Value → Option (List Value)
  | .array _ items => if items.length = names.length then some items else none
  | .object _ members => if hasPairedKeys source members then names.mapM (field? members) else none
  | .scalar _ _ => none

end Plain
end QueryBody
