import QueryBody.Text.Uppercase
import QueryBody.Text.Utf8

/-!
# Naming rules

What indices, mapping types and fields may be called.  Each kind of name has its
rules in an order of their own, and a name is told the first rule that it breaks.
-/

namespace QueryBody

inductive NameKind
  | index
  | type
  | field
  deriving DecidableEq, Repr

inductive NameRule
  | empty
  | uppercase
  | leadingSymbol
  | leadingUnderscore
  | dotOnly
  | containsPeriod
  | forbiddenCharacter
  | tooLong
  deriving DecidableEq, Repr

namespace NameKind

def all : List NameKind := [index, type, field]

def subject : NameKind → String
  | index => "Index name"
  | type => "Type name"
  | field => "Field name"

end NameKind

namespace NameRule

def all : List NameRule :=
  [empty, uppercase, leadingSymbol, leadingUnderscore, dotOnly, containsPeriod,
    forbiddenCharacter, tooLong]

/-- Characters that no name may contain. -/
def forbidden : List Char := ['\\', '/', '*', '?', '"', '<', '>', '|', ' ', ',', '#']

/-- The greatest size of a name in bytes. -/
def greatestSize : Nat := 255

def isBrokenBy (name : List Char) : NameRule → Bool
  | empty => name.isEmpty
  | uppercase => name.any isUppercase
  | leadingSymbol => name.head?.any fun c => c = '-' || c = '_' || c = '+'
  | leadingUnderscore => name.head? = some '_'
  | dotOnly => name = ['.'] || name = ['.', '.']
  | containsPeriod => name.contains '.'
  | forbiddenCharacter => name.any forbidden.contains
  | tooLong => greatestSize < Utf8.size name

/-- The rules for a kind of name, in the order in which they are checked. -/
def forKind : NameKind → List NameRule
  | .index => [empty, uppercase, leadingSymbol, dotOnly, forbiddenCharacter, tooLong]
  | .type => [empty, leadingUnderscore, dotOnly, forbiddenCharacter, tooLong]
  | .field => [empty, leadingUnderscore, containsPeriod, dotOnly, forbiddenCharacter, tooLong]

def message (kind : NameKind) (rule : NameRule) : String :=
  kind.subject ++
    match rule with
    | empty => " cannot be an empty string."
    | uppercase => " may not contain uppercase letters."
    | leadingSymbol => " may not start with -, _, or +."
    | leadingUnderscore => " may not start with an underscore."
    | dotOnly => " may not be . or .."
    | containsPeriod => " may not contain periods."
    | forbiddenCharacter =>
        " may not contain any of the following characters: " ++
          "\\, /, *, ?, \", <, >, |, \" \" (space character), \",\", #"
    | tooLong => " may not be longer than " ++ greatestSize.repr ++ " bytes."

end NameRule

/-- The first rule that a name breaks. -/
def brokenRule? (kind : NameKind) (name : String) : Option NameRule :=
  (NameRule.forKind kind).find? (NameRule.isBrokenBy name.toList)

/-- The message about a name, which is empty if the name is fine. -/
def nameMessage (kind : NameKind) (name : String) : String :=
  match brokenRule? kind name with
  | some rule => rule.message kind
  | none => ""

end QueryBody
