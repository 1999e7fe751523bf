import QueryBody.Number.Basic
import QueryBody.Token.Basic

/-!
# Values of a body

A value keeps the token it begins with.  An object keeps all of its members in the
order of the body, also those that a later member with the same key replaces, and
those whose value could not be read.
-/

namespace QueryBody

/-- The type of a value; parameters extend the types of JSON. -/
inductive JsonType
  | null
  | boolean
  | number
  | string
  | array
  | object
  | parameter
  deriving DecidableEq, Repr

namespace JsonType

def all : List JsonType := [null, boolean, number, string, array, object, parameter]

def name : JsonType → String
  | null => "null"
  | boolean => "boolean"
  | number => "number"
  | string => "string"
  | array => "array"
  | object => "object"
  | parameter => "parameter"

def ofName? (name : String) : Option JsonType := all.find? (·.name = name)

end JsonType

/-- A value without parts. -/
inductive Scalar
  | null
  | bool (value : Bool)
  | number (value : Numeral)
  | string (text : String)
  /-- A placeholder for a value that is filled in later. -/
  | parameter (name : String)
  deriving DecidableEq

/-- A property name where it stands in the body. -/
structure Key where
  token : Token
  text : String
  deriving DecidableEq

mutual

/-- A value where it stands in the body. -/
inductive Value
  | scalar (token : Token) (content : Scalar)
  | array (opener : Token) (items : List Value)
  | object (opener : Token) (members : List Member)

/-- A property of an object. -/
inductive Member
  /-- A name whose value could not be read. -/
  | bare (key : Key)
  | pair (key : Key) (value : Value)

end

namespace Scalar

def type : Scalar → JsonType
  | null => .null
  | bool _ => .boolean
  | number _ => .number
  | string _ => .string
  | parameter _ => .parameter

/-- The same value, where numbers are compared as numbers. -/
def same : Scalar → Scalar → Bool
  | number a, number b => a.same b
  | a, b => a = b

end Scalar

/-- A property name as a string. -/
def Key.value (key : Key) : Value := .scalar key.token (.string key.text)

namespace Member

def key : Member → Key
  | bare key => key
  | pair key _ => key

/-- The member of a key and the value that was read for it, if any. -/
def of (key : Key) : Option Value → Member
  | none => bare key
  | some value => pair key value

end Member

namespace Value

def token : Value → Token
  | scalar token _ => token
  | array opener _ => opener
  | object opener _ => opener

def type : Value → JsonType
  | scalar _ content => content.type
  | array _ _ => .array
  | object _ _ => .object

def bool? : Value → Option Bool
  | scalar _ (.bool value) => some value
  | _ => none

/-- The number of a value that is one and in range. -/
def number? : Value → Option Number
  | scalar _ (.number value) => value.number?
  | _ => none

def string? : Value → Option String
  | scalar _ (.string text) => some text
  | _ => none

def parameter? : Value → Option String
  | scalar _ (.parameter name) => some name
  | _ => none

mutual

/-- The number of values and property names in a value, itself included. -/
def size : Value → Nat
  | scalar _ _ => 1
  | array _ items => 1 + itemsSize items
  | object _ members => 1 + membersSize members

def itemsSize : List Value → Nat
  | [] => 0
  | item :: rest => size item + itemsSize rest

def membersSize : List Member → Nat
  | [] => 0
  | .bare _ :: rest => 1 + membersSize rest
  | .pair _ value :: rest => 1 + size value + membersSize rest

end

end Value
end QueryBody
