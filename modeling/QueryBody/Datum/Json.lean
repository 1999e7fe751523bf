import QueryBody.Datum.Basic
import QueryBody.Json.Basic

/-!
# The JSON view of a body

Every datum whose slots are all filled has a view as plain JSON.  A parameter
becomes an object that names it, and a number out of range becomes null.
-/

namespace QueryBody

def Scalar.json : Scalar → Json
  | null => .null
  | bool value => .bool value
  | number (.finite value) => .number value
  | number (.outOfRange _) => .null
  | string text => .string text
  | parameter name => .object [("$param", .string name)]

namespace Datum

mutual

/-- The JSON view; nothing, if a slot is empty. -/
def json? : Datum → Option Json
  | scalar content => some content.json
  | array items => (itemsJson? items).map .array
  | object slots => (slotsJson? slots).map .ofEntries

def itemsJson? : List Datum → Option (List Json)
  | [] => some []
  | item :: rest => do
      let first ← json? item
      let others ← itemsJson? rest
      return first :: others

def slotsJson? : List (String × Option Datum) → Option (List (String × Json))
  | [] => some []
  | (_, none) :: _ => none
  | (key, some value) :: rest => do
      let first ← json? value
      let others ← slotsJson? rest
      return (key, first) :: others

end

end Datum
end QueryBody
