import QueryBody.Slots
import QueryBody.Value.Basic

/-!
# What a body says

A datum is a value without places: the members of an object fill its slots, so a
repeated key keeps its slot and takes the last value.
-/

namespace QueryBody

inductive Datum
  | scalar (content : Scalar)
  | array (items : List Datum)
  /-- The slots of an object; a slot is empty if the value could not be read. -/
  | object (slots : List (String × Option Datum))

namespace Value

mutual

/-- What a value says. -/
def datum : Value → Datum
  | scalar _ content => .scalar content
  | array _ items => .array (itemData items)
  | object _ members => .object (Slots.ofList (memberData members))

def itemData : List Value → List Datum
  | [] => []
  | item :: rest => datum item :: itemData rest

def memberData : List Member → List (String × Option Datum)
  | [] => []
  | .bare key :: rest => (key.text, none) :: memberData rest
  | .pair key value :: rest => (key.text, some (datum value)) :: memberData rest

end

end Value

namespace Datum

mutual

/-- The same datum with the same order of slots, where numbers are compared as numbers. -/
def same : Datum → Datum → Bool
  | scalar a, scalar b => a.same b
  | array a, array b => sameItems a b
  | object a, object b => sameSlots a b
  | _, _ => false

def sameItems : List Datum → List Datum → Bool
  | [], [] => true
  | a :: as, b :: bs => same a b && sameItems as bs
  | _, _ => false

def sameSlots : List (String × Option Datum) → List (String × Option Datum) → Bool
  | [], [] => true
  | (key, none) :: as, (key', none) :: bs => key == key' && sameSlots as bs
  | (key, some a) :: as, (key', some b) :: bs => key == key' && same a b && sameSlots as bs
  | _, _ => false

end

end Datum
end QueryBody
