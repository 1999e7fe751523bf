import QueryBody.Number.Writing
import QueryBody.Text.Quoted

/-!
# JSON

Plain JSON values.  An object lists its entries by ascending key, each key once, so
two objects with the same entries are equal.
-/

namespace QueryBody

inductive Json
  | null
  | bool (value : Bool)
  | number (value : Number)
  | string (text : String)
  | array (items : List Json)
  | object (entries : List (String × Json))

namespace Json

/-- Puts an entry at the place of its key, and drops what was there. -/
def insertEntry (key : String) (value : Json) : List (String × Json) → List (String × Json)
  | [] => [(key, value)]
  | entry :: rest =>
      if key < entry.1 then (key, value) :: entry :: rest
      else if key = entry.1 then (key, value) :: rest
      else entry :: insertEntry key value rest

/-- The object that entries make one after the other. -/
def ofEntries (entries : List (String × Json)) : Json :=
  .object (entries.foldl (fun sorted entry => insertEntry entry.1 entry.2 sorted) [])

mutual

def chars : Json → List Char
  | null => ['n', 'u', 'l', 'l']
  | bool true => ['t', 'r', 'u', 'e']
  | bool false => ['f', 'a', 'l', 's', 'e']
  | number value => value.chars
  | string text => Quoted.encode text.toList
  | array items => '[' :: itemChars items ++ [']']
  | object entries => '{' :: entryChars entries ++ ['}']

def itemChars : List Json → List Char
  | [] => []
  | [item] => chars item
  | item :: rest => chars item ++ ',' :: itemChars rest

def entryChars : List (String × Json) → List Char
  | [] => []
  | [(key, value)] => Quoted.encode key.toList ++ ':' :: chars value
  | (key, value) :: rest =>
      Quoted.encode key.toList ++ ':' :: chars value ++ ',' :: entryChars rest

end

def text (json : Json) : String := String.ofList json.chars

mutual

/-- The same value, where numbers are compared as numbers. -/
def same : Json → Json → Bool
  | null, null => true
  | bool a, bool b => a == b
  | number a, number b => a.same b
  | string a, string b => a == b
  | array a, array b => sameItems a b
  | object a, object b => sameEntries a b
  | _, _ => false

def sameItems : List Json → List Json → Bool
  | [], [] => true
  | a :: as, b :: bs => same a b && sameItems as bs
  | _, _ => false

def sameEntries : List (String × Json) → List (String × Json) → Bool
  | [], [] => true
  | (key, a) :: as, (key', b) :: bs => key == key' && same a b && sameEntries as bs
  | _, _ => false

end

end Json
end QueryBody
