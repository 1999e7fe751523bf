import QueryBody.Interchange.Plain
import QueryBody.Query

/-!
# Records in plain JSON

The written forms of the records that clients exchange, and how they are read back.
-/

namespace QueryBody

namespace ErrorItem

/-- An item at a value that nests at most `room` deep. -/
def ofValue? (text : String) (room : Nat) (value : Value) : Option ErrorItem :=
  match room, Plain.fields? text ["status", "title", "detail", "source"] value with
  | room + 1, some [status, title, detail, source] => do
      let status ← Plain.integer? Int32.minValue.toInt Int32.maxValue.toInt status
      let title ← Plain.string? text title
      let detail ← Plain.string? text detail
      match ← Plain.json? text room source with
      | .object entries => return ⟨status, title, detail, entries⟩
      | _ => none
  | _, _ => none

def read? (text : String) : Option ErrorItem :=
  (Plain.root? text).bind (ofValue? text Plain.greatestNesting)

end ErrorItem

namespace QueryErrors

def read? (text : String) : Option QueryErrors :=
  match Plain.root? text with
  | some (.array _ items) =>
      (items.mapM (ErrorItem.ofValue? text (Plain.greatestNesting - 1))).map QueryErrors.mk
  | _ => none

end QueryErrors

namespace Position

def json (position : Position) : Json :=
  .ofEntries [("row", .number (.integer position.row)), ("col", .number (.integer position.column)),
    ("char_offset", .number (.integer position.characters))]

def read? (text : String) : Option Position :=
  match (Plain.root? text).bind (Plain.fields? text ["row", "col", "char_offset"]) with
  | some [row, column, characters] => do
      let row ← Plain.natural? row
      let column ← Plain.natural? column
      let characters ← Plain.natural? characters
      return ⟨row, column, characters⟩
  | _ => none

end Position

structure Parameter where
  name : String
  deriving DecidableEq, Repr

namespace Parameter

def json (parameter : Parameter) : Json := .ofEntries [("name", .string parameter.name)]

def read? (text : String) : Option Parameter :=
  match (Plain.root? text).bind (Plain.fields? text ["name"]) with
  | some [name] => (Plain.string? text name).map Parameter.mk
  | _ => none

end Parameter

namespace JsonType

def json (type : JsonType) : Json := .string type.name

/-- Reads the name of a type, alone or as the only property of an object, with the value null. -/
def read? (text : String) : Option JsonType :=
  match Plain.root? text with
  | some (.object _ [.pair key (.scalar _ .null)]) =>
      (Plain.string? text key.value).bind JsonType.ofName?
  | some value => (Plain.string? text value).bind JsonType.ofName?
  | none => none

end JsonType
end QueryBody
