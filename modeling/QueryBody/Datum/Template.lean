import QueryBody.Datum.Basic
import QueryBody.Number.Writing
import QueryBody.Text.Quoted

/-!
# Templates

The template of a datum is compact JSON with a blank inside the braces of every
object, and with a marker around the name of every parameter.  A slot without a
value has no template, and neither has a body without a value.
-/

namespace QueryBody

inductive TemplateError
  /-- The first property without a value, from the outside in and from left to right. -/
  | missingValue (key : String)
  | emptyBody
  deriving DecidableEq, Repr

namespace TemplateError

def message : TemplateError → String
  | missingValue key => "property `" ++ key ++ "` has no value"
  | emptyBody => "nothing to render: the body has no value"

end TemplateError

/-- The markers around the name of a parameter. -/
def parameterOpening : List Char := "\x7b\x7b#toJson\x7d\x7d".toList
def parameterClosing : List Char := "\x7b\x7b/toJson\x7d\x7d".toList

def Scalar.templateChars : Scalar → List Char
  | null => ['n', 'u', 'l', 'l']
  | bool true => ['t', 'r', 'u', 'e']
  | bool false => ['f', 'a', 'l', 's', 'e']
  | number value => value.text.toList
  | string text => Quoted.encode text.toList
  | parameter name => parameterOpening ++ name.toList ++ parameterClosing

namespace Datum

mutual

def templateChars : Datum → Except TemplateError (List Char)
  | scalar content => .ok content.templateChars
  | array items => do
      let items ← itemTemplates items
      return '[' :: [','].intercalate items ++ [']']
  | object slots => do
      let pairs ← slotTemplates slots
      return '{' :: ' ' :: [','].intercalate pairs ++ [' ', '}']

def itemTemplates : List Datum → Except TemplateError (List (List Char))
  | [] => .ok []
  | item :: rest => do
      let first ← templateChars item
      let others ← itemTemplates rest
      return first :: others

/-- The templates of the slots of an object, each with its key. -/
def slotTemplates : List (String × Option Datum) → Except TemplateError (List (List Char))
  | [] => .ok []
  | (key, none) :: _ => .error (.missingValue key)
  | (key, some value) :: rest => do
      let first ← templateChars value
      let others ← slotTemplates rest
      return (Quoted.encode key.toList ++ ':' :: first) :: others

end

def template (datum : Datum) : Except TemplateError String :=
  datum.templateChars.map String.ofList

end Datum
end QueryBody
