import QueryBody.Body
import QueryBody.Position

/-!
# Checking queries

A query is a complete body.  A query with mistakes is answered with one item for
each of them, in the form in which a search service lists errors.
-/

namespace QueryBody

/-- A mistake as it is reported to clients. -/
structure ErrorItem where
  status : Int
  title : String
  detail : String
  /-- Free data, sorted by key. -/
  source : List (String × Json)

/-- The mistakes of a query in the order of the body. -/
structure QueryErrors where
  items : List ErrorItem

namespace ErrorItem

/-- An item that has only a title. -/
def titled (title : String) : ErrorItem := ⟨-1, title, "", []⟩

/-- The item of a diagnostic: the position it points at, and its message. -/
def ofDiagnostic (source : String) (diagnostic : Diagnostic) : ErrorItem :=
  let position := match diagnostic.token with
    | some token => Position.ofOffset source token.span.start
    | none => Position.ofEnd source
  titled (position.text ++ " " ++ diagnostic.message)

/-- The item of a query that is wrong for no reason given. -/
def syntaxError : ErrorItem := titled "0:0:0 Syntax Error"

def json (item : ErrorItem) : Json :=
  .ofEntries [("status", .number (.integer item.status)), ("title", .string item.title),
    ("detail", .string item.detail), ("source", .object item.source)]

end ErrorItem

namespace QueryErrors

/-- The mistakes of a query that is wrong: there is always one. -/
def ofItems (items : List ErrorItem) : QueryErrors :=
  ⟨if items.isEmpty then [.syntaxError] else items⟩

def message (errors : QueryErrors) : String :=
  "query body has " ++ errors.items.length.repr ++ " error(s)"

/-- The written form of the items, a bare list. -/
def json (errors : QueryErrors) : Json := .array (errors.items.map ErrorItem.json)

end QueryErrors

/-- The parsed body of a query without mistakes, or the mistakes. -/
def checkQuery (source : String) : Except QueryErrors Body :=
  let body := Options.group.parse source
  if body.hasError then
    .error (.ofItems (body.diagnostics.toList.map (ErrorItem.ofDiagnostic source)))
  else .ok body

end QueryBody
