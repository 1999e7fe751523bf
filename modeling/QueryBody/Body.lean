import QueryBody.Datum.Json
import QueryBody.Datum.Template
import QueryBody.Parser.Options
import QueryBody.Parser.Reader
import QueryBody.Value.Tree

/-!
# Parsed bodies

Parsing never fails: it makes a value of what it can read and a diagnostic of every
problem.  A body that may be a fragment can also turn out to be cut off.
-/

namespace QueryBody

structure Body where
  /-- The value of the body; nothing, if it is empty or no value could be read. -/
  root : Option Value
  diagnostics : Diagnostics
  /-- The body is a fragment, and what is missing at its end has been left out. -/
  isCut : Bool

/-- What parsing a body under these options depends on. -/
def Options.setting (options : Options) (source : String) : Setting :=
  ⟨options.allowsFragments, options.nestingLimit, Utf8.size source.toList⟩

def Body.ofOutcome (outcome : Reader.Outcome) : Body :=
  ⟨outcome.root, ⟨outcome.reports.reverse⟩, outcome.isCut⟩

/-- What can be read of a body, and a diagnostic for everything that is wrong with it. -/
def Options.parse (options : Options) (source : String) : Body :=
  let setting := options.setting source
  .ofOutcome ((Reader.start.run setting (lex source)).finish setting options.isGroup)

namespace Body

def hasError (body : Body) : Bool := !body.diagnostics.isEmpty

def tree (body : Body) : Tree := ⟨body.root⟩

def datum? (body : Body) : Option Datum := body.root.map Value.datum

/-- The JSON view of a body; nothing, if it has no root or a property has no value. -/
def json? (body : Body) : Option Json := body.datum?.bind Datum.json?

def template (body : Body) : Except TemplateError String :=
  match body.datum? with
  | some datum => datum.template
  | none => .error .emptyBody

end Body
end QueryBody
