import QueryBody.Diagnostic.Problem
import QueryBody.Token.Basic

/-!
# Diagnostics

A diagnostic is a problem at a place, with its message, the other places it is
about and a fix if there is one.  `Diagnostics` is the collection that a parse
fills.
-/

namespace QueryBody

/-- A change that mends a problem: the text to put in place of the reported one. -/
structure Fix where
  description : String
  replacement : String
  deriving DecidableEq, Repr

/-- Another place that a diagnostic is about. -/
structure Related where
  message : String
  span : Span
  deriving DecidableEq, Repr

structure Diagnostic where
  problem : Problem
  span : Span
  /-- The offending token; at the end of the input there is none. -/
  token : Option Token
  message : String
  related : List Related
  fix : Option Fix
  deriving DecidableEq, Repr

namespace Diagnostic

/-- A problem at a place, in its plain wording. -/
def plain (problem : Problem) (span : Span) (token : Option Token) : Diagnostic :=
  ⟨problem, span, token, problem.plainMessage, [], none⟩

/-- Words the message with a detail. -/
def withDetail (diagnostic : Diagnostic) (detail : String) : Diagnostic :=
  { diagnostic with message := diagnostic.problem.detailedMessage detail }

/-- Adds a related place after the others. -/
def relatedTo (diagnostic : Diagnostic) (message : String) (span : Span) : Diagnostic :=
  { diagnostic with related := diagnostic.related ++ [⟨message, span⟩] }

def withFix (diagnostic : Diagnostic) (description replacement : String) : Diagnostic :=
  { diagnostic with fix := some ⟨description, replacement⟩ }

/-- A problem of a token. -/
def ofToken (problem : Problem) (token : Token) : Diagnostic :=
  plain problem token.span (some token)

/-- A problem at the end of an input. -/
def atEnd (problem : Problem) (offset : Nat) : Diagnostic := plain problem (.point offset) none

/-- The offset a diagnostic points at. -/
def offset (diagnostic : Diagnostic) : Nat := diagnostic.span.start

def spanText (separator : String) (span : Span) : String :=
  span.start.repr ++ separator ++ span.stop.repr

/-- A diagnostic in one line. -/
def text (diagnostic : Diagnostic) : String :=
  "error at " ++ spanText ".." diagnostic.span ++ ": " ++ diagnostic.message ++
    (match diagnostic.fix with
      | some fix => " (fix: " ++ fix.description ++ ")"
      | none => "") ++
    "".intercalate (diagnostic.related.map fun related =>
      " (related: " ++ related.message ++ " at " ++ spanText ".." related.span ++ ")")

end Diagnostic

/-- Diagnostics in the order of their reports. -/
structure Diagnostics where
  toList : List Diagnostic
  deriving DecidableEq, Repr

namespace Diagnostics

def empty : Diagnostics := ⟨[]⟩

def emit (diagnostics : Diagnostics) (diagnostic : Diagnostic) : Diagnostics :=
  ⟨diagnostics.toList ++ [diagnostic]⟩

def append (first second : Diagnostics) : Diagnostics := ⟨first.toList ++ second.toList⟩

def size (diagnostics : Diagnostics) : Nat := diagnostics.toList.length

def isEmpty (diagnostics : Diagnostics) : Bool := diagnostics.toList.isEmpty

def has (diagnostics : Diagnostics) (problem : Problem) : Bool :=
  diagnostics.toList.any (·.problem = problem)

def problems (diagnostics : Diagnostics) : List Problem := diagnostics.toList.map (·.problem)

/-- The problems by priority; of equal ones the first reported comes first. -/
def problemsByPriority (diagnostics : Diagnostics) : List Problem :=
  diagnostics.problems.mergeSort fun first second => first.rank ≤ second.rank

end Diagnostics
end QueryBody
