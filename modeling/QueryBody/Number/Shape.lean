/-!
# The shape of a number

The grammar of JSON numbers, `-? (0 | [1-9][0-9]*) (. [0-9]+)? ([eE] [+-]? [0-9]+)?`,
as an automaton.  `Shape.of` tells a complete number from one that more input
could complete, and both from text that no input can make a number.
-/

namespace QueryBody

/-- How a text relates to the grammar of numbers. -/
inductive Shape
  | complete
  /-- Not a number, but the beginning of one. -/
  | unfinished
  | invalid
  deriving DecidableEq, Repr

namespace Shape

/-- How far into the grammar a text has come. -/
inductive Progress
  | start
  | minus
  | zero
  | integer
  | point
  | fraction
  | exponent
  | exponentSign
  | exponentDigits
  deriving DecidableEq, Repr

/-- One more character; nothing, if the grammar has no place for it. -/
def Progress.next? (c : Char) : Progress → Option Progress
  | start =>
      if c = '-' then some minus else if c = '0' then some zero
      else if c.isDigit then some integer else none
  | minus => if c = '0' then some zero else if c.isDigit then some integer else none
  | zero =>
      if c = '.' then some point else if c = 'e' ∨ c = 'E' then some exponent else none
  | integer =>
      if c.isDigit then some integer else if c = '.' then some point
      else if c = 'e' ∨ c = 'E' then some exponent else none
  | point => if c.isDigit then some fraction else none
  | fraction =>
      if c.isDigit then some fraction else if c = 'e' ∨ c = 'E' then some exponent else none
  | exponent =>
      if c = '+' ∨ c = '-' then some exponentSign
      else if c.isDigit then some exponentDigits else none
  | exponentSign | exponentDigits => if c.isDigit then some exponentDigits else none

def Progress.run : Progress → List Char → Option Progress
  | state, [] => some state
  | state, c :: rest => (state.next? c).bind fun next => next.run rest

/-- What a text that ends here is. -/
def Progress.shape : Progress → Shape
  | zero | integer | fraction | exponentDigits => complete
  | minus | point | exponent | exponentSign => unfinished
  | start => invalid

def of (text : List Char) : Shape := ((Progress.start.run text).map Progress.shape).getD invalid

theorem Progress.run_append (state : Progress) (first second : List Char) :
    state.run (first ++ second) = (state.run first).bind fun next => next.run second := by
  induction first generalizing state with
  | nil => rfl
  | cons c rest ih =>
      simp only [List.cons_append, run]
      cases state.next? c with
      | none => rfl
      | some next => exact ih next

end Shape
end QueryBody
