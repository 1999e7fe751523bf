/-!
# Numbers

A number is an exact integer or a binary fraction; a literal whose value is too
large for either keeps its text.
-/

namespace QueryBody

inductive Number
  | integer (value : Int)
  | float (value : Float)
  deriving DecidableEq

/-- A number literal after reading. -/
inductive Numeral
  | finite (number : Number)
  /-- A literal beyond the range of numbers, as it was written. -/
  | outOfRange (text : String)
  deriving DecidableEq

/-- Numerical agreement: an integer never agrees with a float, and `0.0` agrees with `-0.0`. -/
def Number.same : Number → Number → Bool
  | integer a, integer b => a == b
  | float a, float b => a == b
  | _, _ => false

def Numeral.same : Numeral → Numeral → Bool
  | finite a, finite b => a.same b
  | outOfRange a, outOfRange b => a == b
  | _, _ => false

/-- The number of a literal, if it has one. -/
def Numeral.number? : Numeral → Option Number
  | finite number => some number
  | outOfRange _ => none

end QueryBody
