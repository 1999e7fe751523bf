import QueryBody.Number.Basic
import QueryBody.Number.Shortest

/-!
# Writing numbers

Integers are written plainly.  A float is written with its shortest digits:
positionally and with a fraction while the exponent of its first digit is from -5
to 15, and otherwise with one digit before the point and a signed exponent.
-/

namespace QueryBody

namespace Decimal

/-- The least and the greatest exponent that are written positionally. -/
def leastPositional : Int := -5
def greatestPositional : Int := 15

def exponentText (exponent : Int) : List Char :=
  'e' :: (if exponent < 0 then '-' else '+') :: Nat.toDigits 10 exponent.natAbs

/-- Digits with a point after `places` of them; there are always digits on both sides. -/
def positional (digits : List Char) (places : Nat) : List Char :=
  let fraction := digits.drop places
  digits.take places ++ List.replicate (places - digits.length) '0' ++
    '.' :: (if fraction.isEmpty then ['0'] else fraction)

/-- The first digit, a point and the others if there are any, and the exponent. -/
def scientific (digits : List Char) (exponent : Int) : List Char :=
  match digits with
  | [digit] => digit :: exponentText exponent
  | digit :: others => digit :: '.' :: others ++ exponentText exponent
  | [] => []

def text (decimal : Decimal) : List Char :=
  let digits := Nat.toDigits 10 decimal.digits
  let exponent := decimal.exponent + digits.length - 1
  if exponent < leastPositional ∨ greatestPositional < exponent then scientific digits exponent
  else if exponent < 0 then
    '0' :: '.' :: List.replicate (exponent.natAbs - 1) '0' ++ digits
  else positional digits (exponent.natAbs + 1)

/-- The number of floats that share a sign and an exponent: two to the power of 52. -/
def Binary.mantissas : Nat := 4503599627370496

/-- The absolute value of a finite float other than zero. -/
def Binary.ofFloat (value : Float) : Binary :=
  let bits := value.toBits.toNat
  let mantissa := bits % mantissas
  let biased := bits / mantissas % 2048
  if biased = 0 then ⟨mantissa, -1074, false⟩
  else ⟨mantissas + mantissa, Int.ofNat biased - 1075, mantissa = 0 ∧ 1 < biased⟩

end Decimal

namespace Number

def floatMagnitude (value : Float) : List Char :=
  match Decimal.shortest? (.ofFloat value) with
  | some decimal => decimal.text
  | none => ['0', '.', '0']

def chars : Number → List Char
  | integer value => (if value < 0 then ['-'] else []) ++ Nat.toDigits 10 value.natAbs
  | float value =>
      (if value.toBits.toNat < UInt64.size / 2 then [] else ['-']) ++ floatMagnitude value

def text (number : Number) : String := String.ofList number.chars

end Number

/-- The text of a literal's value; out of range it is the literal. -/
def Numeral.text : Numeral → String
  | finite number => number.text
  | outOfRange text => text

end QueryBody
