import QueryBody.Number.Basic

/-!
# Reading numbers

A literal is split into its parts; its digits are gathered into a significand of
64 bits, and a power of ten makes up for the digits that do not fit.  A literal
without a fraction and an exponent whose digits all fit is an integer; every other
one is a float, obtained from the significand by one multiplication or division
with a power of ten.
-/

namespace QueryBody

/-- The parts of a number literal. -/
structure Literal where
  isNegative : Bool
  whole : List Char
  /-- The digits after the point, if there is one. -/
  fraction : Option (List Char)
  /-- The sign and the digits of the exponent, if there is one. -/
  exponent : Option (Bool × List Char)
  deriving DecidableEq, Repr

namespace Literal

def splitExponent : List Char → Option (Bool × List Char)
  | e :: rest =>
      if e = 'e' ∨ e = 'E' then
        match rest with
        | '-' :: digits => some (true, digits)
        | '+' :: digits => some (false, digits)
        | digits => some (false, digits)
      else none
  | [] => none

def splitUnsigned (isNegative : Bool) (text : List Char) : Literal :=
  let whole := text.takeWhile Char.isDigit
  match text.dropWhile Char.isDigit with
  | '.' :: rest =>
      ⟨isNegative, whole, some (rest.takeWhile Char.isDigit),
        splitExponent (rest.dropWhile Char.isDigit)⟩
  | rest => ⟨isNegative, whole, none, splitExponent rest⟩

def split : List Char → Literal
  | '-' :: rest => splitUnsigned true rest
  | text => splitUnsigned false text

def digitValue (c : Char) : Nat := c.toNat - '0'.toNat

def digitsValue (digits : List Char) : Nat := digits.foldl (fun n c => n * 10 + digitValue c) 0

/-- Appends digits to a significand until one does not fit into 64 bits; the digits from there
on are left over. -/
def gather (significand : Nat) : List Char → Nat × List Char
  | [] => (significand, [])
  | c :: rest =>
      if significand * 10 + digitValue c < UInt64.size then
        gather (significand * 10 + digitValue c) rest
      else (significand, c :: rest)

/-- The float nearest to a significand. -/
def ofSignificand (significand : Nat) : Float := significand.toUInt64.toFloat

/-- The float nearest to a power of ten. -/
def powerOfTen (exponent : Nat) : Float := Float.ofScientific 1 false exponent

/-- Divides by a power of ten, in steps of at most `10 ^ 308`. -/
def divide (value : Float) (exponent : Nat) : Float :=
  if exponent ≤ 308 then value / powerOfTen exponent
  else if value == 0 then value
  else divide (value / powerOfTen 308) (exponent - 308)
termination_by exponent

/-- A significand times a power of ten; nothing, if that is too large. -/
def scale (significand : Nat) (exponent : Int) : Option Float :=
  let value := ofSignificand significand
  if exponent < 0 then some (divide value exponent.natAbs)
  else if 308 < exponent then if value == 0 then some value else none
  else
    let product := value * powerOfTen exponent.natAbs
    if product.isInf then none else some product

/-- The largest exponent that is taken at its value. -/
def exponentLimit : Nat := 2147483647

/-- Exponents beyond 32 bits stay at the end of their range. -/
def saturate (exponent : Int) : Int :=
  max (-(exponentLimit : Int) - 1) (min (exponentLimit : Int) exponent)

/-- The significand of a literal and the power of ten that its digits imply. -/
def significand (literal : Literal) : Nat × Int :=
  let (whole, leftOver) := gather 0 literal.whole
  let digits := literal.fraction.getD []
  let (all, ignored) := gather whole digits
  (all, (leftOver.length : Int) - ((digits.length - ignored.length : Nat) : Int))

/-- The absolute value of a literal that is no integer. -/
def magnitude? (literal : Literal) : Option Float :=
  let (significand, shift) := literal.significand
  match literal.exponent with
  | none => scale significand shift
  | some (isNegative, digits) =>
      let exponent := digitsValue digits
      if exponentLimit < exponent then
        if significand = 0 ∨ isNegative then some 0 else none
      else if isNegative then scale significand (saturate (shift - exponent))
      else scale significand (saturate (shift + exponent))

/-- A literal without fraction and exponent whose digits fit into 64 bits. -/
def isWhole (literal : Literal) : Bool :=
  literal.fraction.isNone && literal.exponent.isNone && digitsValue literal.whole < UInt64.size

/-- The number of a literal; nothing, if it is out of range. -/
def number? (literal : Literal) : Option Number :=
  let value := digitsValue literal.whole
  if literal.isWhole && (!literal.isNegative || (0 < value && value ≤ UInt64.size / 2)) then
    some (.integer (if literal.isNegative then -(value : Int) else value))
  else literal.magnitude?.map fun x => .float (if literal.isNegative then -x else x)

end Literal

/-- Reads a text of the shape of a number. -/
def Numeral.read (text : List Char) : Numeral :=
  match (Literal.split text).number? with
  | some number => .finite number
  | none => .outOfRange (String.ofList text)

end QueryBody
