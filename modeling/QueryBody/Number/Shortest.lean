/-!
# The shortest decimal of a binary number

Among the decimals that read back as the value `m · 2 ^ q`, `shortest?` takes one
with the fewest digits, and of those the nearest; an exact tie goes to the even
digit.  A decimal reads back as the value when it lies between the midpoints to
the value's two binary neighbours, and on a midpoint when `m` is even.  All
comparisons are of natural numbers.
-/

namespace QueryBody

/-- The decimal `digits · 10 ^ exponent`. -/
structure Decimal where
  digits : Nat
  exponent : Int
  deriving DecidableEq, Repr

namespace Decimal

/-- A positive binary value `m · 2 ^ q`; `isLowest` says that its lower neighbour is only half
as far away as its upper one. -/
structure Binary where
  m : Nat
  q : Int
  isLowest : Bool
  deriving DecidableEq, Repr

namespace Binary

/-- Quarters of the unit `2 ^ q` from zero to the value, and to the midpoints around it. -/
def centre (b : Binary) : Nat := 4 * b.m
def above (b : Binary) : Nat := 4 * b.m + 2
def below (b : Binary) : Nat := if b.isLowest then 4 * b.m - 1 else 4 * b.m - 2

/-- The decimal exponent of the value's first digit. -/
def leadingExponent (b : Binary) : Int :=
  let times := Nat.pow 2 b.q.toNat
  let parts := Nat.pow 2 (-b.q).toNat
  if b.m * times / parts = 0 then -((Nat.toDigits 10 (parts / b.m)).length : Int)
  else ((Nat.toDigits 10 (b.m * times / parts)).length : Int) - 1

end Binary

/-- A number of quarters over a number of steps of the grid `10 ^ g`, on a common scale. -/
def quarterScale (q g : Int) : Nat := Nat.pow 2 (q - 2).toNat * Nat.pow 10 (-g).toNat
def stepScale (q g : Int) : Nat := Nat.pow 2 (2 - q).toNat * Nat.pow 10 g.toNat

/-- A point of the grid `10 ^ g` reads back as the value. -/
def readsBack (b : Binary) (g : Int) (point : Nat) : Bool :=
  let low := b.below * quarterScale b.q g
  let high := b.above * quarterScale b.q g
  let here := point * stepScale b.q g
  if b.m % 2 = 0 then low ≤ here && here ≤ high else low < here && here < high

/-- The nearer of the value's two neighbours on the grid `10 ^ g` that reads back. -/
def onGrid? (b : Binary) (g : Int) : Option Decimal :=
  let value := b.centre * quarterScale b.q g
  let step := stepScale b.q g
  let low := value / step
  let high := low + 1
  match readsBack b g low, readsBack b g high with
  | false, false => none
  | true, false => some ⟨low, g⟩
  | false, true => some ⟨high, g⟩
  | true, true =>
      let toLow := value - low * step
      let toHigh := high * step - value
      if toLow < toHigh ∨ toLow = toHigh ∧ low % 2 = 0 then some ⟨low, g⟩ else some ⟨high, g⟩

/-- The grids tried, from the one above the leading digit down to seventeen digits. -/
def grids (b : Binary) : List Int :=
  (List.range 18).map fun (further : Nat) => b.leadingExponent + 1 - (further : Int)

/-- A decimal on the first grid with a point that reads back. -/
def shortest? (b : Binary) : Option Decimal := (grids b).findSome? (onGrid? b)

end Decimal
end QueryBody
