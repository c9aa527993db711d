import ViewBinding.Number.Binary64

/-!
# Shortest decimal text

The digits of a number are the fewest that read back as that number, and among those the nearest to
it, the larger of two equally near. They are found on the decimal grids of 1, 2, … 17 digits, in
exact arithmetic on quarter units: if a point of a grid reads back, so does one of the number's two
neighbours on that grid.
-/

namespace ViewBinding

/-- The decimal digits of a natural number, most significant first. -/
def decimalDigits (n : Nat) : List Char := Nat.toDigits 10 n

/-- A positive decimal number `digits * 10 ^ exponent`. -/
structure Decimal where
  digits : Nat
  exponent : Int
deriving DecidableEq, Repr

namespace Decimal

/-- Drops zeros at the end of the digits, `fuel` of them at most. -/
def strip : Nat → Decimal → Decimal
  | 0, d => d
  | fuel + 1, d =>
    if d.digits ≠ 0 ∧ d.digits % 10 = 0 then strip fuel ⟨d.digits / 10, d.exponent + 1⟩ else d

end Decimal

/-- The positive magnitudes that round to one number, as multiples of a quarter unit. -/
structure RoundingInterval where
  low : Nat
  value : Nat
  high : Nat
  /-- Whether the two ends round to the number, which they do when its significand is even. -/
  closed : Bool

namespace RoundingInterval

/-- The interval of a positive finite number. Below a power of two the grid is twice as fine. -/
def of (x : Binary64) : RoundingInterval :=
  let gap := Nat.pow 2 x.scale
  let below := if x.significand = Nat.pow 2 52 ∧ x.scale ≠ 0 then gap else 2 * gap
  { low := 4 * x.units - below
    value := 4 * x.units
    high := 4 * x.units + 2 * gap
    closed := x.significand % 2 == 0 }

/-- Whether `num / den` quarter units lie in the interval. -/
def holds (i : RoundingInterval) (num den : Nat) : Bool :=
  if i.closed then i.low * den ≤ num && num ≤ i.high * den
  else i.low * den < num && num < i.high * den

end RoundingInterval

def quarterUnitsPerOne : Nat := 4 * Binary64.unitsPerOne

/-- The numerator of a decimal in quarter units over `decimalDen`. -/
def decimalNum (digits : Nat) (exponent : Int) : Nat :=
  digits * Nat.pow 10 exponent.toNat * quarterUnitsPerOne

def decimalDen (exponent : Int) : Nat := Nat.pow 10 (-exponent).toNat

/-- The point of the grid of step `10 ^ exponent` that reads back as the number, if there is one:
of the two neighbours of the value the nearer, and of equally near ones the upper. -/
def gridPoint? (i : RoundingInterval) (exponent : Int) : Option Decimal :=
  let den := decimalDen exponent
  let step := decimalNum 1 exponent
  let lower := i.value * den / step
  let upper := lower + 1
  let lowerHolds := i.holds (lower * step) den && lower != 0
  let upperHolds := i.holds (upper * step) den
  if lowerHolds && upperHolds then
    if i.value * den - lower * step < upper * step - i.value * den then some ⟨lower, exponent⟩
    else some ⟨upper, exponent⟩
  else if lowerHolds then some ⟨lower, exponent⟩
  else if upperHolds then some ⟨upper, exponent⟩
  else none

/-- The first hit on the grids of step `10 ^ exponent`, a tenth of that, and so on. -/
def firstGridPoint (i : RoundingInterval) : Nat → Int → Decimal
  | 0, exponent => ⟨i.value * decimalDen exponent / decimalNum 1 exponent, exponent⟩
  | grids + 1, exponent =>
    match gridPoint? i exponent with
    | some d => d
    | none => firstGridPoint i grids (exponent - 1)

/-- The exponent of the leading decimal digit of `num / den`, for `num` not zero. -/
def leadingExponent (num den : Nat) : Int :=
  if den ≤ num then ((decimalDigits (num / den)).length : Int) - 1
  else -((decimalDigits ((den - 1) / num)).length : Int)

/-- The shortest decimal of a positive finite number, without zeros at the end. -/
def shortestDecimal (x : Binary64) : Decimal :=
  let i := RoundingInterval.of x
  (firstGridPoint i 17 (leadingExponent i.value quarterUnitsPerOne)).strip 400

end ViewBinding
