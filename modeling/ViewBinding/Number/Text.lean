import ViewBinding.Number.Shortest

/-!
# How numbers are shown

Whole numbers below `10 ^ 21` are shown exactly, without a fraction, and zero without a sign. Other
numbers are shown by their shortest digits, with an exponent from `10 ^ 21` on and below `10 ^ (-6)`.
-/

namespace ViewBinding

namespace Decimal

def digitText (d : Decimal) : List Char := decimalDigits d.digits

/-- Digits with a point among them, or behind a zero and a point. -/
def positional (d : Decimal) : List Char :=
  let digits := d.digitText
  let point := digits.length + d.exponent
  if point ≤ 0 then '0' :: '.' :: (List.replicate (-point).toNat '0' ++ digits)
  else if point < digits.length then digits.take point.toNat ++ '.' :: digits.drop point.toNat
  else digits ++ List.replicate (point.toNat - digits.length) '0'

/-- One digit before the point, and the exponent with its sign. -/
def scientific (d : Decimal) : List Char :=
  let digits := d.digitText
  let exponent := d.exponent + digits.length - 1
  let fraction := if digits.length ≤ 1 then [] else '.' :: digits.drop 1
  let sign := if exponent < 0 then '-' else '+'
  digits.take 1 ++ fraction ++ 'e' :: sign :: decimalDigits exponent.natAbs

end Decimal

namespace Binary64

/-- Magnitudes from here on are shown with an exponent. -/
def largeLimit : Binary64 := ofDecimal false 1 21

/-- Magnitudes below this one, other than zero, are shown with an exponent. -/
def smallLimit : Binary64 := ofDecimal false 1 (-6)

def needsExponent (x : Binary64) : Bool :=
  largeLimit.units ≤ x.units || (x.units < smallLimit.units && x.units != 0)

def isWhole (x : Binary64) : Bool := x.units % unitsPerOne == 0

/-- The whole part of a finite number's magnitude. -/
def wholePart (x : Binary64) : Nat := x.units / unitsPerOne

/-- The magnitude of a finite number as text. -/
def magnitudeText (x : Binary64) : List Char :=
  if x.needsExponent then (shortestDecimal x).scientific
  else if x.isWhole then decimalDigits x.wholePart
  else (shortestDecimal x).positional

def render (x : Binary64) : String :=
  if x.isNaN then "NaN"
  else if x.isInfinite then (if x.isNegative then "-Infinity" else "Infinity")
  else
    let sign := if x.isNegative && x.units != 0 then ['-'] else []
    String.ofList (sign ++ x.magnitudeText)

end Binary64
end ViewBinding
