/-!
# Double precision numbers

The IEEE 754 binary64 format over its 64-bit words. A finite number is a whole number of *units*
of `2 ^ -1074`, the least positive one, so that every operation is exact arithmetic on natural
numbers followed by one rounding (`Binary64.ofUnits`): to the nearest number, a half to the even
neighbour, and to infinity beyond the largest one.
-/

namespace ViewBinding

/-- A double precision number, given by its word. -/
structure Binary64 where
  bits : UInt64
deriving DecidableEq, Inhabited

namespace Binary64

/-- How many units make one: every finite number is a multiple of `1 / unitsPerOne`. -/
def unitsPerOne : Nat := Nat.pow 2 1074

/-- The word of infinity; greater magnitudes are not numbers. -/
def infinityWord : Nat := 0x7ff0000000000000

def isNegative (x : Binary64) : Bool := Nat.pow 2 63 ≤ x.bits.toNat

def magnitudeWord (x : Binary64) : Nat := x.bits.toNat % Nat.pow 2 63

def isNaN (x : Binary64) : Bool := infinityWord < x.magnitudeWord

def isInfinite (x : Binary64) : Bool := x.magnitudeWord == infinityWord

/-- A number that is neither infinite nor undefined. -/
def isFinite (x : Binary64) : Bool := x.magnitudeWord < infinityWord

/-- The exponent above the least one: consecutive significands are `2 ^ scale` units apart. -/
def scale (x : Binary64) : Nat := x.magnitudeWord / Nat.pow 2 52 - 1

/-- The significand: below `2 ^ 52` at the least exponent, and from there to `2 ^ 53` at the rest. -/
def significand (x : Binary64) : Nat := x.magnitudeWord - x.scale * Nat.pow 2 52

/-- The magnitude of a finite number in units. -/
def units (x : Binary64) : Nat := x.significand * Nat.pow 2 x.scale

/-- Divides to the nearest whole number, a half to the even one. -/
def divHalfEven (num den : Nat) : Nat :=
  let quotient := num / den
  let rest := num % den
  if 2 * rest < den then quotient
  else if 2 * rest = den then quotient + quotient % 2
  else quotient + 1

/-- The number with a given sign and magnitude word. -/
def ofMagnitude (negative : Bool) (word : Nat) : Binary64 :=
  ⟨UInt64.ofNat (if negative then Nat.pow 2 63 + word else word)⟩

/-- The scale at which a magnitude of so many whole units is rounded. -/
def scaleFor (wholeUnits : Nat) : Nat :=
  if wholeUnits < Nat.pow 2 53 then 0 else wholeUnits.log2 - 52

/-- The word of `num / den` units: a significand that is rounded up to `2 ^ 53` carries into the
exponent, which is the next word. -/
def roundWord (num den : Nat) : Nat :=
  let s := scaleFor (num / den)
  min (s * Nat.pow 2 52 + divHalfEven num (den * Nat.pow 2 s)) infinityWord

/-- The number nearest to `num / den` units with a given sign. -/
def ofUnits (negative : Bool) (num den : Nat) : Binary64 :=
  ofMagnitude negative (roundWord num den)

def infinity (negative : Bool) : Binary64 := ofMagnitude negative infinityWord

def nan : Binary64 := ⟨0x7ff8000000000000⟩

def zero (negative : Bool) : Binary64 := ofMagnitude negative 0

def ofNat (n : Nat) : Binary64 := ofUnits false (n * unitsPerOne) 1

/-- The number nearest to an integer; zero is positive. -/
def ofInt (n : Int) : Binary64 := ofUnits (n < 0) (n.natAbs * unitsPerOne) 1

def neg (x : Binary64) : Binary64 := ofMagnitude (!x.isNegative) x.magnitudeWord

/-- The finite number in units, with its sign. -/
def signedUnits (x : Binary64) : Int :=
  if x.isNegative then -(x.units : Int) else x.units

/-- The sum. Opposite infinities have none; a zero sum is negative when both terms are. -/
def add (x y : Binary64) : Binary64 :=
  if x.isNaN || y.isNaN then nan
  else if x.isInfinite then
    if y.isInfinite && x.isNegative != y.isNegative then nan else x
  else if y.isInfinite then y
  else
    let sum := x.signedUnits + y.signedUnits
    if sum = 0 then zero (x.isNegative && y.isNegative)
    else ofUnits (sum < 0) sum.natAbs 1

def mul (x y : Binary64) : Binary64 :=
  ofUnits (x.isNegative != y.isNegative) (x.units * y.units) unitsPerOne

/-- The quotient of a finite number by a finite one other than zero. -/
def div (x y : Binary64) : Binary64 :=
  ofUnits (x.isNegative != y.isNegative) (x.units * unitsPerOne) y.units

/-- The largest decimal exponent of a finite number, and so the bound of `powerOfTen`. -/
def maxTenPower : Nat := 308

def powerOfTen (exponent : Nat) : Binary64 := ofNat (Nat.pow 10 exponent)

/-- The number nearest to `digits * 10 ^ exponent`. Exponents far outside the range of the format
are cut off first: from `10 ^ 400` on all is infinite, and below `10 ^ (-400)` all is zero. -/
def ofDecimal (negative : Bool) (digits : Nat) (exponent : Int) : Binary64 :=
  if digits = 0 then zero negative
  else if 400 < exponent then infinity negative
  else if exponent < -(401 + digits.log2 : Int) then zero negative
  else if exponent < 0 then ofUnits negative (digits * unitsPerOne) (Nat.pow 10 exponent.natAbs)
  else ofUnits negative (digits * Nat.pow 10 exponent.toNat * unitsPerOne) 1

/-- Equality of numbers: an undefined one differs from itself, and the two zeros are equal. -/
def numEq (x y : Binary64) : Bool :=
  if x.isNaN || y.isNaN then false
  else x.bits == y.bits || (x.magnitudeWord == 0 && y.magnitudeWord == 0)

end Binary64
end ViewBinding
