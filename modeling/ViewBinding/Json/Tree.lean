import ViewBinding.Value

/-!
# JSON trees

JSON as it is written: members in their order with repetitions, and numbers by their digits. A tree
may hold what no value can: numbers out of range, strings with half a surrogate pair, and nesting
without a bound. `Json.toValue?` refuses these.
-/

namespace ViewBinding

/-- A number as it is written. -/
structure NumberText where
  negative : Bool
  /-- The digits before the point. -/
  whole : List Nat
  /-- The digits behind the point, if there is one. -/
  fraction : Option (List Nat)
  /-- The sign and the digits of the exponent, if there is one. -/
  exponent : Option (Bool × List Nat)
deriving DecidableEq, Repr

/-- JSON as it is written. A string with half a surrogate pair has no text. -/
inductive Json where
  | null
  | bool (b : Bool)
  | number (n : NumberText)
  | string (s : Option String)
  | array (items : List Json)
  | object (members : List (Option String × Json))
deriving Inhabited

namespace NumberText

/-- Takes digits into a significand as long as it stays below `2 ^ 64`, and counts them. -/
def takeDigits : Nat → List Nat → Nat × Nat
  | significand, [] => (significand, 0)
  | significand, d :: rest =>
    if significand * 10 + d < Nat.pow 2 64 then
      let (result, taken) := takeDigits (significand * 10 + d) rest
      (result, taken + 1)
    else (significand, 0)

def digitsValue (digits : List Nat) : Nat := digits.foldl (fun n d => n * 10 + d) 0

/-- Multiplies by a power of ten in double arithmetic, dividing by `10 ^ 308` at most `steps` times
first. Nothing too large is a number. -/
def scaleByTen : Nat → Binary64 → Int → Option Binary64
  | 0, x, _ => some x
  | steps + 1, x, exponent =>
    if exponent.natAbs ≤ Binary64.maxTenPower then
      if exponent < 0 then some (x.div (.powerOfTen exponent.natAbs))
      else
        let product := x.mul (.powerOfTen exponent.natAbs)
        if product.isInfinite then none else some product
    else if x.magnitudeWord = 0 then some x
    else if 0 ≤ exponent then none
    else
      scaleByTen steps (x.div (.powerOfTen Binary64.maxTenPower))
        (exponent + Binary64.maxTenPower)

def withSign (negative : Bool) (x : Binary64) : Binary64 := if negative then x.neg else x

def exponentLimit : Nat := Nat.pow 2 31 - 1

/-- The number that is written: the leading digits that fit into 64 bits, scaled by a power of ten.
Nothing that overflows is a number. -/
def toBinary64? (n : NumberText) : Option Binary64 := do
  let (wholePart, taken) := takeDigits 0 n.whole
  let dropped := n.whole.length - taken
  if n.fraction.isNone && n.exponent.isNone && dropped == 0 then
    return withSign n.negative (.ofNat wholePart)
  let (significand, places) := takeDigits wholePart (n.fraction.getD [])
  let start : Int := (dropped : Int) - places
  match n.exponent with
  | none => return withSign n.negative (← scaleByTen 3 (.ofNat significand) start)
  | some (down, digits) =>
    let size := digitsValue digits
    if exponentLimit < size then
      if significand ≠ 0 && !down then none
      else return Binary64.zero n.negative
    let exponent := if down then start - size else start + size
    return withSign n.negative (← scaleByTen 3 (.ofNat significand) exponent)

end NumberText

namespace Json

/-- How deep arrays and objects may be nested. -/
def maxDepth : Nat := 127

mutual

/-- The value of a tree whose arrays and objects are nested at most so deep. Of members with the
same name the last one counts. -/
def toValue? (depth : Nat) : Json → Option Value
  | null => some .null
  | bool b => some (.bool b)
  | number n => n.toBinary64?.map .number
  | string s => s.map .string
  | array items =>
    match depth with
    | 0 => none
    | inner + 1 => (itemsToValues? inner items).map .list
  | object members =>
    match depth with
    | 0 => none
    | inner + 1 => (membersToEntries? inner members).map fun entries => .map (Dict.ofList entries)

def itemsToValues? (depth : Nat) : List Json → Option (List Value)
  | [] => some []
  | item :: rest => do
    let value ← toValue? depth item
    let values ← itemsToValues? depth rest
    return value :: values

def membersToEntries? (depth : Nat) : List (Option String × Json) → Option (List (String × Value))
  | [] => some []
  | (name, member) :: rest => do
    let name ← name
    let value ← toValue? depth member
    let entries ← membersToEntries? depth rest
    return (name, value) :: entries

end

end Json
end ViewBinding
