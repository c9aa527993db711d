import ViewBinding.Json.Tree
import ViewBinding.Store
import ViewBinding.Text.Search

/-!
# Reading JSON

Each reader takes a text and returns what it has read with the rest of the text. Only the four JSON
blanks separate tokens, and no comma may stand behind the last item. The fuel bounds the number of
nested steps; each takes a character, so the length of the text is enough.
-/

namespace ViewBinding.Json

def isBlank (c : Char) : Bool := c == ' ' || c == '\n' || c == '\t' || c == '\r'

def skipBlanks (text : List Char) : List Char := text.dropWhile isBlank

def hexValue? (c : Char) : Option Nat :=
  if c.isDigit then some (c.toNat - '0'.toNat)
  else if 'a' ≤ c ∧ c ≤ 'f' then some (c.toNat - 'a'.toNat + 10)
  else if 'A' ≤ c ∧ c ≤ 'F' then some (c.toNat - 'A'.toNat + 10)
  else none

/-- A part of a string: a character, or a 16-bit unit that was written by its number. -/
inductive StringPart where
  | char (c : Char)
  | unit (n : Nat)
deriving DecidableEq, Repr

def readEscape : List Char → Option (StringPart × List Char)
  | '"' :: rest => some (.char '"', rest)
  | '\\' :: rest => some (.char '\\', rest)
  | '/' :: rest => some (.char '/', rest)
  | 'b' :: rest => some (.char '\x08', rest)
  | 'f' :: rest => some (.char '\x0c', rest)
  | 'n' :: rest => some (.char '\n', rest)
  | 'r' :: rest => some (.char '\r', rest)
  | 't' :: rest => some (.char '\t', rest)
  | 'u' :: a :: b :: c :: d :: rest => do
    let unit := ((← hexValue? a) * 16 + (← hexValue? b)) * 256 + (← hexValue? c) * 16 + (← hexValue? d)
    return (.unit unit, rest)
  | _ => none

/-- Reads the parts of a string up to its closing quote. -/
def readParts : Nat → List Char → Option (List StringPart × List Char)
  | 0, _ => none
  | _ + 1, [] => none
  | fuel + 1, c :: rest =>
    if c = '"' then some ([], rest)
    else if c = '\\' then do
      let (part, rest) ← readEscape rest
      let (parts, rest) ← readParts fuel rest
      return (part :: parts, rest)
    else if c.toNat < 0x20 then none
    else do
      let (parts, rest) ← readParts fuel rest
      return (.char c :: parts, rest)

/-- Whether a unit is the first of a surrogate pair. -/
def isHighSurrogate (unit : Nat) : Bool := 0xd800 ≤ unit && unit ≤ 0xdbff

/-- Whether a unit is the second of a surrogate pair. -/
def isLowSurrogate (unit : Nat) : Bool := 0xdc00 ≤ unit && unit ≤ 0xdfff

def pairChar (high low : Nat) : Char :=
  Char.ofNat (0x10000 + (high - 0xd800) * 0x400 + (low - 0xdc00))

/-- The text of the parts of a string, unless a surrogate stands alone. -/
def partsText? : List StringPart → Option (List Char)
  | [] => some []
  | .char c :: rest => (partsText? rest).map (c :: ·)
  | .unit high :: .unit low :: rest =>
    if isHighSurrogate high then
      if isLowSurrogate low then (partsText? rest).map (pairChar high low :: ·) else none
    else if isLowSurrogate high then none
    else (partsText? (.unit low :: rest)).map (Char.ofNat high :: ·)
  | .unit n :: rest =>
    if isHighSurrogate n || isLowSurrogate n then none
    else (partsText? rest).map (Char.ofNat n :: ·)

/-- Reads a string behind its opening quote. -/
def readString (text : List Char) : Option (Option String × List Char) := do
  let (parts, rest) ← readParts text.length text
  return ((partsText? parts).map String.ofList, rest)

/-- The digits at the start of a text, and the rest. -/
def readDigits (text : List Char) : List Nat × List Char :=
  ((text.takeWhile Char.isDigit).map fun c => c.toNat - '0'.toNat, text.dropWhile Char.isDigit)

/-- Reads the digits behind a point, if there is one. -/
def readFraction : List Char → Option (Option (List Nat) × List Char)
  | '.' :: text =>
    match readDigits text with
    | ([], _) => none
    | (digits, rest) => some (some digits, rest)
  | text => some (none, text)

/-- Reads an exponent behind its mark: whether it is negative, and its digits. -/
def readExponentDigits (text : List Char) : Option (Option (Bool × List Nat) × List Char) :=
  let (down, unsigned) := match text with
    | '+' :: rest => (false, rest)
    | '-' :: rest => (true, rest)
    | _ => (false, text)
  match readDigits unsigned with
  | ([], _) => none
  | (digits, rest) => some (some (down, digits), rest)

def readExponent : List Char → Option (Option (Bool × List Nat) × List Char)
  | 'e' :: text | 'E' :: text => readExponentDigits text
  | text => some (none, text)

/-- Reads a number behind its sign: no zero may stand before another digit. -/
def readUnsigned (negative : Bool) (text : List Char) : Option (NumberText × List Char) := do
  let (whole, rest) := readDigits text
  match whole with
  | [] | 0 :: _ :: _ => none
  | _ => do
    let (fraction, rest) ← readFraction rest
    let (exponent, rest) ← readExponent rest
    return ({ negative, whole, fraction, exponent }, rest)

def readNumber : List Char → Option (NumberText × List Char)
  | '-' :: text => readUnsigned true text
  | text => readUnsigned false text

mutual

/-- Reads a value, with blanks in front of it. -/
def readValue : Nat → List Char → Option (Json × List Char)
  | 0, _ => none
  | fuel + 1, text =>
    match skipBlanks text with
    | 'n' :: 'u' :: 'l' :: 'l' :: rest => some (.null, rest)
    | 't' :: 'r' :: 'u' :: 'e' :: rest => some (.bool true, rest)
    | 'f' :: 'a' :: 'l' :: 's' :: 'e' :: rest => some (.bool false, rest)
    | '"' :: rest => (readString rest).map fun (s, rest) => (.string s, rest)
    | '[' :: rest =>
      match skipBlanks rest with
      | ']' :: rest => some (.array [], rest)
      | rest => (readItems fuel rest).map fun (items, rest) => (.array items, rest)
    | '{' :: rest =>
      match skipBlanks rest with
      | '}' :: rest => some (.object [], rest)
      | rest => (readMembers fuel rest).map fun (members, rest) => (.object members, rest)
    | text => (readNumber text).map fun (n, rest) => (.number n, rest)

/-- Reads one or more items up to the end of an array. -/
def readItems : Nat → List Char → Option (List Json × List Char)
  | 0, _ => none
  | fuel + 1, text => do
    let (item, rest) ← readValue fuel text
    match skipBlanks rest with
    | ',' :: rest =>
      let (items, rest) ← readItems fuel rest
      return (item :: items, rest)
    | ']' :: rest => return ([item], rest)
    | _ => none

/-- Reads one or more members up to the end of an object. -/
def readMembers : Nat → List Char → Option (List (Option String × Json) × List Char)
  | 0, _ => none
  | fuel + 1, text => do
    match skipBlanks text with
    | '"' :: rest =>
      let (name, rest) ← readString rest
      match skipBlanks rest with
      | ':' :: rest =>
        let (value, rest) ← readValue fuel rest
        match skipBlanks rest with
        | ',' :: rest =>
          let (members, rest) ← readMembers fuel rest
          return ((name, value) :: members, rest)
        | '}' :: rest => return ([(name, value)], rest)
        | _ => none
      | _ => none
    | _ => none

end

/-- Reads a text that holds one value and nothing else. -/
def parse? (text : String) : Option Json := do
  let chars := text.toList
  let (json, rest) ← readValue (2 * chars.length + 2) chars
  if (skipBlanks rest).isEmpty then some json else none

def parseValue? (text : String) : Option Value := do
  (← parse? text).toValue? maxDepth

/-- Reads a store: an object, at most so deep as a value. -/
def parseStore? (text : String) : Option Store := do
  match ← parse? text with
  | .object members => (membersToEntries? (maxDepth - 1) members).map Store.ofList
  | _ => none

end ViewBinding.Json
