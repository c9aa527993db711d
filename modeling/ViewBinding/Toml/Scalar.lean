import ViewBinding.Number.Binary64
import ViewBinding.Text.Search

/-!
# TOML scalars

Numbers, dates and strings of TOML. Each reader takes a text and returns what it has read with the
rest of the text; `none` is a syntax error.
-/

namespace ViewBinding.Toml

/-- The blanks within a line. -/
def isBlank (c : Char) : Bool := c == ' ' || c == '\t'

def skipBlanks (text : List Char) : List Char := text.dropWhile isBlank

/-- Whether a character may stand in a comment: no control character but the tab. -/
def isPlain (c : Char) : Bool := c == '\t' || (0x20 ≤ c.toNat && c.toNat != 0x7f)

/-- What follows a line end at the start of a text. -/
def newline? : List Char → Option (List Char)
  | '\n' :: rest => some rest
  | '\r' :: '\n' :: rest => some rest
  | _ => none

/-- The value of a digit in a base up to 16. -/
def digitValue? (base : Nat) (c : Char) : Option Nat :=
  let value :=
    if c.isDigit then some (c.toNat - '0'.toNat)
    else if 'a' ≤ c ∧ c ≤ 'f' then some (c.toNat - 'a'.toNat + 10)
    else if 'A' ≤ c ∧ c ≤ 'F' then some (c.toNat - 'A'.toNat + 10)
    else none
  value.filter (· < base)

/-- Reads further digits; an underscore may stand before a digit. -/
def moreDigits (base : Nat) : List Char → Option (List Nat × List Char)
  | [] => some ([], [])
  | '_' :: c :: rest =>
    match digitValue? base c with
    | some d => (moreDigits base rest).map fun (digits, rest) => (d :: digits, rest)
    | none => none
  | c :: rest =>
    match digitValue? base c with
    | some d => (moreDigits base rest).map fun (digits, rest) => (d :: digits, rest)
    | none => if c = '_' then none else some ([], c :: rest)

def readDigits (base : Nat) : List Char → Option (List Nat × List Char)
  | [] => none
  | c :: rest => do
    let d ← digitValue? base c
    let (digits, rest) ← moreDigits base rest
    return (d :: digits, rest)

def digitsValue (base : Nat) (digits : List Nat) : Nat :=
  digits.foldl (fun n d => n * base + d) 0

/-- A scalar. A date or time is kept as its text. -/
inductive Scalar where
  | string (s : String)
  | integer (n : Int)
  | float (x : Binary64)
  | bool (b : Bool)
  | datetime (text : String)
deriving DecidableEq

def integer? (negative : Bool) (magnitude : Nat) : Option Scalar :=
  if negative then
    if magnitude ≤ Nat.pow 2 63 then some (.integer (-magnitude)) else none
  else if magnitude < Nat.pow 2 63 then some (.integer magnitude) else none

/-- Reads the whole part of a decimal number: no zero stands before other digits. -/
def readWhole : List Char → Option (List Nat × List Char)
  | '0' :: rest => some ([0], rest)
  | text => readDigits 10 text

/-- Reads an exponent behind its mark. -/
def readExponent (text : List Char) : Option (Int × List Char) :=
  let (negative, unsigned) := match text with
    | '+' :: rest => (false, rest)
    | '-' :: rest => (true, rest)
    | _ => (false, text)
  (readDigits 10 unsigned).map fun (digits, rest) =>
    let size : Int := digitsValue 10 digits
    (if negative then -size else size, rest)

/-- The number with given digits; one too large is refused. -/
def float? (negative : Bool) (digits : List Nat) (exponent : Int) : Option Scalar :=
  let x := Binary64.ofDecimal negative (digitsValue 10 digits) exponent
  if x = Binary64.infinity false then none else some (.float x)

/-- Reads what follows the whole part of a decimal number. -/
def readAfterWhole (negative : Bool) (whole : List Nat) (text : List Char) :
    Option (Scalar × List Char) :=
  match text with
  | 'e' :: rest | 'E' :: rest => do
    let (exponent, rest) ← readExponent rest
    return (← float? negative whole exponent, rest)
  | '.' :: rest => do
    let (fraction, rest) ← readDigits 10 rest
    match rest with
    | 'e' :: rest | 'E' :: rest =>
      let (exponent, rest) ← readExponent rest
      return (← float? negative (whole ++ fraction) (exponent - fraction.length), rest)
    | _ => return (← float? negative (whole ++ fraction) (-fraction.length), rest)
  | _ => do return (← integer? negative (digitsValue 10 whole), text)

/-- Reads a decimal number behind its sign. -/
def readUnsigned (negative : Bool) (text : List Char) : Option (Scalar × List Char) :=
  match text with
  | 'i' :: 'n' :: 'f' :: rest => some (.float (.infinity negative), rest)
  | 'n' :: 'a' :: 'n' :: rest => some (.float .nan, rest)
  | _ => do
    let (whole, rest) ← readWhole text
    readAfterWhole negative whole rest

/-- Reads an integer in a base behind its mark. -/
def readInBase (base : Nat) (text : List Char) : Option (Scalar × List Char) := do
  let (digits, rest) ← readDigits base text
  return (← integer? false (digitsValue base digits), rest)

def readNumber (text : List Char) : Option (Scalar × List Char) :=
  match text with
  | '+' :: rest => readUnsigned false rest
  | '-' :: rest => readUnsigned true rest
  | '0' :: 'x' :: rest => readInBase 16 rest
  | '0' :: 'o' :: rest => readInBase 8 rest
  | '0' :: 'b' :: rest => readInBase 2 rest
  | _ => readUnsigned false text

/-- A number of two digits within bounds. -/
def twoDigits? (low high : Nat) : List Char → Option (Nat × List Char)
  | a :: b :: rest => do
    let n := (← digitValue? 10 a) * 10 + (← digitValue? 10 b)
    if low ≤ n ∧ n ≤ high then some (n, rest) else none
  | _ => none

def fourDigits? : List Char → Option (Nat × List Char)
  | a :: b :: c :: d :: rest => do
    let digits := [← digitValue? 10 a, ← digitValue? 10 b, ← digitValue? 10 c, ← digitValue? 10 d]
    return (digitsValue 10 digits, rest)
  | _ => none

/-- What follows a character that must stand at the start. -/
def expect? (c : Char) : List Char → Option (List Char)
  | d :: rest => if d = c then some rest else none
  | [] => none

def isLeapYear (year : Nat) : Bool := year % 4 == 0 && (year % 100 != 0 || year % 400 == 0)

def daysIn (year month : Nat) : Nat :=
  if month = 2 then (if isLeapYear year then 29 else 28)
  else if [4, 6, 9, 11].contains month then 30
  else 31

/-- A number with zeros in front, up to a width. -/
def padded (width n : Nat) : List Char :=
  let digits := Nat.toDigits 10 n
  List.replicate (width - digits.length) '0' ++ digits

/-- Reads the month and the day behind a year and its hyphen. -/
def readMonthDay (year : Nat) (text : List Char) : Option (List Char × List Char) := do
  let (month, rest) ← twoDigits? 1 12 text
  let rest ← expect? '-' rest
  let (day, rest) ← twoDigits? 1 31 rest
  if daysIn year month < day then none
  else some (padded 4 year ++ '-' :: (padded 2 month ++ '-' :: padded 2 day), rest)

/-- The fraction of a second as it is shown: at most nine digits, without zeros at the end. -/
def shownFraction (digits : List Char) : List Char :=
  let kept := ((digits.take 9).reverse.dropWhile (· == '0')).reverse
  if kept.isEmpty then [] else '.' :: kept

/-- Reads the minutes and seconds behind an hour and its colon. -/
def readMinuteSecond (hour : Nat) (text : List Char) : Option (List Char × List Char) := do
  let (minute, rest) ← twoDigits? 0 59 text
  let rest ← expect? ':' rest
  let (second, rest) ← twoDigits? 0 60 rest
  let shown := padded 2 hour ++ ':' :: (padded 2 minute ++ ':' :: padded 2 second)
  match rest with
  | '.' :: after =>
    let digits := after.takeWhile Char.isDigit
    if digits.isEmpty then some (shown, rest)
    else some (shown ++ shownFraction digits, after.dropWhile Char.isDigit)
  | _ => some (shown, rest)

/-- Reads the hour of a time with its colon. -/
def hour? (text : List Char) : Option (Nat × List Char) := do
  let (hour, rest) ← twoDigits? 0 23 text
  return (hour, ← expect? ':' rest)

/-- Reads an offset from universal time, if there is one. -/
def readOffset : List Char → Option (List Char × List Char)
  | 'Z' :: rest | 'z' :: rest => some (['Z'], rest)
  | '+' :: rest => do
    let (hour, rest) ← hour? rest
    let (minute, rest) ← twoDigits? 0 59 rest
    return ('+' :: (padded 2 hour ++ ':' :: padded 2 minute), rest)
  | '-' :: rest => do
    let (hour, rest) ← hour? rest
    let (minute, rest) ← twoDigits? 0 59 rest
    let sign := if hour = 0 ∧ minute = 0 then '+' else '-'
    return (sign :: (padded 2 hour ++ ':' :: padded 2 minute), rest)
  | text => some ([], text)

/-- Whether a character may stand between a date and a time. -/
def isTimeMark (c : Char) : Bool := c == 'T' || c == 't' || c == ' '

/-- The hour of a time behind a date, if a time follows. -/
def hourAfterDate? : List Char → Option (Nat × List Char)
  | c :: rest => if isTimeMark c then hour? rest else none
  | [] => none

/-- Reads a date behind its year and hyphen, and a time if one follows. -/
def readDate (year : Nat) (text : List Char) : Option (Scalar × List Char) := do
  let (date, rest) ← readMonthDay year text
  match hourAfterDate? rest with
  | none => return (.datetime (String.ofList date), rest)
  | some (hour, rest) =>
    let (time, rest) ← readMinuteSecond hour rest
    let (offset, rest) ← readOffset rest
    return (.datetime (String.ofList (date ++ 'T' :: (time ++ offset))), rest)

/-- The year of a date with its hyphen. -/
def year? (text : List Char) : Option (Nat × List Char) := do
  let (year, rest) ← fourDigits? text
  return (year, ← expect? '-' rest)

def readNumeric (text : List Char) : Option (Scalar × List Char) :=
  match year? text with
  | some (year, rest) => readDate year rest
  | none =>
    match hour? text with
    | some (hour, rest) =>
      (readMinuteSecond hour rest).map fun (time, rest) =>
        (.datetime (String.ofList time), rest)
    | none => readNumber text

/-- Reads the hexadecimal digits of a character. -/
def readCodePoint (count : Nat) (text : List Char) : Option (Char × List Char) := do
  let digits ← (text.take count).mapM (digitValue? 16)
  guard (digits.length == count)
  let code := digitsValue 16 digits
  guard (code < 0xd800 || (0xdfff < code && code < 0x110000))
  return (Char.ofNat code, text.drop count)

def readEscape : List Char → Option (Char × List Char)
  | 'b' :: rest => some ('\x08', rest)
  | 't' :: rest => some ('\t', rest)
  | 'n' :: rest => some ('\n', rest)
  | 'f' :: rest => some ('\x0c', rest)
  | 'r' :: rest => some ('\r', rest)
  | '"' :: rest => some ('"', rest)
  | '\\' :: rest => some ('\\', rest)
  | 'u' :: rest => readCodePoint 4 rest
  | 'U' :: rest => readCodePoint 8 rest
  | _ => none

/-- Reads a string in double quotes up to the closing one. The fuel bounds the characters. -/
def readBasic : Nat → List Char → Option (List Char × List Char)
  | 0, _ | _, [] => none
  | fuel + 1, c :: rest =>
    if c = '"' then some ([], rest)
    else if c = '\\' then do
      let (c, rest) ← readEscape rest
      let (body, rest) ← readBasic fuel rest
      return (c :: body, rest)
    else if isPlain c then do
      let (body, rest) ← readBasic fuel rest
      return (c :: body, rest)
    else none

/-- Reads a string in single quotes up to the closing one: nothing is escaped. -/
def readLiteral : List Char → Option (List Char × List Char)
  | [] => none
  | c :: rest =>
    if c = '\'' then some ([], rest)
    else if isPlain c then (readLiteral rest).map fun (body, rest) => (c :: body, rest)
    else none

/-- Drops blanks and line ends. -/
def skipLines (text : List Char) : List Char :=
  match text with
  | [] => []
  | '\r' :: '\n' :: rest => skipLines rest
  | c :: rest => if isBlank c || c == '\n' then skipLines rest else c :: rest

/-- What follows an escaped line end behind its backslash: all up to the next visible character. -/
def escapedLineEnd? (text : List Char) : Option (List Char) :=
  (newline? (skipBlanks text)).map skipLines

/-- How many of a run of quotes belong to the text of a long string, and whether they close it:
three quotes do, and one or two may stand before them. -/
def quoteRun (length : Nat) : Nat × Bool :=
  if length < 3 then (length, false) else (min (length - 3) 2, true)

/-- Reads a string in three double quotes up to the closing ones. -/
def readLongBasic : Nat → List Char → Option (List Char × List Char)
  | 0, _ | _, [] => none
  | fuel + 1, c :: rest =>
    if c = '"' then
      let (kept, closes) := quoteRun ((c :: rest).takeWhile (· == '"')).length
      let quotes := List.replicate kept '"'
      if closes then some (quotes, (c :: rest).drop (kept + 3))
      else (readLongBasic fuel ((c :: rest).drop kept)).map fun (body, rest) =>
        (quotes ++ body, rest)
    else if c = '\\' then
      match escapedLineEnd? rest with
      | some rest => readLongBasic fuel rest
      | none => do
        let (c, rest) ← readEscape rest
        let (body, rest) ← readLongBasic fuel rest
        return (c :: body, rest)
    else match newline? (c :: rest) with
      | some rest => (readLongBasic fuel rest).map fun (body, rest) => ('\n' :: body, rest)
      | none =>
        if isPlain c then (readLongBasic fuel rest).map fun (body, rest) => (c :: body, rest)
        else none

/-- Reads a string in three single quotes up to the closing ones. -/
def readLongLiteral : Nat → List Char → Option (List Char × List Char)
  | 0, _ | _, [] => none
  | fuel + 1, c :: rest =>
    if c = '\'' then
      let (kept, closes) := quoteRun ((c :: rest).takeWhile (· == '\'')).length
      let quotes := List.replicate kept '\''
      if closes then some (quotes, (c :: rest).drop (kept + 3))
      else (readLongLiteral fuel ((c :: rest).drop kept)).map fun (body, rest) =>
        (quotes ++ body, rest)
    else match newline? (c :: rest) with
      | some rest => (readLongLiteral fuel rest).map fun (body, rest) => ('\n' :: body, rest)
      | none =>
        if isPlain c then (readLongLiteral fuel rest).map fun (body, rest) => (c :: body, rest)
        else none

/-- Drops one line end at the start of a long string. -/
def dropNewline (text : List Char) : List Char := (newline? text).getD text

def readString (text : List Char) : Option (List Char × List Char) :=
  match text with
  | '"' :: '"' :: '"' :: rest => readLongBasic rest.length (dropNewline rest)
  | '"' :: rest => readBasic rest.length rest
  | '\'' :: '\'' :: '\'' :: rest => readLongLiteral rest.length (dropNewline rest)
  | '\'' :: rest => readLiteral rest
  | _ => none

end ViewBinding.Toml
