import ViewBinding.Toml.Table

/-!
# Reading TOML

Keys, values and lines of a document. The depth bounds the nesting of arrays and tables in braces;
the fuel bounds the steps, and each takes a character.
-/

namespace ViewBinding.Toml

/-- Arrays and tables in braces are nested less deep than this, and dotted keys are shorter. -/
def nestingLimit : Nat := 80

/-- A character of a key without quotes. -/
def isBareKeyChar (c : Char) : Bool := Text.isNameChar c

def readSimpleKey (text : List Char) : Option (String × List Char) :=
  match text with
  | '"' :: rest => (readBasic rest.length rest).map fun (key, rest) => (String.ofList key, rest)
  | '\'' :: rest => (readLiteral rest).map fun (key, rest) => (String.ofList key, rest)
  | _ =>
    let key := text.takeWhile isBareKeyChar
    if key.isEmpty then none else some (String.ofList key, text.dropWhile isBareKeyChar)

/-- Reads keys with dots between them. -/
def readKeys : Nat → List Char → Option (List String × List Char)
  | 0, _ => none
  | fuel + 1, text => do
    let (key, rest) ← readSimpleKey (skipBlanks text)
    match skipBlanks rest with
    | '.' :: rest =>
      let (keys, rest) ← readKeys fuel rest
      return (key :: keys, rest)
    | rest => return ([key], rest)

/-- Reads a dotted key, as its path and its last part. -/
def readKey (text : List Char) : Option ((List String × String) × List Char) := do
  let (keys, rest) ← readKeys text.length text
  guard (keys.length < nestingLimit)
  return ((keys.dropLast, ← keys.getLast?), rest)

/-- Drops a comment up to its line end. -/
def skipComment : List Char → List Char
  | '#' :: rest => rest.dropWhile isPlain
  | text => text

theorem newline?_length {text rest : List Char} (h : newline? text = some rest) :
    rest.length < text.length := by
  unfold newline? at h
  split at h
  · cases h
    simp
  · cases h
    simp only [List.length_cons]
    omega
  · cases h

theorem skipComment_length (text : List Char) : (skipComment text).length ≤ text.length := by
  unfold skipComment
  split
  · rename_i rest
    exact Nat.le_succ_of_le (List.dropWhile_sublist isPlain).length_le
  · exact Nat.le_refl _

theorem skipBlanks_length (text : List Char) : (skipBlanks text).length ≤ text.length :=
  (List.dropWhile_sublist isBlank).length_le

/-- Drops blanks, line ends and comments with their line ends. -/
def skipFiller (text : List Char) : List Char :=
  match _h : newline? (skipComment (skipBlanks text)) with
  | some rest => skipFiller rest
  | none => skipBlanks text
termination_by text.length
decreasing_by
  have hnewline := newline?_length _h
  have hcomment := skipComment_length (skipBlanks text)
  have hblanks := skipBlanks_length text
  omega

/-- Sets a dotted key in a table within braces. Only dotted keys make tables inside it. -/
def setInlined (item : Item) : List String → String → Bool → Entries → Option Entries
  | [], key, isDotted, entries =>
    (addEntry isDotted key item (if isDotted then .dotted else .header) entries).map Prod.snd
  | step :: path, key, _, entries =>
    match entries.find? step with
    | none => do return entries ++ [(step, .table .dotted (← setInlined item path key true []))]
    | some (.table .dotted inner) => do
      return entries.replace step (.table .dotted (← setInlined item path key true inner))
    | some _ => none

mutual

def readValue (depth : Nat) : Nat → List Char → Option (Item × List Char)
  | 0, _ => none
  | fuel + 1, text =>
    match text with
    | '"' :: _ | '\'' :: _ =>
      (readString text).map fun (s, rest) => (.scalar (.string (String.ofList s)), rest)
    | 't' :: 'r' :: 'u' :: 'e' :: rest => some (.scalar (.bool true), rest)
    | 'f' :: 'a' :: 'l' :: 's' :: 'e' :: rest => some (.scalar (.bool false), rest)
    | '[' :: rest =>
      if depth + 1 < nestingLimit then
        (readArray (depth + 1) fuel rest).map fun (items, rest) => (.array items, rest)
      else none
    | '{' :: rest =>
      if depth + 1 < nestingLimit then
        match skipBlanks rest with
        | '}' :: rest => some (.inlined [], rest)
        | rest =>
          (readInlined (depth + 1) fuel [] rest).map fun (entries, rest) => (.inlined entries, rest)
      else none
    | _ => (readNumeric text).map fun (s, rest) => (.scalar s, rest)

/-- Reads the items of an array up to its end. A comma may stand behind the last one. -/
def readArray (depth : Nat) : Nat → List Char → Option (List Item × List Char)
  | 0, _ => none
  | fuel + 1, text =>
    match skipFiller text with
    | ']' :: rest => some ([], rest)
    | text => do
      let (item, rest) ← readValue depth fuel text
      match skipFiller rest with
      | ',' :: rest =>
        let (items, rest) ← readArray depth fuel rest
        return (item :: items, rest)
      | ']' :: rest => return ([item], rest)
      | _ => none

/-- Reads the entries of a table within braces up to its end. -/
def readInlined (depth : Nat) : Nat → Entries → List Char → Option (Entries × List Char)
  | 0, _, _ => none
  | fuel + 1, entries, text => do
    let ((path, key), rest) ← readKey text
    let rest ← expect? '=' rest
    let (item, rest) ← readValue depth fuel (skipBlanks rest)
    let entries ← setInlined item path key false entries
    match skipBlanks rest with
    | ',' :: rest => readInlined depth fuel entries rest
    | '}' :: rest => return (entries, rest)
    | _ => none

end

/-- Reads the end of a line: blanks, perhaps a comment, and a line end or the end of the text. -/
def readLineEnd (text : List Char) : Option (List Char) :=
  match skipComment (skipBlanks text) with
  | [] => some []
  | rest => newline? rest

/-- Reads a header behind its brackets. -/
def readHeader (closing : List Char) (text : List Char) :
    Option ((List String × String) × List Char) := do
  let (place, rest) ← readKey text
  let rest ← Text.dropStart? closing rest
  return (place, ← readLineEnd rest)

/-- Reads a key with its value up to the end of the line. -/
def readKeyValue (text : List Char) : Option ((List String × String) × Item × List Char) := do
  let (place, rest) ← readKey text
  let rest ← expect? '=' rest
  let (item, rest) ← readValue 0 (2 * rest.length + 2) (skipBlanks rest)
  return (place, item, ← readLineEnd rest)

def readLines : Nat → Draft → List Char → Option Draft
  | 0, _, _ => none
  | fuel + 1, draft, text =>
    match skipBlanks text with
    | [] => some draft
    | '#' :: rest => do readLines fuel draft (← readLineEnd ('#' :: rest))
    | '[' :: '[' :: rest => do
      let ((path, key), rest) ← readHeader [']', ']'] rest
      readLines fuel (← draft.openRepeated? path key) rest
    | '[' :: rest => do
      let ((path, key), rest) ← readHeader [']'] rest
      readLines fuel (← draft.openTable? path key) rest
    | text =>
      match newline? text with
      | some rest => readLines fuel draft rest
      | none => do
        let ((path, key), item, rest) ← readKeyValue text
        readLines fuel (← draft.set? path key item) rest

def dropMark (text : List Char) : List Char := (expect? '\ufeff' text).getD text

def parse? (text : String) : Option Value := do
  let chars := dropMark text.toList
  let draft ← readLines (chars.length + 1) {} chars
  let entries ← draft.finish?
  return .map (Dict.ofList (entriesToValues entries))

end ViewBinding.Toml
