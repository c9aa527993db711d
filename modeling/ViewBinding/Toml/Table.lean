import ViewBinding.Toml.Scalar
import ViewBinding.Value

/-!
# TOML tables

The tables of a document are filled in from headers and dotted keys, and each table may be defined
in one way only. A table remembers how it came to be, which decides what may still be added to it.
-/

namespace ViewBinding.Toml

/-- How a table came to be. -/
inductive Origin where
  /-- By a header of its own; the root table counts as such. -/
  | header
  /-- By the header of a table inside it. -/
  | implied
  /-- By a dotted key. -/
  | dotted
deriving DecidableEq, Repr

/-- A part of a document. -/
inductive Item where
  | scalar (s : Scalar)
  | array (items : List Item)
  /-- A table within braces, which is complete. -/
  | inlined (entries : List (String × Item))
  | table (origin : Origin) (entries : List (String × Item))
  /-- Tables under one repeated header. -/
  | tables (items : List (List (String × Item)))

/-- The entries of a table, in the order in which they were made. -/
abbrev Entries := List (String × Item)

namespace Entries

def find? (key : String) (entries : Entries) : Option Item :=
  (List.find? (fun entry => entry.1 == key) entries).map Prod.snd

def replace (key : String) (item : Item) (entries : Entries) : Entries :=
  entries.map fun entry => if entry.1 == key then (key, item) else entry

def remove (key : String) (entries : Entries) : Entries :=
  entries.filter fun entry => entry.1 != key

end Entries

/-- Goes down a path and changes the table at its end. Missing tables are made on the way; of
tables under a repeated header the last one is meant. A dotted path does not go through a table with
a header of its own. -/
def descend {α : Type} (isDotted : Bool) (change : Origin → Entries → Option (α × Entries)) :
    List String → Origin → Entries → Option (α × Entries)
  | [], origin, entries => change origin entries
  | key :: path, _, entries =>
    match entries.find? key with
    | none => do
      let origin := if isDotted then .dotted else .implied
      let (a, inner) ← descend isDotted change path origin []
      return (a, entries ++ [(key, .table origin inner)])
    | some (.table origin inner) => do
      if isDotted && origin == .header then none
      let (a, inner) ← descend isDotted change path origin inner
      return (a, entries.replace key (.table origin inner))
    | some (.tables items) => do
      let last ← items.getLast?
      let (a, inner) ← descend isDotted change path .header last
      return (a, entries.replace key (.tables (items.dropLast ++ [inner])))
    | some (.scalar _) | some (.array _) | some (.inlined _) => none

/-- Adds an entry to a table. Only a dotted key adds to a table that dotted keys have made. -/
def addEntry (isDotted : Bool) (key : String) (item : Item) (origin : Origin) (entries : Entries) :
    Option (Unit × Entries) :=
  if (origin == .dotted) != isDotted then none
  else if (entries.find? key).isSome then none
  else some ((), entries ++ [(key, item)])

def setKey (path : List String) (key : String) (item : Item) (entries : Entries) : Option Entries :=
  (descend true (addEntry (!path.isEmpty) key item) path .header entries).map Prod.snd

/-- A document while it is read: the tables that are complete, and the one being filled. -/
structure Draft where
  root : Entries := []
  /-- The path of the table being filled, with its last key, unless it is the root. -/
  place : Option (List String × String) := none
  /-- Whether the table being filled stands under a repeated header. -/
  isRepeated : Bool := false
  current : Entries := []

/-- Puts a finished table behind the others of its repeated header. -/
def addRepeated (key : String) (finished : Entries) (_ : Origin) (entries : Entries) :
    Option (Unit × Entries) :=
  match entries.find? key with
  | none => some ((), entries ++ [(key, .tables [finished])])
  | some (.tables items) => some ((), entries.replace key (.tables (items ++ [finished])))
  | some _ => none

/-- Puts a finished table in its place. -/
def addFinished (key : String) (finished : Entries) (_ : Origin) (entries : Entries) :
    Option (Unit × Entries) :=
  match entries.find? key with
  | none => some ((), entries ++ [(key, .table .header finished)])
  | some _ => none

namespace Draft

/-- The tables with the one being filled in its place. -/
def finish? (draft : Draft) : Option Entries :=
  match draft.place with
  | none => some draft.current
  | some (path, key) =>
    let add := if draft.isRepeated then addRepeated else addFinished
    (descend false (add key draft.current) path .header draft.root).map Prod.snd

def set? (draft : Draft) (path : List String) (key : String) (item : Item) : Option Draft := do
  return { draft with current := ← setKey path key item draft.current }

/-- Takes a table out that only headers inside it have made, or starts an empty one. -/
def takeImplied (key : String) (_ : Origin) (entries : Entries) : Option (Entries × Entries) :=
  match entries.find? key with
  | none => some ([], entries)
  | some (.table .implied inner) => some (inner, entries.remove key)
  | some _ => none

/-- Goes on to the table of a header. -/
def openTable? (draft : Draft) (path : List String) (key : String) : Option Draft := do
  let root ← draft.finish?
  let (current, root) ← descend false (takeImplied key) path .header root
  return { root, place := some (path, key), isRepeated := false, current }

/-- Makes room for the tables of a repeated header. -/
def ensureRepeated (key : String) (_ : Origin) (entries : Entries) : Option (Unit × Entries) :=
  match entries.find? key with
  | none => some ((), entries ++ [(key, .tables [])])
  | some (.tables _) => some ((), entries)
  | some _ => none

/-- Goes on to a new table of a repeated header. -/
def openRepeated? (draft : Draft) (path : List String) (key : String) : Option Draft := do
  let root ← draft.finish?
  let (_, root) ← descend false (ensureRepeated key) path .header root
  return { root, place := some (path, key), isRepeated := true, current := [] }

end Draft

/-- The key under which a date or time is held when it stands for a map. -/
def datetimeKey : String := "$__toml_private_datetime"

def Scalar.toValue : Scalar → Value
  | string s => .string s
  | integer n => .ofInt n
  | float x => .number x
  | bool b => .bool b
  | datetime text => .map [(datetimeKey, .string text)]

mutual

def Item.toValue : Item → Value
  | .scalar s => s.toValue
  | .array items => .list (itemsToValues items)
  | .inlined entries => .map (Dict.ofList (entriesToValues entries))
  | .table _ entries => .map (Dict.ofList (entriesToValues entries))
  | .tables items => .list (tablesToValues items)

def itemsToValues : List Item → List Value
  | [] => []
  | item :: rest => item.toValue :: itemsToValues rest

def entriesToValues : List (String × Item) → List (String × Value)
  | [] => []
  | (key, item) :: rest => (key, item.toValue) :: entriesToValues rest

def tablesToValues : List (List (String × Item)) → List Value
  | [] => []
  | entries :: rest => .map (Dict.ofList (entriesToValues entries)) :: tablesToValues rest

end

end ViewBinding.Toml
