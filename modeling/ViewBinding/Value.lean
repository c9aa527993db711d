import ViewBinding.Dict
import ViewBinding.Number.Text

/-!
# Values

The data that a view shows. Every place in a view is plain text, so a value is seen only through
`Value.render`.
-/

namespace ViewBinding

/-- A dynamically typed value. Numbers are double precision, and maps hold their keys in order. -/
inductive Value where
  | null
  | bool (b : Bool)
  | number (n : Binary64)
  | string (s : String)
  | list (items : List Value)
  | map (entries : List (String × Value))
deriving Inhabited

namespace Value

def asString? : Value → Option String
  | string s => some s
  | _ => none

def asNumber? : Value → Option Binary64
  | number n => some n
  | _ => none

def asBool? : Value → Option Bool
  | bool b => some b
  | _ => none

def isNull : Value → Bool
  | null => true
  | _ => false

mutual

/-- A value as the view shows it. -/
def render : Value → String
  | null => "null"
  | bool true => "true"
  | bool false => "false"
  | number n => n.render
  | string s => s
  | list items => renderItems items
  | map _ => "[object Object]"

/-- The items of a list, with commas between them; a null item is shown empty. -/
def renderItems : List Value → String
  | [] => ""
  | item :: rest =>
    let text := if item.isNull then "" else item.render
    if rest.isEmpty then text else text ++ "," ++ renderItems rest

end

mutual

/-- Equality of values: numbers are compared as numbers, all else by its parts. -/
def eq : Value → Value → Bool
  | null, null => true
  | bool a, bool b => a == b
  | number a, number b => a.numEq b
  | string a, string b => a == b
  | list as, list bs => itemsEq as bs
  | map as, map bs => entriesEq as bs
  | _, _ => false

def itemsEq : List Value → List Value → Bool
  | [], [] => true
  | a :: as, b :: bs => eq a b && itemsEq as bs
  | _, _ => false

/-- Equality of dictionaries, entry by entry: they hold their keys in order. -/
def entriesEq : List (String × Value) → List (String × Value) → Bool
  | [], [] => true
  | (k, a) :: as, (l, b) :: bs => k == l && eq a b && entriesEq as bs
  | _, _ => false

end

def ofInt (n : Int) : Value := number (.ofInt n)

/-- A missing value is the null value. -/
def ofOption : Option Value → Value
  | some v => v
  | none => null

mutual

/-- The value that can be written to a data format without undefined and infinite numbers: they
become null. -/
def serializable : Value → Value
  | number n => if n.isFinite then number n else null
  | list items => list (serializableItems items)
  | map entries => map (serializableEntries entries)
  | v => v

def serializableItems : List Value → List Value
  | [] => []
  | item :: rest => serializable item :: serializableItems rest

def serializableEntries : List (String × Value) → List (String × Value)
  | [] => []
  | (key, value) :: rest => (key, serializable value) :: serializableEntries rest

end

end Value
end ViewBinding
