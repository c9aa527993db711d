import ViewBinding.Value

/-!
# The data store

The values that a view shows, by key. Keys are compared exactly.
-/

namespace ViewBinding

structure Store where
  entries : Dict Value := []
deriving Inhabited

namespace Store

def empty : Store := {}

def get? (store : Store) (key : String) : Option Value := store.entries.get? key

def set (store : Store) (key : String) (value : Value) : Store :=
  ⟨store.entries.insert key value⟩

def erase (store : Store) (key : String) : Store := ⟨store.entries.erase key⟩

def contains (store : Store) (key : String) : Bool := (store.get? key).isSome

/-- The value of a key as the view shows it: a missing one is shown empty. -/
def render (store : Store) (key : String) : String :=
  match store.get? key with
  | some value => value.render
  | none => ""

def size (store : Store) : Nat := store.entries.length

def extend (store : Store) (entries : List (String × Value)) : Store :=
  ⟨store.entries.insertAll entries⟩

/-- The store of a list of entries; of two with the same key the later one stays. -/
def ofList (entries : List (String × Value)) : Store := empty.extend entries

/-- Whether two stores hold equal values under the same keys. -/
def eq (a b : Store) : Bool := Value.entriesEq a.entries b.entries

@[simp] theorem get?_set_self (store : Store) (key : String) (value : Value) :
    (store.set key value).get? key = some value :=
  Dict.get?_insert_self key value store.entries

theorem get?_set_of_ne (store : Store) {key other : String} (h : other ≠ key) (value : Value) :
    (store.set key value).get? other = store.get? other :=
  Dict.get?_insert_of_ne h value store.entries

end Store
end ViewBinding
