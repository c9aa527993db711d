import ViewBinding.Dict

/-!
# The dependency registry

Watchers by key, in the order in which they were added. No key is kept without a watcher.
-/

namespace ViewBinding

structure Registry (α : Type) where
  entries : Dict (List α) := []
deriving Inhabited

namespace Registry

variable {α : Type}

def empty : Registry α := {}

/-- The watchers of a key, in the order in which they were added. -/
def watchers (registry : Registry α) (key : String) : List α :=
  (registry.entries.get? key).getD []

/-- Adds a watcher behind those of its key. -/
def add (registry : Registry α) (key : String) (watcher : α) : Registry α :=
  ⟨registry.entries.insert key (registry.watchers key ++ [watcher])⟩

def addAll (registry : Registry α) (watchers : List (String × α)) : Registry α :=
  watchers.foldl (fun acc (key, watcher) => acc.add key watcher) registry

/-- Runs an action on every watcher of a key, in order, and tells how many there are. -/
def notify {σ : Type} (registry : Registry α) (key : String) (run : σ → α → σ) (state : σ) :
    σ × Nat :=
  ((registry.watchers key).foldl run state, (registry.watchers key).length)

def count (registry : Registry α) (key : String) : Nat := (registry.watchers key).length

def contains (registry : Registry α) (key : String) : Bool := (registry.entries.get? key).isSome

/-- The keys with watchers, in increasing order. -/
def keys (registry : Registry α) : List String := registry.entries.keys

def size (registry : Registry α) : Nat := registry.entries.length

def isEmpty (registry : Registry α) : Bool := registry.entries.isEmpty

def total (registry : Registry α) : Nat :=
  registry.entries.foldl (fun n entry => n + entry.2.length) 0

@[simp] theorem watchers_empty (key : String) : (empty : Registry α).watchers key = [] := rfl

@[simp] theorem watchers_add_self (registry : Registry α) (key : String) (watcher : α) :
    (registry.add key watcher).watchers key = registry.watchers key ++ [watcher] := by
  simp [watchers, add]

theorem watchers_add_of_ne (registry : Registry α) {key other : String} (h : other ≠ key)
    (watcher : α) : (registry.add key watcher).watchers other = registry.watchers other := by
  simp [watchers, add, Dict.get?_insert_of_ne h]

theorem watchers_addAll (registry : Registry α) (added : List (String × α)) (key : String) :
    (registry.addAll added).watchers key =
      registry.watchers key ++ (added.filter fun entry => entry.1 == key).map Prod.snd := by
  induction added generalizing registry with
  | nil => simp [addAll]
  | cons entry rest ih =>
    have hrest := ih (registry.add entry.1 entry.2)
    rw [addAll, List.foldl_cons, ← addAll, hrest]
    by_cases h : entry.1 = key
    · simp [h]
    · simp [h, watchers_add_of_ne registry (Ne.symm h)]

end Registry
end ViewBinding
