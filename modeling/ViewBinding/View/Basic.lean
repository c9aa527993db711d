import ViewBinding.Binding
import ViewBinding.Registry

/-!
# View models

The state of one mounted view model: its data, the bindings of each key, and what is going on in it.
While a pass over the bindings of a key runs, nothing is added to the registry; bindings that are
registered meanwhile wait until no pass runs. A notification of a key that is being notified is not
run at once but remembered, so that the key is passed over again.
-/

namespace ViewBinding

/-- A view model's place in the order of mounting. -/
abbrev ViewId := Nat

structure View where
  root : NodeId
  settings : Settings
  store : Store
  registry : Registry Binding
  /-- Bindings that wait until no pass runs, in the order of registration. -/
  deferred : List Binding := []
  /-- The keys being notified, the innermost first. -/
  inFlight : List String := []
  /-- The keys being notified that must be passed over again. -/
  dirty : List String := []
  disposed : Bool := false
  passes : Nat := 0
  /-- The number of calls in progress; they keep the view model alive. -/
  pins : Nat := 0

namespace View

/-- A view model with the bindings that were found, each under its key. -/
def mounted (root : NodeId) (settings : Settings) (store : Store) (bindings : List Binding) :
    View :=
  { root, settings, store, registry := Registry.empty.addAll (bindings.map fun b => (b.key, b)) }

/-- Adds a binding, at once or when no pass runs any more. -/
def register (view : View) (b : Binding) : View :=
  if view.passes = 0 then { view with registry := view.registry.add b.key b }
  else { view with deferred := view.deferred ++ [b] }

/-- Drops every binding, those in the registry as soon as no pass runs. -/
def dispose (view : View) : View :=
  { view with
    disposed := true
    deferred := []
    registry := if view.passes = 0 then .empty else view.registry }

/-- Does what had to wait for the last pass to end. -/
def settle (view : View) : View :=
  if view.passes ≠ 0 then view
  else if view.disposed then { view with registry := .empty, deferred := [] }
  else
    { view with
      registry := view.registry.addAll (view.deferred.map fun b => (b.key, b))
      deferred := [] }

/-- Remembers that a key must be passed over again. -/
def markDirty (view : View) (key : String) : View :=
  if view.dirty.contains key then view else { view with dirty := view.dirty ++ [key] }

/-- Forgets that a key must be passed over again. -/
def clearDirty (view : View) (key : String) : View :=
  { view with dirty := view.dirty.erase key }

/-- A view model with the state that others can see. -/
def describe (view : View) : String :=
  "ViewModel \x7b root: NodeId(" ++ toString view.root ++ "), keys: " ++ toString view.store.size
    ++ ", bindings: " ++ toString view.registry.total
    ++ ", disposed: " ++ toString view.disposed ++ " \x7d"

end View
end ViewBinding
