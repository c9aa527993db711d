import ViewBinding.Compile
import ViewBinding.View.Step

/-!
# A document and its view models

The world that steps change: one document, the change listeners on its nodes, the view models
mounted on it, and the handles that keep them alive. A trace records what happens in it.
-/

namespace ViewBinding

/-- What a callback is told. -/
inductive Notice where
  /-- The value of the watched key. -/
  | watched (value : Option Value)
  /-- The text that the user has put into the input. -/
  | changed (text : String)

def Notice.told : Notice → Option Value
  | watched value => value
  | changed text => some (.string text)

inductive Event where
  | called (callback : Callback) (notice : Notice)
  /-- A callback has taken a step. -/
  | did (callback : Callback) (step : Step) (outcome : Outcome)
  /-- A view model changes its host. -/
  | changed (change : HostChange)
  /-- A notification of a key begins, perhaps with an input whose change it answers and whose model
  binding its first pass leaves out. -/
  | frameBegan (view : ViewId) (key : String) (origin : Option NodeId)
  /-- A notification of a key has run so many watchers. -/
  | frameEnded (view : ViewId) (key : String) (ran : Nat)
  /-- A pass over the bindings of a key begins, perhaps without the watchers among them. -/
  | passBegan (view : ViewId) (key : String) (viewOnly : Bool)
  | passEnded (view : ViewId) (key : String)
  | applied (view : ViewId) (binding : Binding) (value : Option Value)
  /-- A step applies a binding that no view model has. -/
  | tried (binding : Binding) (value : Option Value)
  /-- A key that is being notified is notified again. -/
  | folded (view : ViewId) (key : String)
  /-- A callback was called too deep inside others to take its steps. -/
  | exhausted (callback : Callback)
  /-- A view model is mounted with the bindings that were found. -/
  | mounted (view : ViewId) (bindings : List Binding)
  /-- A watcher is registered with a view model. -/
  | registered (view : ViewId) (binding : Binding)

/-- What listens to changes of an input. -/
inductive Listener where
  /-- The model binding of a view model. -/
  | model (view : ViewId) (key : String)
  | callback (callback : Callback)
deriving DecidableEq, Repr

/-- A handle to a view model, held or dropped. -/
structure Handle where
  view : ViewId
  held : Bool := true
deriving DecidableEq, Repr

/-- An event, with the view models as they are once it has happened. -/
structure Moment where
  event : Event
  views : Array View

/-- A document with its listeners and view models. -/
structure World where
  doc : Document
  /-- The listeners with their nodes, in the order of registration. -/
  listeners : List (NodeId × Listener) := []
  views : Array View := #[]
  handles : Array Handle := #[]
  /-- How often each registered callback was called. -/
  calls : Array Nat := #[]
  /-- What has happened, the latest first. -/
  trace : List Moment := []

namespace World

def emit (w : World) (e : Event) : World := { w with trace := ⟨e, w.views⟩ :: w.trace }

/-- Changes the document for a view model, and records the change. -/
def perform (w : World) (change : HostChange) : World :=
  { w.emit (.changed change) with doc := w.doc.perform change }

def modifyView (w : World) (id : ViewId) (f : View → View) : World :=
  { w with views := w.views.modify id f }

/-- The listeners on a node, in the order of registration. -/
def listenersOf (w : World) (node : NodeId) : List Listener :=
  (w.listeners.filter fun entry => entry.1 == node).map Prod.snd

/-- Adds a listener to a node, if the node exists. -/
def listen (w : World) (node : NodeId) (listener : Listener) : World :=
  if w.doc.contains node then { w with listeners := w.listeners ++ [(node, listener)] } else w

/-- Registers a callback that runs a script. -/
def newCallback (w : World) (script : ScriptId) : World × Callback :=
  ({ w with calls := w.calls.push 0 }, { script, registration := w.calls.size })

def callCount (w : World) (c : Callback) : Nat := (w.calls[c.registration]?).getD 0

def countCall (w : World) (c : Callback) : World :=
  { w with calls := w.calls.modify c.registration (· + 1) }

/-- Whether a view model is alive: a handle to it is held, or a call on it is in progress. -/
def isAlive (w : World) (id : ViewId) : Bool :=
  w.handles.any (fun h => h.view == id && h.held) ||
    match w.views[id]? with
    | some view => view.pins != 0
    | none => false

/-- The view model that a handle reaches. -/
def reach? (w : World) (handle : Nat) : Option ViewId := do
  let h ← w.handles[handle]?
  if w.isAlive h.view then some h.view else none

def newHandle (w : World) (id : ViewId) : World × Nat :=
  ({ w with handles := w.handles.push { view := id } }, w.handles.size)

/-- Keeps a view model alive while something is done. -/
def pinned {α : Type} (w : World) (id : ViewId) (action : World → World × α) : World × α :=
  let (after, a) := action (w.modifyView id fun v => { v with pins := v.pins + 1 })
  (after.modifyView id fun v => { v with pins := v.pins - 1 }, a)

/-- Mounts a view model: its bindings are found and applied, and it listens to the inputs that are
bound in both directions. -/
def mount (w : World) (options : MountOptions) (settings : Settings) :
    World × Except MountError (Nat × NodeId × Nat) :=
  match options.target.resolve w.doc with
  | .error e => (w, .error e)
  | .ok root =>
    let compiled := compile w.doc options.store settings root
    let changes := compiled.bindings.filterMap fun b =>
      b.change? (shownText (options.store.get? b.key))
    let id := w.views.size
    let bound := changes.foldl (fun w change => w.emit (.changed change)) w
    let mounted : World :=
      { bound with
        doc := compiled.doc
        views := w.views.push (.mounted root settings options.store compiled.bindings) }
    let listening := compiled.modelInputs.foldl
      (fun w (node, key) => (w.perform (.listen node)).listen node (.model id key))
      (mounted.emit (.mounted id compiled.bindings))
    let (result, handle) := listening.newHandle id
    (result, .ok (handle, root, compiled.walks))

end World
end ViewBinding
