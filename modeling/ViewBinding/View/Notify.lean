import ViewBinding.View.World

/-!
# Notifications

A notification of a key passes over the bindings of that key in the order of registration. Callbacks
may change the key again, which is folded into the notification that runs: the key is passed over
once more, with watchers at most `maxPasses` times, and after that without them, so that the view
ends in step with the store.

How a callback runs is a parameter here, `Caller`, so that each of these functions is defined by
itself.
-/

namespace ViewBinding

/-- How a callback is called with a notice. -/
abbrev Caller := Callback → Notice → World → World

/-- The passes over a key with watchers in one notification. -/
def maxPasses : Nat := 16

namespace World

def applyBinding (call : Caller) (b : Binding) (value : Option Value) (w : World) : World :=
  match b with
  | .watch _ callback => call callback (.watched value) w
  | _ =>
    match b.change? (shownText value) with
    | some change => w.perform change
    | none => w

/-- Applies a binding of a pass to the value that its key has now. Nothing is applied after the view
model was disposed; the model binding that the change came from is left out, and watchers are left
out of a pass over the view only. -/
def visitBinding (call : Caller) (id : ViewId) (key : String) (origin : Option NodeId)
    (viewOnly : Bool) (w : World) (b : Binding) : World :=
  match w.views[id]? with
  | none => w
  | some view =>
    if view.disposed || (viewOnly && b.isWatch) || origin.any b.isModelOf then w
    else
      let value := view.store.get? key
      (w.emit (.applied id b value)).applyBinding call b value

def watchers (w : World) (id : ViewId) (key : String) : List Binding :=
  match w.views[id]? with
  | some view => view.registry.watchers key
  | none => []

/-- Passes over the bindings of a key, and tells how many there are. -/
def runPass (call : Caller) (id : ViewId) (key : String) (origin : Option NodeId)
    (viewOnly : Bool) (w : World) : World × Nat :=
  let bindings := w.watchers id key
  let began := (w.modifyView id fun v => { v with passes := v.passes + 1 }).emit
    (.passBegan id key viewOnly)
  let ran := bindings.foldl (visitBinding call id key origin viewOnly) began
  let ended := (ran.modifyView id fun v => { v with passes := v.passes - 1 }).emit
    (.passEnded id key)
  (ended, bindings.length)

/-- Whether a key of a view model must be passed over again. -/
def isDirty (w : World) (id : ViewId) (key : String) : Bool :=
  match w.views[id]? with
  | some view => view.dirty.contains key
  | none => false

def isDisposed (w : World) (id : ViewId) : Bool :=
  match w.views[id]? with
  | some view => view.disposed
  | none => true

def isInFlight (w : World) (id : ViewId) (key : String) : Bool :=
  match w.views[id]? with
  | some view => view.inFlight.contains key
  | none => false

/-- Passes over a key as long as it was changed meanwhile: so many times with watchers, and then
once without. -/
def repeatPasses (call : Caller) (id : ViewId) (key : String) : Nat → Nat → World → World × Nat
  | remaining, ran, w =>
    let again := w.isDirty id key
    let cleared := w.modifyView id (·.clearDirty key)
    if again && !cleared.isDisposed id then
      match remaining with
      | 0 => ((cleared.runPass call id key none true).1, ran)
      | remaining + 1 =>
        let (passed, count) := cleared.runPass call id key none false
        repeatPasses call id key remaining (ran + count) passed
    else (cleared, ran)

/-- Notifies a key, after a change of an input if there is an origin, and tells how many watchers
its passes have met. -/
def notifyFrom (call : Caller) (id : ViewId) (key : String) (origin : Option NodeId) (w : World) :
    World × Nat :=
  if w.isDisposed id then (w, 0)
  else if w.isInFlight id key then
    ((w.modifyView id (·.markDirty key)).emit (.folded id key), 0)
  else
    let began := (w.modifyView id fun v => { v with inFlight := key :: v.inFlight }).emit
      (.frameBegan id key origin)
    let (first, count) := began.runPass call id key origin false
    let (last, ran) := first.repeatPasses call id key (maxPasses - 1) count
    let ended := last.modifyView id fun v => { v with inFlight := v.inFlight.tail }.settle
    (ended.emit (.frameEnded id key ran), ran)

/-- A view model's answer to a change of an input: the value goes into the store, and its key is
notified. -/
def handleChange (call : Caller) (id : ViewId) (node : NodeId) (key text : String) (w : World) :
    World :=
  match w.views[id]? with
  | none => w
  | some view =>
    if view.disposed then w
    else
      let value := (w.doc.value? node).getD text
      let written := w.modifyView id fun v => { v with store := v.store.set key (.string value) }
      (written.notifyFrom call id key (if view.settings.echo then none else some node)).1

/-- Tells a listener that an input was changed. A view model that is no longer alive is not told. -/
def fire (call : Caller) (node : NodeId) (text : String) (w : World) (listener : Listener) :
    World :=
  match listener with
  | .callback callback => call callback (.changed text) w
  | .model id key =>
    if w.isAlive id then
      (w.pinned id fun w => (w.handleChange call id node key text, ())).1
    else w

/-- The user changes the value of an input: the listeners that the node has now are told, in the
order of registration. Tells how many there are; a node without a value has none. -/
def dispatch (call : Caller) (node : NodeId) (text : String) (w : World) : World × Nat :=
  if w.doc.supportsValue node then
    let changed := { w with doc := w.doc.setValue node text }
    let listeners := w.listenersOf node
    (listeners.foldl (fire call node text) changed, listeners.length)
  else (w, 0)

end World
end ViewBinding
