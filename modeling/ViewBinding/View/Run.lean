import ViewBinding.View.Notify

/-!
# Running steps

`World.exec` takes one step, with a parameter for how callbacks run; `World.call` runs a callback,
whose script is any function from the number of the call and the value told to a list of steps.
Callbacks may call callbacks, so `World.call` counts how deep they may nest.
-/

namespace ViewBinding

/-- What the scripts of callbacks do: for a script, the number of earlier calls of the callback and
the value told, the steps to take. -/
abbrev Behaviour := ScriptId → Nat → Option Value → List Step

namespace World

/-- Does something to the view model that a handle reaches, and keeps it alive meanwhile. -/
def onView (w : World) (handle : Nat) (action : ViewId → View → World → World × Outcome) :
    World × Outcome :=
  match w.reach? handle with
  | none => (w, .noView)
  | some id =>
    match w.views[id]? with
    | none => (w, .noView)
    | some view => w.pinned id (action id view)

def mountOutcome : World × Except MountError (Nat × NodeId × Nat) → World × Outcome
  | (w, .ok (handle, root, walks)) => (w, .mounted handle root walks)
  | (w, .error e) => (w, .mountError e)

def withDoc (w : World) (doc : Document) : World := { w with doc }

/-- Makes the binding of a subject. A text that is no template has none. -/
def subjectBinding (w : World) : Subject → World × Option Binding
  | .interpolation node text =>
    (w, (Template.parse? .standard text).map (.interpolation node))
  | .text node key => (w, some (.text node key))
  | .model node key => (w, some (.model node key))
  | .watch key script =>
    let (registered, callback) := w.newCallback script
    (registered, some (.watch key callback))

def writeValue (w : World) (id : ViewId) (key : String) (value : Value) : World :=
  w.modifyView id fun v => { v with store := v.store.set key value }

/-- Drops a handle, and tells whether it was held. -/
def dropHandle (w : World) (handle : Nat) : World × Bool :=
  ({ w with handles := w.handles.modify handle fun h => { h with held := false } },
    match w.handles[handle]? with
    | some h => h.held
    | none => false)

def treeOutcome (w : World) : Except TreeError Document → World × Outcome
  | .ok doc => (w.withDoc doc, .done)
  | .error e => (w, .treeError e)

def appendOutcome (w : World) : Document × Except TreeError NodeId → World × Outcome
  | (doc, .ok id) => (w.withDoc doc, .node (some id))
  | (doc, .error e) => (w.withDoc doc, .treeError e)

def createOutcome (w : World) : Document × NodeId → World × Outcome
  | (doc, id) => (w.withDoc doc, .node (some id))

/-- Takes a step; `told` is the value that the enclosing callback was told, if there is one. -/
def exec (call : Caller) (told : Option Value) (w : World) : Step → World × Outcome
  | .createElement tag => w.createOutcome (w.doc.createElement tag)
  | .createText data => w.createOutcome (w.doc.createText data)
  | .createComment data => w.createOutcome (w.doc.createComment data)
  | .appendChild parent child => w.treeOutcome (w.doc.appendChild parent child)
  | .appendElement parent tag attributes =>
    w.appendOutcome (w.doc.appendElement parent tag attributes)
  | .appendText parent data => w.appendOutcome (w.doc.appendText parent data)
  | .setAttribute node name value => w.treeOutcome (w.doc.setAttribute node name value)
  | .getAttribute node name => (w, .text (w.doc.attribute? node name))
  | .parseInto parent markup =>
    match w.doc.parseInto parent markup with
    | (doc, .ok ()) => (w.withDoc doc, .done)
    | (doc, .error e) => (w.withDoc doc, .markupError e)
  | .inspect node => (w, .nodeInfo (w.doc.info node))
  | .setText node text => (w.withDoc (w.doc.setTextContent node text), .done)
  | .setValue node text => (w.withDoc (w.doc.setValue node text), .done)
  | .query selector => (w, .node (w.doc.query? selector))
  | .resolve target =>
    match target.resolve w.doc with
    | .ok id => (w, .node (some id))
    | .error e => (w, .mountError e)
  | .dispatch node text =>
    let (after, count) := w.dispatch call node text
    (after, .count count)
  | .listen node script =>
    let (registered, callback) := w.newCallback script
    (registered.listen node (.callback callback), .done)
  | .documentInfo => (w, .documentInfo w.doc.size w.listeners.length)
  | .dump => (w, .dump w.doc.nodes.toList)
  | .apply subject node value =>
    match w.subjectBinding subject with
    | (made, none) => (made, .applied none)
    | (made, some b) =>
      ((made.emit (.tried b value)).applyBinding call b value,
        .applied (some (b, node.any b.isModelOf)))
  | .mount options settings => mountOutcome (w.mount options settings)
  | .mountConfig format text =>
    match ViewConfig.read format text with
    | .ok config => mountOutcome (w.mount config.options config.settings)
    | .error e => (w, .configError e)
  | .clone handle => w.onView handle fun id view w =>
    let (after, copy) := w.newHandle id
    (after, .mounted copy view.root 0)
  | .drop handle =>
    let (after, held) := w.dropHandle handle
    (after, .flag held)
  | .get handle key => w.onView handle fun _ view w =>
    (w, .value (view.store.get? (Text.trim key)))
  | .data handle => w.onView handle fun _ view w => (w, .store view.store)
  | .write handle key operand => w.onView handle fun id view w =>
    let key := Text.trim key
    (w.writeValue id key (operand.eval told), .value (view.store.get? key))
  | .set handle key operand => w.onView handle fun id _ w =>
    let key := Text.trim key
    let (after, count) := (w.writeValue id key (operand.eval told)).notifyFrom call id key none
    (after, .count count)
  | .notify handle key => w.onView handle fun id _ w =>
    let (after, count) := w.notifyFrom call id (Text.trim key) none
    (after, .count count)
  | .watch handle key script => w.onView handle fun id view w =>
    if view.disposed then (w, .done)
    else
      let (made, callback) := w.newCallback script
      let binding := .watch (Text.trim key) callback
      ((made.modifyView id (·.register binding)).emit (.registered id binding), .done)
  | .bindingCount handle key => w.onView handle fun _ view w =>
    (w, .count (view.registry.count (Text.trim key)))
  | .watchedKeys handle => w.onView handle fun _ view w => (w, .count view.registry.size)
  | .dispose handle => w.onView handle fun id _ w => (w.modifyView id View.dispose, .done)
  | .viewInfo handle => w.onView handle fun _ view w =>
    (w, .viewInfo {
      root := view.root
      nodes := w.doc.size
      settings := view.settings
      disposed := view.disposed
      watchedKeys := view.registry.size
      description := view.describe })

/-- Takes a step of a callback's script and records what came of it. -/
def execScripted (call : Caller) (callback : Callback) (told : Option Value) (w : World)
    (step : Step) : World :=
  let (after, outcome) := w.exec call told step
  after.emit (.did callback step outcome)

/-- Calls a callback: the call is counted, and then the steps of its script are taken. Callbacks
nest at most so deep. -/
def call (behaviour : Behaviour) : Nat → Caller
  | 0, callback, _, w => w.emit (.exhausted callback)
  | depth + 1, callback, notice, w =>
    let counted := (w.emit (.called callback notice)).countCall callback
    (behaviour callback.script (w.callCount callback) notice.told).foldl
      (execScripted (call behaviour depth) callback notice.told) counted

/-- Takes a step at top level. -/
def run (behaviour : Behaviour) (depth : Nat) (w : World) (step : Step) : World × Outcome :=
  w.exec (call behaviour depth) none step

/-- The world of a document on which nothing is mounted. -/
def ofDocument (doc : Document) : World := { doc }

end World
end ViewBinding
