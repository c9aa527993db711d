import ViewBinding.Config
import ViewBinding.Markup.Write
import ViewBinding.View.Basic

/-!
# Steps and their outcomes

What can be done to a document and its view models, at top level or by a callback. A step names a
view model by the number of a handle.
-/

namespace ViewBinding

/-- A value that a step writes, perhaps made from the value that the callback was told. -/
inductive Operand where
  | literal (value : Value)
  /-- One more than the number told, or one. -/
  | increment
  /-- The value told, or null. -/
  | same
  /-- The value told between angle brackets, as it is shown. -/
  | wrap

/-- The value of an operand, for the value told, if there is one. -/
def Operand.eval (told : Option Value) : Operand → Value
  | literal value => value
  | increment =>
    match told with
    | some (.number n) => .number (n.add (.ofNat 1))
    | _ => .ofInt 1
  | same => .ofOption told
  | wrap => .string ("<" ++ shownText told ++ ">")

/-- A binding that a step makes and applies. -/
inductive Subject where
  | interpolation (node : NodeId) (text : String)
  | text (node : NodeId) (key : String)
  | model (node : NodeId) (key : String)
  | watch (key : String) (script : ScriptId)
deriving DecidableEq, Repr

inductive Step where
  | createElement (tag : String)
  | createText (data : String)
  | createComment (data : String)
  | appendChild (parent child : NodeId)
  | appendElement (parent : NodeId) (tag : String) (attributes : List Attribute)
  | appendText (parent : NodeId) (data : String)
  | setAttribute (node : NodeId) (name value : String)
  | getAttribute (node : NodeId) (name : String)
  | parseInto (parent : NodeId) (markup : String)
  | inspect (node : NodeId)
  | setText (node : NodeId) (text : String)
  | setValue (node : NodeId) (text : String)
  | query (selector : String)
  | resolve (target : Target)
  /-- The user changes the value of an input. -/
  | dispatch (node : NodeId) (text : String)
  | listen (node : NodeId) (script : ScriptId)
  | documentInfo
  | dump
  | apply (subject : Subject) (node : Option NodeId) (value : Option Value)
  | mount (options : MountOptions) (settings : Settings)
  | mountConfig (format : ConfigFormat) (text : String)
  | clone (handle : Nat)
  | drop (handle : Nat)
  | get (handle : Nat) (key : String)
  | data (handle : Nat)
  | write (handle : Nat) (key : String) (operand : Operand)
  | set (handle : Nat) (key : String) (operand : Operand)
  | notify (handle : Nat) (key : String)
  | watch (handle : Nat) (key : String) (script : ScriptId)
  | bindingCount (handle : Nat) (key : String)
  | watchedKeys (handle : Nat)
  | dispose (handle : Nat)
  | viewInfo (handle : Nat)

/-- The script that a step registers. -/
def Step.script? : Step → Option ScriptId
  | listen _ script | watch _ _ script | apply (.watch _ script) _ _ => some script
  | _ => none

/-- All that can be asked about a node. -/
structure NodeInfo where
  contains : Bool
  kind : NodeKind
  tag : Option String
  parent : Option NodeId
  children : List NodeId
  attributes : List Attribute
  text : Option String
  supportsValue : Bool
  value : Option String
  outer : String
  inner : String

def Document.info (doc : Document) (id : NodeId) : NodeInfo where
  contains := doc.contains id
  kind := doc.kind id
  tag := doc.tag? id
  parent := doc.parent? id
  children := doc.children id
  attributes := doc.attributes id
  text := doc.textContent? id
  supportsValue := doc.supportsValue id
  value := doc.value? id
  outer := doc.outerMarkup id
  inner := doc.innerMarkup id

structure ViewInfo where
  root : NodeId
  nodes : Nat
  settings : Settings
  disposed : Bool
  watchedKeys : Nat
  description : String

inductive Outcome where
  | done
  | count (n : Nat)
  | flag (b : Bool)
  | node (id : Option NodeId)
  | text (s : Option String)
  | value (v : Option Value)
  | store (s : Store)
  | nodeInfo (info : NodeInfo)
  | documentInfo (nodes listeners : Nat)
  | dump (nodes : List Node)
  | viewInfo (info : ViewInfo)
  /-- A new handle, the root of its view model, and how many nodes were asked for children. -/
  | mounted (handle : Nat) (root : NodeId) (walks : Nat)
  /-- A binding that was applied, and whether it is the model binding of the node named. -/
  | applied (result : Option (Binding × Bool))
  | treeError (e : TreeError)
  | markupError (e : MarkupError)
  | mountError (e : MountError)
  | configError (e : ConfigError)
  /-- The handle does not reach a view model. -/
  | noView

/-- A document with its counts, as it is described. -/
def describeDocument (nodes listeners : Nat) : String :=
  "Document \x7b node_count: " ++ toString nodes ++ ", listener_count: " ++ toString listeners
    ++ " \x7d"

end ViewBinding
