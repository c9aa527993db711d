import ViewBinding.Document.Basic
import ViewBinding.Settings

/-!
# Bindings

A binding ties a key to a place in the document, or to a callback. Applied to a value, it makes one
change to the document, or a call.
-/

namespace ViewBinding

/-- A script that callbacks run, by number. -/
abbrev ScriptId := Nat

/-- A registered callback: the script that it runs, and its place in the order of registration. -/
structure Callback where
  script : ScriptId
  registration : Nat
deriving DecidableEq, Repr

/-- A tie between a key and what shows its value. -/
inductive Binding where
  /-- The text node or element shows a template filled with the value. -/
  | interpolation (node : NodeId) (template : Template)
  /-- The element shows the value as its text. -/
  | text (node : NodeId) (key : String)
  /-- The input has the value. -/
  | model (node : NodeId) (key : String)
  /-- The callback is told the value. -/
  | watch (key : String) (callback : Callback)
deriving DecidableEq, Repr

/-- A change that a view model makes to its host. -/
inductive HostChange where
  | setText (node : NodeId) (text : String)
  | setValue (node : NodeId) (text : String)
  | listen (node : NodeId)
deriving DecidableEq, Repr

namespace Binding

def key : Binding → String
  | interpolation _ template => template.key
  | text _ key | model _ key | watch key _ => key

/-- The node that a binding writes to. -/
def target? : Binding → Option NodeId
  | interpolation node _ | text node _ | model node _ => some node
  | watch .. => none

def template? : Binding → Option Template
  | interpolation _ template => some template
  | _ => none

/-- Whether a binding calls back instead of writing. -/
def isWatch : Binding → Bool
  | watch .. => true
  | _ => false

/-- Whether a binding is the model binding of a node. -/
def isModelOf (node : NodeId) : Binding → Bool
  | model target _ => target == node
  | _ => false

def modelInput? : Binding → Option (NodeId × String)
  | model node key => some (node, key)
  | _ => none

/-- The change that shows a text, for all bindings but watchers. -/
def change? (shown : String) : Binding → Option HostChange
  | interpolation node template => some (.setText node (template.render shown))
  | text node _ => some (.setText node shown)
  | model node _ => some (.setValue node shown)
  | watch .. => none

/-- The kind of a binding with its template, as it is described. -/
def describe : Binding → String
  | interpolation _ template => "Interpolation(" ++ Text.quoted template.source ++ ")"
  | text .. => "Text"
  | model .. => "Model"
  | watch .. => "Watch(..)"

end Binding

/-- A value as bindings show it: a missing one is shown empty. -/
def shownText : Option Value → String
  | some value => value.render
  | none => ""

def Document.perform (doc : Document) : HostChange → Document
  | .setText node text => doc.setTextContent node text
  | .setValue node text => doc.setValue node text
  | .listen _ => doc

end ViewBinding
