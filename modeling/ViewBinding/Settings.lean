import ViewBinding.Directive
import ViewBinding.Document.Query
import ViewBinding.Store
import ViewBinding.Template

/-!
# Settings and mount targets

How bindings are found in a document, and where a view model is mounted.
-/

namespace ViewBinding

/-- How bindings are written, and what a change by the user does. -/
structure Settings where
  /-- The start of the names of directive attributes. -/
  directiveStart : String := Directive.standardStart
  delimiters : Delimiters := .standard
  /-- Whether a change by the user is also written back to the input it came from. -/
  echo : Bool := false
deriving DecidableEq, Repr

/-- Where to mount: on the first element that a selector accepts, or on a node. -/
inductive Target where
  | selector (text : String)
  | node (id : NodeId)
deriving DecidableEq, Repr

/-- Why there is nothing to mount on. -/
inductive MountError where
  | notFound (selector : String)
  | detached (node : NodeId)
deriving DecidableEq, Repr

def MountError.message : MountError → String
  | notFound selector =>
    "no mountable element: selector '" ++ selector ++ "' matched nothing"
  | detached node =>
    "no mountable element: " ++ nodeName node ++ " does not belong to the host"

def Target.resolve (target : Target) (doc : Document) : Except MountError NodeId :=
  match target with
  | selector text =>
    match doc.query? text with
    | some id => .ok id
    | none => .error (.notFound text)
  | node id => if doc.contains id then .ok id else .error (.detached id)

structure MountOptions where
  target : Target
  data : Option Store := none

namespace MountOptions

def entry (options : MountOptions) (key : String) (value : Value) : MountOptions :=
  { options with data := some ((options.data.getD .empty).set key value) }

/-- The initial data: none is the same as an empty store. -/
def store (options : MountOptions) : Store := options.data.getD .empty

end MountOptions
end ViewBinding
