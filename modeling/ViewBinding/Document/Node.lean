/-!
# Nodes

What a document is made of. Nodes are named by their position in the order of creation, and each
holds the links to its parent and its children.
-/

namespace ViewBinding

/-- A node's place in the order of creation; 0 is the document node. Documents of fewer than 2^32
nodes are meant: beyond that a place no longer fits a name of 32 bits, and nodes would share one. -/
abbrev NodeId := Nat

structure Attribute where
  name : String
  value : String
deriving DecidableEq, Repr

inductive NodeKind where
  | document
  | element
  | text
  | comment
deriving DecidableEq, Repr

/-- What a node is, apart from its place in the tree. -/
inductive Content where
  | document
  /-- An element; only input-like ones carry a value, which the user can edit. -/
  | element (tag : String) (attributes : List Attribute) (value : Option String)
  | text (data : String)
  | comment (data : String)
deriving DecidableEq, Repr

structure Node where
  content : Content
  parent : Option NodeId := none
  children : List NodeId := []
deriving DecidableEq, Repr

namespace Content

def kind : Content → NodeKind
  | document => .document
  | element .. => .element
  | text _ => .text
  | comment _ => .comment

def isContainer : Content → Bool
  | document | element .. => true
  | text _ | comment _ => false

def attributes : Content → List Attribute
  | element _ attributes _ => attributes
  | _ => []

def value? : Content → Option String
  | element _ _ value => value
  | _ => none

def tag? : Content → Option String
  | element tag _ _ => some tag
  | _ => none

end Content

/-- The value of an attribute by its exact name. -/
def attributeValue? (name : String) (attributes : List Attribute) : Option String :=
  (attributes.find? fun a => a.name == name).map Attribute.value

/-- Sets an attribute in its place, or adds it at the end. -/
def setAttributeValue (name value : String) : List Attribute → List Attribute
  | [] => [⟨name, value⟩]
  | a :: rest => if a.name = name then ⟨name, value⟩ :: rest else a :: setAttributeValue name value rest

end ViewBinding
