import ViewBinding.Document.Node
import ViewBinding.Text.Search

/-!
# Documents

A document is an arena of nodes. Nodes are never freed: one that loses its parent stays, and can be
attached again. Operations on a node that was never created change nothing or say so.
-/

namespace ViewBinding

/-- Why a change to the tree is refused. -/
inductive TreeError where
  | unknownNode (node : NodeId)
  /-- The parent cannot hold the child: it holds none, or stands under it. -/
  | badParent (parent child : NodeId)
deriving DecidableEq, Repr

/-- A node as it is named in messages. -/
def nodeName (node : NodeId) : String := "node#" ++ toString node

def TreeError.message : TreeError → String
  | unknownNode node => "unknown node: " ++ nodeName node
  | badParent parent child => "cannot insert " ++ nodeName child ++ " under " ++ nodeName parent

/-- The nodes ever created, in the order of creation. -/
structure Document where
  nodes : Array Node
deriving DecidableEq

namespace Document

/-- The document node, the root of the tree. -/
def root : NodeId := 0

def empty : Document := ⟨#[{ content := .document }]⟩

def size (doc : Document) : Nat := doc.nodes.size

def node? (doc : Document) (id : NodeId) : Option Node := doc.nodes[id]?

def contains (doc : Document) (id : NodeId) : Bool := id < doc.size

/-- The kind of a node; an unknown one counts as a comment. -/
def kind (doc : Document) (id : NodeId) : NodeKind :=
  match doc.node? id with
  | some node => node.content.kind
  | none => .comment

def parent? (doc : Document) (id : NodeId) : Option NodeId := (doc.node? id).bind Node.parent

def children (doc : Document) (id : NodeId) : List NodeId :=
  match doc.node? id with
  | some node => node.children
  | none => []

def attributes (doc : Document) (id : NodeId) : List Attribute :=
  match doc.node? id with
  | some node => node.content.attributes
  | none => []

/-- The value of an attribute; names of attributes are held in small letters and read exactly. -/
def attribute? (doc : Document) (id : NodeId) (name : String) : Option String :=
  attributeValue? name (doc.attributes id)

/-- The tag of an element, in small letters. -/
def tag? (doc : Document) (id : NodeId) : Option String :=
  (doc.node? id).bind fun node => node.content.tag?

def value? (doc : Document) (id : NodeId) : Option String :=
  (doc.node? id).bind fun node => node.content.value?

def supportsValue (doc : Document) (id : NodeId) : Bool := (doc.value? id).isSome

def modify (doc : Document) (id : NodeId) (f : Node → Node) : Document :=
  ⟨doc.nodes.modify id f⟩

def modifyContent (doc : Document) (id : NodeId) (f : Content → Content) : Document :=
  doc.modify id fun node => { node with content := f node.content }

def create (doc : Document) (content : Content) : Document × NodeId :=
  (⟨doc.nodes.push { content }⟩, doc.size)

/-- The tags of the elements that carry a value. -/
def valueTags : List String := ["input", "textarea"]

/-- Creates a detached element; its tag is turned into small letters. -/
def createElement (doc : Document) (tag : String) : Document × NodeId :=
  let tag := Text.lowercase tag
  doc.create (.element tag [] (if valueTags.contains tag then some "" else none))

def createText (doc : Document) (data : String) : Document × NodeId := doc.create (.text data)

def createComment (doc : Document) (data : String) : Document × NodeId := doc.create (.comment data)

def setValue (doc : Document) (id : NodeId) (value : String) : Document :=
  doc.modifyContent id fun
    | .element tag attributes (some _) => .element tag attributes (some value)
    | content => content

/-- Sets an attribute of a content, and the value with the attribute of that name. -/
def contentWithAttribute (name value : String) : Content → Content
  | .element tag attributes old =>
    .element tag (setAttributeValue name value attributes)
      (if name = "value" then old.map fun _ => value else old)
  | content => content

/-- Sets an attribute of an element; its name is turned into small letters. On an input-like
element the attribute `value` sets the value too. -/
def setAttribute (doc : Document) (id : NodeId) (name value : String) :
    Except TreeError Document :=
  if doc.kind id = .element then
    .ok (doc.modifyContent id (contentWithAttribute (Text.lowercase name) value))
  else .error (.unknownNode id)

/-- Whether `candidate` is met on the way of at most `steps` nodes from `id` up. -/
def meetsAbove (doc : Document) (candidate : NodeId) : Nat → NodeId → Bool
  | 0, _ => false
  | steps + 1, id =>
    id == candidate || match doc.parent? id with
      | some parent => meetsAbove doc candidate steps parent
      | none => false

/-- Whether `candidate` is `id` or an ancestor of it. -/
def isAncestorOrSelf (doc : Document) (candidate id : NodeId) : Bool :=
  doc.meetsAbove candidate doc.size id

/-- Takes a node out of the children of its parent. -/
def detach (doc : Document) (child : NodeId) : Document :=
  match doc.parent? child with
  | some old =>
    (doc.modify child fun node => { node with parent := none }).modify old fun node =>
      { node with children := node.children.filter (· != child) }
  | none => doc

/-- Puts a node without a parent behind the children of another. -/
def attachLast (doc : Document) (parent child : NodeId) : Document :=
  (doc.modify child fun node => { node with parent := some parent }).modify parent fun node =>
    { node with children := node.children ++ [child] }

def isContainer (doc : Document) (id : NodeId) : Bool :=
  match doc.node? id with
  | some node => node.content.isContainer
  | none => false

/-- Makes `child` the last child of `parent`, away from any former parent. -/
def appendChild (doc : Document) (parent child : NodeId) : Except TreeError Document :=
  if !doc.contains parent then .error (.unknownNode parent)
  else if !doc.contains child then .error (.unknownNode child)
  else if !doc.isContainer parent || child == root || doc.isAncestorOrSelf child parent then
    .error (.badParent parent child)
  else .ok ((doc.detach child).attachLast parent child)

def setAttributes (doc : Document) (id : NodeId) (attributes : List Attribute) :
    Except TreeError Document :=
  attributes.foldlM (fun doc a => doc.setAttribute id a.name a.value) doc

/-- Creates an element with attributes and appends it. When the parent refuses it, the element
stays, detached. -/
def appendElement (doc : Document) (parent : NodeId) (tag : String) (attributes : List Attribute) :
    Document × Except TreeError NodeId :=
  let (created, id) := doc.createElement tag
  match created.setAttributes id attributes with
  | .error e => (created, .error e)
  | .ok named =>
    match named.appendChild parent id with
    | .error e => (named, .error e)
    | .ok attached => (attached, .ok id)

/-- Creates a text node and appends it. When the parent refuses it, the text node stays, detached. -/
def appendText (doc : Document) (parent : NodeId) (data : String) :
    Document × Except TreeError NodeId :=
  let (created, id) := doc.createText data
  match created.appendChild parent id with
  | .error e => (created, .error e)
  | .ok attached => (attached, .ok id)

/-- Takes the parent from nodes. -/
def orphan (doc : Document) (ids : List NodeId) : Document :=
  ids.foldl (fun doc id => doc.modify id fun node => { node with parent := none }) doc

def removeChildren (doc : Document) (id : NodeId) : Document :=
  (doc.modify id fun node => { node with children := [] }).orphan (doc.children id)

/-- Replaces what a node shows: the data of a text or comment, or the children of an element by one
text node, or by none when the text is empty. -/
def setTextContent (doc : Document) (id : NodeId) (text : String) : Document :=
  match doc.kind id with
  | .text => doc.modifyContent id fun _ => .text text
  | .comment => doc.modifyContent id fun _ => .comment text
  | .document => doc
  | .element =>
    if text.isEmpty then doc.removeChildren id
    else
      let (created, child) := doc.createText text
      (created.removeChildren id).attachLast id child

/-- The text under a node, down to a depth: comments count for nothing. -/
def textWithin (doc : Document) : Nat → NodeId → String
  | 0, _ => ""
  | depth + 1, id =>
    match doc.node? id with
    | none => ""
    | some node =>
      match node.content with
      | .text data => data
      | .comment _ => ""
      | .element .. | .document => String.join (node.children.map (textWithin doc depth))

/-- What a node shows: the data of a text or comment, and for an element the text under it. -/
def textContent? (doc : Document) (id : NodeId) : Option String :=
  match doc.node? id with
  | none => none
  | some node =>
    match node.content with
    | .text data | .comment data => some data
    | .element .. => some (doc.textWithin doc.size id)
    | .document => none

end Document
end ViewBinding
