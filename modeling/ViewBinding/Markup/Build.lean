import ViewBinding.Document.Basic
import ViewBinding.Markup.Token

/-!
# Documents from markup

Tokens are placed under a node one after another. The elements that are still open are kept with
the innermost first; new nodes go under that one.
-/

namespace ViewBinding
namespace Markup

/-- The tags that never have content: their elements are closed at once. -/
def voidTags : List String := ["input", "br", "hr", "img", "meta", "link"]

def isVoid (tag : String) : Bool := voidTags.contains tag

/-- The elements still open, innermost first. -/
abbrev Opened := List (NodeId × String)

/-- The node that new nodes go under. -/
def place (parent : NodeId) : Opened → NodeId
  | [] => parent
  | (element, _) :: _ => element

/-- Appends a new node. A parent that holds no children leaves it detached. -/
def attach (doc : Document) (parent child : NodeId) : Document :=
  match doc.appendChild parent child with
  | .ok attached => attached
  | .error _ => doc

/-- Creates an element with the attributes of a tag. -/
def createTagged (doc : Document) (tag : String) (attributes : List Attribute) :
    Document × NodeId :=
  let (created, id) := doc.createElement tag
  match created.setAttributes id attributes with
  | .ok named => (named, id)
  | .error _ => (created, id)

/-- Closes the innermost open element, which must have the tag. -/
def close (tag : String) (offset : Nat) : Opened → Except MarkupError Opened
  | [] => .error (.mismatchedClose none tag offset)
  | (_, expected) :: outer =>
    if expected = tag then .ok outer else .error (.mismatchedClose (some expected) tag offset)

/-- Places tokens under a node, up to a closing tag that does not fit. -/
def build (parent : NodeId) : List Token → Document → Opened →
    Document × Except MarkupError Opened
  | [], doc, opened => (doc, .ok opened)
  | .comment data :: rest, doc, opened =>
    let (created, id) := doc.createComment data
    build parent rest (attach created (place parent opened) id) opened
  | .text data :: rest, doc, opened =>
    let (created, id) := doc.createText data
    build parent rest (attach created (place parent opened) id) opened
  | .opening tag attributes selfClosing :: rest, doc, opened =>
    let (created, id) := createTagged doc tag attributes
    build parent rest (attach created (place parent opened) id)
      (if selfClosing || isVoid tag then opened else (id, tag) :: opened)
  | .closing tag offset :: rest, doc, opened =>
    match close tag offset opened with
    | .ok outer => build parent rest doc outer
    | .error e => (doc, .error e)

/-- Creates the detached element that a faulty tag has named. -/
def leaveElement (doc : Document) (fault : Fault) : Document :=
  match fault.element with
  | some (tag, attributes) => (createTagged doc tag attributes).1
  | none => doc

/-- How markup ends when all its tokens are placed: with the fault that stopped reading, or with an
element still open, or well. -/
def finish (doc : Document) : Option Fault → Opened → Document × Except MarkupError Unit
  | some fault, _ => (leaveElement doc fault, .error fault.error)
  | none, (_, tag) :: _ => (doc, .error (.unclosed tag))
  | none, [] => (doc, .ok ())

end Markup

/-- Reads markup and puts what it says under a node. The nodes made before an error stay. -/
def Document.parseInto (doc : Document) (parent : NodeId) (markup : String) :
    Document × Except MarkupError Unit :=
  let (tokens, fault) := Markup.tokens (.start markup.toList)
  match Markup.build parent tokens doc [] with
  | (built, .error e) => (built, .error e)
  | (built, .ok opened) => Markup.finish built fault opened

def Document.parse (markup : String) : Except MarkupError Document :=
  match Document.empty.parseInto Document.root markup with
  | (doc, .ok ()) => .ok doc
  | (_, .error e) => .error e

end ViewBinding
