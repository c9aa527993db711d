import ViewBinding.Document.Basic
import ViewBinding.Selector

/-!
# Searching a document

The first element that a selector accepts, in document order. The search takes nodes from a list of
those still to be seen, which begins with the children of the root; the children of a node that is
not accepted are put in front.
-/

namespace ViewBinding
namespace Document

/-- Whether a selector accepts a node: it must be an element. -/
def isSelected (doc : Document) (selector : Selector) (id : NodeId) : Bool :=
  match doc.tag? id with
  | some tag => selector.accepts tag (doc.attribute? id "id") (doc.attribute? id "class")
  | none => false

/-- The first accepted node among pending ones and what is under them, looking at `steps` nodes. -/
def firstSelected (doc : Document) (selector : Selector) : Nat → List NodeId → Option NodeId
  | _, [] => none
  | 0, _ => none
  | steps + 1, id :: pending =>
    if doc.isSelected selector id then some id
    else firstSelected doc selector steps (doc.children id ++ pending)

/-- The first element under the root that a selector accepts. -/
def query? (doc : Document) (selector : String) : Option NodeId := do
  let selector ← Selector.parse? selector
  doc.firstSelected selector doc.size (doc.children root)

end Document
end ViewBinding
