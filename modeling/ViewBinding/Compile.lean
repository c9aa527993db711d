import ViewBinding.Binding

/-!
# Compiling a subtree

The bindings of a subtree are found in one walk, children before their parents, and each is applied
as soon as it is found. The walk goes over the children that a node had when it was reached, so what
bindings put into the tree is not looked at.
-/

namespace ViewBinding

/-- What a walk has found and done. -/
structure Compilation where
  doc : Document
  /-- The bindings in the order in which they were found. -/
  bindings : List Binding := []
  /-- The inputs that were bound, with their keys, in the order in which they were found. -/
  modelInputs : List (NodeId × String) := []
  /-- The nodes that were asked for their children, the latest first. -/
  visited : List NodeId := []
deriving DecidableEq

namespace Compilation

def walks (c : Compilation) : Nat := c.visited.length

def bind (store : Store) (c : Compilation) (b : Binding) : Compilation :=
  { c with
    doc := match b.change? (shownText (store.get? b.key)) with
      | some change => c.doc.perform change
      | none => c.doc
    bindings := c.bindings ++ [b] }

/-- Looks at an attribute of an element: a directive with a key binds the element. -/
def visitAttribute (settings : Settings) (store : Store) (id : NodeId) (c : Compilation)
    (a : Attribute) : Compilation :=
  let key := Text.trim a.value
  match Directive.ofAttribute? a.name settings.directiveStart with
  | none | some (.unknown _) => c
  | some .text => if key.isEmpty then c else c.bind store (.text id key)
  | some .model =>
    if key.isEmpty || !c.doc.supportsValue id then c
    else
      let bound := c.bind store (.model id key)
      { bound with modelInputs := bound.modelInputs ++ [(id, key)] }

/-- Looks at a node whose children have been seen. -/
def visitNode (settings : Settings) (store : Store) (c : Compilation) (id : NodeId) :
    Compilation :=
  match c.doc.node? id with
  | none => c
  | some node =>
    match node.content with
    | .text data =>
      match Template.parse? settings.delimiters data with
      | some template => c.bind store (.interpolation id template)
      | none => c
    | .element _ attributes _ => attributes.foldl (visitAttribute settings store id) c
    | .comment _ | .document => c

/-- Walks over a node and what is under it, down to a depth. -/
def walk (settings : Settings) (store : Store) : Nat → Compilation → NodeId → Compilation
  | 0, c, _ => c
  | depth + 1, c, id =>
    let entered := { c with visited := id :: c.visited }
    visitNode settings store ((c.doc.children id).foldl (walk settings store depth) entered) id

end Compilation

/-- Finds and applies the bindings of a subtree. No path in a tree is longer than the number of
nodes. -/
def compile (doc : Document) (store : Store) (settings : Settings) (root : NodeId) : Compilation :=
  Compilation.walk settings store doc.size { doc } root

end ViewBinding
