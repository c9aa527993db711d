import ViewBinding.Markup.Build

/-!
# Markup from documents

A node is written as markup that reads back as it. Elements that never have content are written
without their children and without a closing tag.
-/

namespace ViewBinding
namespace Markup

/-- An attribute behind a tag. -/
def attributeMarkup (a : Attribute) : List Char :=
  ' ' :: (a.name.toList ++ '=' :: '"' :: (escapeAttribute a.value.toList ++ ['"']))

def openingMarkup (tag : String) (attributes : List Attribute) : List Char :=
  '<' :: (tag.toList ++ attributes.flatMap attributeMarkup ++ ['>'])

def closingMarkup (tag : String) : List Char := '<' :: '/' :: (tag.toList ++ ['>'])

def commentMarkup (data : String) : List Char :=
  '<' :: '!' :: '-' :: '-' :: (data.toList ++ ['-', '-', '>'])

/-- A node and what is under it, down to a depth. An unknown node is an empty comment. -/
def nodeMarkup (doc : Document) : Nat → NodeId → List Char
  | 0, _ => []
  | depth + 1, id =>
    match doc.node? id with
    | none => commentMarkup ""
    | some node =>
      match node.content with
      | .text data => escapeText data.toList
      | .comment data => commentMarkup data
      | .document => node.children.flatMap (nodeMarkup doc depth)
      | .element tag attributes _ =>
        openingMarkup tag attributes ++
          if isVoid tag then []
          else node.children.flatMap (nodeMarkup doc depth) ++ closingMarkup tag

end Markup

/-- A node and what is under it as markup. No path in a tree is longer than the number of nodes. -/
def Document.outerMarkup (doc : Document) (id : NodeId) : String :=
  String.ofList (Markup.nodeMarkup doc (doc.size + 1) id)

def Document.innerMarkup (doc : Document) (id : NodeId) : String :=
  String.ofList ((doc.children id).flatMap (Markup.nodeMarkup doc (doc.size + 1)))

end ViewBinding
