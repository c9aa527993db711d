import Mathlib
import ViewBinding.Markup.Write
import ViewBinding.Proofs.Document.PostOrder

/-!
# Forests without nodes

What stands under a node, without the names of nodes and without the values that users edit: an
ordered forest of elements, texts and comments. `Depicts` says that some nodes of a document stand
for a forest. In a document whose links form trees every list of siblings does
(`WellFormed.exists_depicts`), for one forest only (`Depicts.unique`), and the markup of the nodes
is the markup of the forest (`Depicts.flatMap_nodeMarkup`).
-/

namespace ViewBinding

/-- An ordered forest: its first tree, and the trees behind that one. -/
inductive Forest where
  | nil
  | text (data : String) (rest : Forest)
  | comment (data : String) (rest : Forest)
  | element (tag : String) (attributes : List Attribute) (inside rest : Forest)
deriving DecidableEq, Repr

namespace Forest

open Markup

def markup : Forest → List Char
  | nil => []
  | text data rest => escapeText data.toList ++ rest.markup
  | comment data rest => commentMarkup data ++ rest.markup
  | element tag attributes inside rest =>
    openingMarkup tag attributes ++ (if isVoid tag then [] else inside.markup ++ closingMarkup tag) ++
      rest.markup

/-- Whether the first tree is a text. -/
def beginsWithText : Forest → Bool
  | text .. => true
  | _ => false

end Forest

namespace Document

/-- The nodes, with what is under them, are a forest. -/
inductive Depicts (doc : Document) : List NodeId → Forest → Prop
  | nil : Depicts doc [] .nil
  | text {id ids data rest} :
      doc.content? id = some (.text data) → Depicts doc ids rest →
        Depicts doc (id :: ids) (.text data rest)
  | comment {id ids data rest} :
      doc.content? id = some (.comment data) → Depicts doc ids rest →
        Depicts doc (id :: ids) (.comment data rest)
  | element {id ids tag attributes value inside rest} :
      doc.content? id = some (.element tag attributes value) →
        Depicts doc (doc.children id) inside → Depicts doc ids rest →
          Depicts doc (id :: ids) (.element tag attributes inside rest)

variable {doc : Document}

theorem Depicts.unique {ids : List NodeId} {a b : Forest} (ha : doc.Depicts ids a)
    (hb : doc.Depicts ids b) : a = b := by
  induction ha generalizing b with
  | nil =>
    cases hb
    rfl
  | text hcontent _ ih =>
    cases hb with
    | text hother hrest => simp_all [ih hrest]
    | comment hother => simp [hcontent] at hother
    | element hother => simp [hcontent] at hother
  | comment hcontent _ ih =>
    cases hb with
    | text hother => simp [hcontent] at hother
    | comment hother hrest => simp_all [ih hrest]
    | element hother => simp [hcontent] at hother
  | element hcontent _ _ ihinside ih =>
    cases hb with
    | text hother => simp [hcontent] at hother
    | comment hother => simp [hcontent] at hother
    | element hother hinside hrest => simp_all [ihinside hinside, ih hrest]

private theorem exists_depicts_of_postOrder {ids order : List NodeId} (h : doc.PostOrder ids order)
    (hlt : ∀ id ∈ order, id < doc.size) (hroot : ∀ id ∈ order, doc.content? id ≠ some .document) :
    ∃ forest, doc.Depicts ids forest := by
  induction h with
  | nil => exact ⟨.nil, .nil⟩
  | @cons id ids below rest _ _ ihbelow ihrest =>
    simp only [List.mem_append, List.mem_cons] at hlt hroot
    obtain ⟨inside, hinside⟩ := ihbelow (fun x hx => hlt x (Or.inl hx)) fun x hx => hroot x (Or.inl hx)
    obtain ⟨forest, hforest⟩ := ihrest (fun x hx => hlt x (Or.inr (Or.inr hx)))
      fun x hx => hroot x (Or.inr (Or.inr hx))
    obtain ⟨content, hcontent⟩ := content?_eq_some_of_lt (hlt id (Or.inr (Or.inl rfl)))
    cases content with
    | document => exact absurd hcontent (hroot id (Or.inr (Or.inl rfl)))
    | element tag attributes value => exact ⟨_, .element hcontent hinside hforest⟩
    | text data => exact ⟨_, .text hcontent hforest⟩
    | comment data => exact ⟨_, .comment hcontent hforest⟩

/-- The children of every node are a forest: the document node is not among what is under them. -/
theorem WellFormed.exists_depicts (hwf : doc.WellFormed) (top : NodeId) :
    ∃ forest, doc.Depicts (doc.children top) forest := by
  obtain ⟨order, horder⟩ := hwf.exists_postOrder (doc.children top)
  have hlinked : ∀ c ∈ doc.children top, doc.parent? c = some top := fun c hc =>
    (hwf.linked top c).mp hc
  apply exists_depicts_of_postOrder horder
  · exact horder.lt_size hwf fun c hc => lt_size_of_parent? (hlinked c hc)
  · intro id hid hcontent
    obtain ⟨c, hc, hunder⟩ := (horder.mem_iff hwf id).mp hid
    have hnone : doc.parent? id = none := by
      rw [hwf.rootOnly id hcontent]
      exact hwf.rootParent
    rcases Relation.ReflTransGen.cases_head hunder with rfl | ⟨p, hp, -⟩
    · rw [hlinked id hc] at hnone
      cases hnone
    · rw [hnone] at hp
      cases hp

/-! ## Markup -/

private theorem nodeMarkup_succ {id : NodeId} {content : Content} (depth : Nat) :
    doc.content? id = some content → Markup.nodeMarkup doc (depth + 1) id =
      match content with
      | .text data => Markup.escapeText data.toList
      | .comment data => Markup.commentMarkup data
      | .document => (doc.children id).flatMap (Markup.nodeMarkup doc depth)
      | .element tag attributes _ =>
        Markup.openingMarkup tag attributes ++
          if Markup.isVoid tag then []
          else (doc.children id).flatMap (Markup.nodeMarkup doc depth) ++
            Markup.closingMarkup tag := by
  intro h
  obtain ⟨node, hnode, rfl⟩ := Option.map_eq_some_iff.mp h
  cases hcontent : node.content <;>
    simp only [Markup.nodeMarkup, children_eq, hnode, hcontent, Option.map_some, Option.getD_some]

private theorem exists_room (hwf : doc.WellFormed) {id : NodeId} (hid : id < doc.size) {depth : Nat}
    (h : ∃ above, doc.Lineage id above ∧ doc.size < above.length + depth) :
    ∃ room, depth = room + 1 := by
  obtain ⟨above, habove, hlen⟩ := h
  have hle := length_le_size_of_nodup (habove.nodup hwf) (habove.lt_size hwf hid)
  exact Nat.exists_eq_add_one_of_ne_zero (by omega)

private theorem flatMap_nodeMarkup_of_lineage (hwf : doc.WellFormed) {ids : List NodeId}
    {forest : Forest} (h : doc.Depicts ids forest) {depth : Nat}
    (hdeep : ∀ id ∈ ids, ∃ above, doc.Lineage id above ∧ doc.size < above.length + depth) :
    ids.flatMap (Markup.nodeMarkup doc depth) = forest.markup := by
  -- The depth covers the longest way up a node could have, less the way up that these nodes have.
  induction h generalizing depth with
  | nil => rfl
  | text hcontent _ ih | comment hcontent _ ih =>
    rw [List.forall_mem_cons] at hdeep
    obtain ⟨room, rfl⟩ := exists_room hwf (lt_size_of_content? hcontent) hdeep.1
    rw [List.flatMap_cons, ih hdeep.2, nodeMarkup_succ _ hcontent, Forest.markup]
  | @element id ids tag attributes value inside rest hcontent _ _ ihinside ih =>
    rw [List.forall_mem_cons] at hdeep
    obtain ⟨room, rfl⟩ := exists_room hwf (lt_size_of_content? hcontent) hdeep.1
    have hchild : ∀ c ∈ doc.children id, ∃ above, doc.Lineage c above ∧
        doc.size < above.length + room := by
      intro c hc
      obtain ⟨above, habove, hlen⟩ := hdeep.1
      refine ⟨c :: above, .up ((hwf.linked id c).mp hc) habove, ?_⟩
      rw [List.length_cons]
      omega
    rw [List.flatMap_cons, ih hdeep.2, nodeMarkup_succ _ hcontent, Forest.markup]
    simp only [ihinside hchild]

/-- No way in a forest is longer than the number of nodes. -/
theorem Depicts.flatMap_nodeMarkup (hwf : doc.WellFormed) {ids : List NodeId} {forest : Forest}
    (h : doc.Depicts ids forest) :
    ids.flatMap (Markup.nodeMarkup doc (doc.size + 1)) = forest.markup := by
  apply flatMap_nodeMarkup_of_lineage hwf h
  intro id _
  obtain ⟨above, habove⟩ := hwf.exists_lineage id
  exact ⟨above, habove, by omega⟩

end Document
end ViewBinding
