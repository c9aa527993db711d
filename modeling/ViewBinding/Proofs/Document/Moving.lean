import Mathlib
import ViewBinding.Proofs.Markup.Planting
import ViewBinding.View.Run

/-!
# Moving a node

To append a node is to move it with all that stands under it, from the children of its former parent
to the end of those of another one. It is refused with a reason and then nothing happens, unless the
node is a new one: that stays outside the tree (`Document.appendChild_moves`).
-/

namespace ViewBinding
namespace Document

/-- Why a node is not appended to another. Unknown nodes are named first, the parent before the
child; then the parent must be able to hold children and the child must not be above it. -/
inductive Refuses (doc : Document) (parent child : NodeId) : TreeError → Prop
  | unknownParent : doc.size ≤ parent → Refuses doc parent child (.unknownNode parent)
  | unknownChild : parent < doc.size → doc.size ≤ child →
      Refuses doc parent child (.unknownNode child)
  | misplaced : parent < doc.size → child < doc.size →
      (doc.kind parent = .text ∨ doc.kind parent = .comment) ∨ child = root ∨
        doc.Under parent child →
      Refuses doc parent child (.badParent parent child)

/-- A document in which one node was moved behind the children of another. -/
structure Moved (doc : Document) (parent child : NodeId) (after : Document) : Prop where
  size : after.size = doc.size
  contents : ∀ id, after.content? id = doc.content? id
  placed : after.parent? child = some parent
  parents : ∀ id, id ≠ child → after.parent? id = doc.parent? id
  /-- The node comes last, also when it was a child of the same parent. -/
  last : after.children parent = (doc.children parent).filter (· ≠ child) ++ [child]
  former : ∀ old, old ≠ parent → doc.parent? child = some old →
    after.children old = (doc.children old).filter (· ≠ child)
  others : ∀ id, id ≠ parent → doc.parent? child ≠ some id → after.children id = doc.children id
  /-- What stands under the node goes with it. -/
  under : ∀ id, after.Under id child ↔ doc.Under id child
  below : ∀ id, doc.Under id child → after.children id = doc.children id

/-- What comes of appending a new node: the same as with any other node, but one that is refused is
left outside the tree. -/
structure AppendsNew (doc : Document) (parent : NodeId) (content : Content)
    (result : Document × Except TreeError NodeId) : Prop where
  refused : ∀ e, result.2 = .error e ↔ (doc.create content).1.Refuses parent doc.size e
  accepted : result.2 = .ok doc.size ↔ doc.kind parent = .document ∨ doc.kind parent = .element
  moved : ∀ id, result.2 = .ok id →
    id = doc.size ∧ (doc.create content).1.Moved parent doc.size result.1
  left : ∀ e, result.2 = .error e → result.1.size = doc.size + 1 ∧
    (∀ id < doc.size, result.1.node? id = doc.node? id) ∧
      result.1.node? doc.size = some { content, parent := none, children := [] }

variable {doc after : Document} {parent child : NodeId}

/-! ## Ancestors -/

private theorem under_of_meetsAbove {candidate id : NodeId} {steps : Nat}
    (h : doc.meetsAbove candidate steps id = true) : doc.Under id candidate := by
  induction steps generalizing id with
  | zero => cases h
  | succ steps ih =>
    rw [meetsAbove, Bool.or_eq_true, beq_iff_eq] at h
    rcases h with rfl | h
    · exact .refl
    · cases hparent : doc.parent? id with
      | none => simp [hparent] at h
      | some above =>
        rw [hparent] at h
        exact .head hparent (ih h)

/-- The walk upwards finds every ancestor. -/
theorem WellFormed.isAncestorOrSelf_iff (hwf : doc.WellFormed) {candidate id : NodeId}
    (hid : id < doc.size) : doc.isAncestorOrSelf candidate id = true ↔ doc.Under id candidate := by
  constructor
  · exact under_of_meetsAbove
  · intro hunder
    by_contra hnot
    exact hwf.not_under_of_isAncestorOrSelf hid (Bool.not_eq_true _ ▸ hnot) hunder

theorem isContainer_iff (doc : Document) (id : NodeId) :
    doc.isContainer id = true ↔ doc.kind id = .document ∨ doc.kind id = .element := by
  rw [isContainer_eq, kind_eq]
  rcases doc.content? id with _ | _ | _ | _ | _ <;> simp [Content.isContainer, Content.kind]

theorem isContainer_eq_false_iff (doc : Document) (id : NodeId) :
    doc.isContainer id = false ↔ doc.kind id = .text ∨ doc.kind id = .comment := by
  rw [isContainer_eq, kind_eq]
  rcases doc.content? id with _ | _ | _ | _ | _ <;> simp [Content.isContainer, Content.kind]

/-! ## Success and refusal -/

open Classical in
private theorem WellFormed.appendChild_eq (hwf : doc.WellFormed) (parent child : NodeId) :
    doc.appendChild parent child =
      if doc.size ≤ parent then .error (.unknownNode parent)
      else if doc.size ≤ child then .error (.unknownNode child)
      else if (doc.kind parent = .text ∨ doc.kind parent = .comment) ∨ child = root ∨
          doc.Under parent child then .error (.badParent parent child)
      else .ok ((doc.detach child).attachLast parent child) := by
  unfold Document.appendChild
  simp only [contains, Bool.not_eq_true', decide_eq_false_iff_not, Nat.not_lt]
  split
  · rfl
  rename_i hparent
  split
  · rfl
  have hiff :
      (!doc.isContainer parent || child == root || doc.isAncestorOrSelf child parent) = true ↔
      (doc.kind parent = .text ∨ doc.kind parent = .comment) ∨ child = root ∨
        doc.Under parent child := by
    rw [Bool.or_eq_true, Bool.or_eq_true, Bool.not_eq_true', beq_iff_eq, or_assoc,
      isContainer_eq_false_iff, hwf.isAncestorOrSelf_iff (Nat.not_le.mp hparent)]
  by_cases hbad : (doc.kind parent = .text ∨ doc.kind parent = .comment) ∨ child = root ∨
      doc.Under parent child
  · rw [if_pos hbad, if_pos (hiff.mpr hbad)]
  · rw [if_neg hbad, if_neg fun h => hbad (hiff.mp h)]

theorem WellFormed.appendChild_eq_error_iff (hwf : doc.WellFormed) (e : TreeError) :
    doc.appendChild parent child = .error e ↔ doc.Refuses parent child e := by
  rw [hwf.appendChild_eq]
  constructor
  · intro h
    split at h
    · rename_i hparent
      rw [← Except.error.inj h]
      exact .unknownParent hparent
    split at h
    · rename_i hparent hchild
      rw [← Except.error.inj h]
      exact .unknownChild (Nat.not_le.mp hparent) hchild
    split at h
    · rename_i hparent hchild hbad
      rw [← Except.error.inj h]
      exact .misplaced (Nat.not_le.mp hparent) (Nat.not_le.mp hchild) hbad
    · cases h
  · intro h
    cases h with
    | unknownParent hparent => rw [if_pos hparent]
    | unknownChild hparent hchild => rw [if_neg (Nat.not_le.mpr hparent), if_pos hchild]
    | misplaced hparent hchild hbad =>
      rw [if_neg (Nat.not_le.mpr hparent), if_neg (Nat.not_le.mpr hchild), if_pos hbad]

/-! ## The move -/

private theorem parent?_attachLast_detach (hchild : child < doc.size) (parent id : NodeId) :
    ((doc.detach child).attachLast parent child).parent? id =
      if id = child then some parent else doc.parent? id := by
  rw [parent?_attachLast, parent?_detach, size_detach]
  by_cases hid : id = child
  · simp [hid, hchild]
  · simp [hid]

private theorem WellFormed.filter_children_eq_self (hwf : doc.WellFormed) {id : NodeId}
    (hid : doc.parent? child ≠ some id) :
    (doc.children id).filter (· ≠ child) = doc.children id := by
  rw [List.filter_eq_self]
  intro c hc
  rw [decide_eq_true_eq]
  rintro rfl
  exact hid ((hwf.linked id c).mp hc)

private theorem WellFormed.children_attachLast_detach (hwf : doc.WellFormed)
    (hparent : parent < doc.size) (child id : NodeId) :
    ((doc.detach child).attachLast parent child).children id =
      (doc.children id).filter (· ≠ child) ++ if id = parent then [child] else [] := by
  have hdetached : (doc.detach child).children id = (doc.children id).filter (· ≠ child) := by
    rw [children_detach]
    split
    · apply List.filter_congr
      intro c _
      by_cases hc : c = child <;> simp [hc]
    · rename_i hid
      rw [hwf.filter_children_eq_self hid]
  rw [children_attachLast, hdetached, size_detach]
  by_cases hid : id = parent
  · simp [hid, hparent]
  · simp [hid]

private theorem Under.of_parents (hparents : ∀ id, id ≠ child → after.parent? id = doc.parent? id)
    {id : NodeId} (h : doc.Under id child) : after.Under id child := by
  induction h using Relation.ReflTransGen.head_induction_on with
  | refl => exact .refl
  | @head id above hstep _ ih =>
    by_cases hid : id = child
    · rw [hid]
      exact .refl
    · exact .head (by rw [hparents id hid, hstep]) ih

private theorem WellFormed.moved (hwf : doc.WellFormed) (hparent : parent < doc.size)
    (hchild : child < doc.size) (hunder : ¬ doc.Under parent child) :
    doc.Moved parent child ((doc.detach child).attachLast parent child) := by
  have hparents : ∀ id, id ≠ child →
      ((doc.detach child).attachLast parent child).parent? id = doc.parent? id := by
    intro id hid
    rw [parent?_attachLast_detach hchild, if_neg hid]
  have hchildren := hwf.children_attachLast_detach hparent child
  have hothers : ∀ id, id ≠ parent → doc.parent? child ≠ some id →
      ((doc.detach child).attachLast parent child).children id = doc.children id := by
    intro id hne hid
    rw [hchildren, if_neg hne, List.append_nil, hwf.filter_children_eq_self hid]
  constructor
  case size => simp
  case contents => simp
  case placed => rw [parent?_attachLast_detach hchild, if_pos rfl]
  case parents => exact hparents
  case last => rw [hchildren, if_pos rfl]
  case former =>
    intro old hold _
    rw [hchildren, if_neg hold, List.append_nil]
  case others => exact hothers
  case under =>
    intro id
    exact ⟨Under.of_parents fun other hother => (hparents other hother).symm,
      Under.of_parents hparents⟩
  case below =>
    intro id hid
    apply hothers
    · rintro rfl
      exact hunder hid
    · intro hformer
      exact hwf.not_under_of_parent? hformer hid

private theorem WellFormed.moved_of_appendChild (hwf : doc.WellFormed)
    (h : doc.appendChild parent child = .ok after) : doc.Moved parent child after := by
  rw [hwf.appendChild_eq] at h
  split at h
  · cases h
  rename_i hparent
  split at h
  · cases h
  rename_i hchild
  split at h
  · cases h
  rename_i hfits
  rw [← Except.ok.inj h]
  apply hwf.moved (Nat.not_le.mp hparent) (Nat.not_le.mp hchild)
  intro hunder
  exact hfits (Or.inr (Or.inr hunder))

/-! ## New nodes -/

/-- Appends a node that was just created. -/
def appendCreated (doc : Document) (parent : NodeId) (content : Content) :
    Document × Except TreeError NodeId :=
  match (doc.create content).1.appendChild parent doc.size with
  | .error e => ((doc.create content).1, .error e)
  | .ok attached => (attached, .ok doc.size)

private theorem appendText_eq (doc : Document) (parent : NodeId) (data : String) :
    doc.appendText parent data = doc.appendCreated parent (.text data) := rfl

private theorem appendElement_eq (doc : Document) (parent : NodeId) (tag : String)
    (attributes : List Attribute) : doc.appendElement parent tag attributes =
      doc.appendCreated parent
        (settledElement (Text.lowercase tag) (settledAttributes attributes)) := by
  have hcreate : doc.createElement tag = doc.create (settledElement (Text.lowercase tag) []) := rfl
  rw [appendElement, hcreate]
  simp only [create_snd, setAttributes_create]
  rfl

private theorem isContainer_eq_false_of_size_le {id : NodeId} (h : doc.size ≤ id) :
    doc.isContainer id = false := by
  rw [← Bool.not_eq_true]
  intro hcontainer
  exact Nat.not_le_of_lt (lt_size_of_isContainer hcontainer) h

private theorem WellFormed.exists_refuses_create_iff (hwf : doc.WellFormed) {content : Content}
    (hcreated : (doc.create content).1.WellFormed) :
    (∃ e, (doc.create content).1.Refuses parent doc.size e) ↔ doc.isContainer parent = false := by
  have hkind : parent < doc.size → (doc.isContainer parent = false ↔
      (doc.create content).1.kind parent = .text ∨
        (doc.create content).1.kind parent = .comment) := by
    intro hparent
    rw [← isContainer_eq_false_iff, isContainer_create hparent]
  constructor
  · rintro ⟨e, hrefuses⟩
    rcases Nat.lt_or_ge parent doc.size with hparent | hparent
    · cases hrefuses with
      | unknownParent hunknown =>
        rw [size_create] at hunknown
        exact absurd hparent (Nat.not_lt_of_le (Nat.le_of_succ_le hunknown))
      | unknownChild _ hunknown => simp at hunknown
      | misplaced _ _ hbad =>
        rcases hbad with hleaf | hroot | hunder
        · exact (hkind hparent).mpr hleaf
        · exact absurd hroot (Nat.ne_of_gt hwf.root_lt_size)
        · -- Nothing stands under a new node.
          have hnone : (doc.create content).1.children doc.size = [] := by
            rw [children_create, children_size]
          exact absurd hunder
            (hcreated.not_under_of_children_eq_nil (Nat.ne_of_lt hparent) hnone)
    · exact isContainer_eq_false_of_size_le hparent
  · intro hparent
    rcases Nat.lt_trichotomy parent doc.size with hlt | rfl | hgt
    · refine ⟨_, .misplaced ?_ (by simp) (Or.inl ((hkind hlt).mp hparent))⟩
      rw [size_create]
      exact Nat.lt_succ_of_lt hlt
    · exact ⟨_, .misplaced (by simp) (by simp) (Or.inr (Or.inr .refl))⟩
    · refine ⟨_, .unknownParent ?_⟩
      rw [size_create]
      exact hgt

private theorem WellFormed.appendsNew (hwf : doc.WellFormed) {content : Content}
    (hcreated : (doc.create content).1.WellFormed) (parent : NodeId) :
    doc.AppendsNew parent content (doc.appendCreated parent content) := by
  have hrefused : ∀ e, (doc.appendCreated parent content).2 = .error e ↔
      (doc.create content).1.Refuses parent doc.size e := by
    intro e
    rw [← hcreated.appendChild_eq_error_iff, appendCreated]
    cases (doc.create content).1.appendChild parent doc.size <;> simp
  constructor
  case refused => exact hrefused
  case accepted =>
    rw [← isContainer_iff, ← Bool.not_eq_false, ← hwf.exists_refuses_create_iff hcreated]
    simp only [← hrefused]
    rw [appendCreated]
    cases (doc.create content).1.appendChild parent doc.size <;> simp
  case moved =>
    intro id hid
    rw [appendCreated] at hid ⊢
    cases happend : (doc.create content).1.appendChild parent doc.size with
    | error e => simp [happend] at hid
    | ok attached =>
      rw [happend] at hid
      exact ⟨(Except.ok.inj hid).symm, hcreated.moved_of_appendChild happend⟩
  case left =>
    intro e he
    have hleft : (doc.appendCreated parent content).1 = (doc.create content).1 := by
      rw [appendCreated] at he ⊢
      cases happend : (doc.create content).1.appendChild parent doc.size with
      | error e => rfl
      | ok attached => simp [happend] at he
    rw [hleft]
    refine ⟨size_create doc content, ?_, ?_⟩
    · intro id hid
      rw [node?_create, if_neg (Nat.ne_of_lt hid)]
    · rw [node?_create, if_pos rfl]

/-- An append is refused for one of its reasons, and then the whole world is as before; otherwise it
moves the node. A new element or text is appended in the same way. -/
theorem appendChild_moves (hdoc : doc.Reachable) (parent child : NodeId) :
    (∀ e, doc.appendChild parent child = .error e ↔ doc.Refuses parent child e) ∧
    ((∀ e, ¬ doc.Refuses parent child e) → ∃ after,
      doc.appendChild parent child = .ok after ∧ doc.Moved parent child after) ∧
    (∀ (world : World) call told e, world.doc = doc → doc.Refuses parent child e →
      world.exec call told (.appendChild parent child) = (world, .treeError e)) ∧
    (∀ tag attributes, doc.AppendsNew parent
      (settledElement (Text.lowercase tag) (settledAttributes attributes))
      (doc.appendElement parent tag attributes)) ∧
    ∀ data, doc.AppendsNew parent (.text data) (doc.appendText parent data) := by
  have hwf := hdoc.wellFormed
  have hrefused : ∀ e, doc.appendChild parent child = .error e ↔ doc.Refuses parent child e :=
    fun e => hwf.appendChild_eq_error_iff e
  refine ⟨hrefused, ?_, ?_, ?_, ?_⟩
  · intro hfits
    cases happend : doc.appendChild parent child with
    | error e => exact absurd ((hrefused e).mp happend) (hfits e)
    | ok after => exact ⟨after, rfl, hwf.moved_of_appendChild happend⟩
  · rintro world call told e rfl hrefuses
    rw [World.exec, (hrefused e).mpr hrefuses]
    rfl
  · intro tag attributes
    rw [appendElement_eq]
    apply hwf.appendsNew
    have hcreated := (hwf.createElement tag).setAttributes
      (setAttributes_create doc (Text.lowercase tag) [] attributes)
    exact hcreated
  · intro data
    rw [appendText_eq]
    exact hwf.appendsNew (hwf.createText data) parent

/-- A list with two items. -/
def twoItems : Document := (empty.parseInto root "<ul><li>a</li><li>b</li></ul>").1

/-- The first item becomes the last one, the list cannot go under an item of its own, and a text
that another text refuses is left behind. -/
theorem twoItems_moves :
    (∃ after, twoItems.appendChild 1 2 = .ok after ∧ after.children 1 = [4, 2] ∧
      twoItems.Moved 1 2 after) ∧
    twoItems.Refuses 2 1 (.badParent 2 1) ∧
    (twoItems.appendText 3 "c").2 = .error (.badParent 3 6) ∧
    twoItems.AppendsNew 3 (.text "c") (twoItems.appendText 3 "c") := by
  have hdoc : twoItems.Reachable := .parseInto root "<ul><li>a</li><li>b</li></ul>" .empty
  have hfits : ∀ e, ¬ twoItems.Refuses 1 2 e := by
    intro e hrefuses
    have hok : (twoItems.appendChild 1 2).isOk = true := by decide +kernel
    rw [((appendChild_moves hdoc 1 2).1 e).mpr hrefuses] at hok
    cases hok
  obtain ⟨after, happend, hmoved⟩ := (appendChild_moves hdoc 1 2).2.1 hfits
  refine ⟨⟨after, happend, ?_, hmoved⟩, ?_, ?_, ?_⟩
  · rw [hmoved.last]
    decide +kernel
  · exact ((appendChild_moves hdoc 2 1).1 _).mp (by decide +kernel)
  · decide +kernel
  · exact (appendChild_moves hdoc 3 6).2.2.2.2 "c"

end Document
end ViewBinding
