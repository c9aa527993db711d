import Mathlib
import ViewBinding.Proofs.Document.Bounds
import ViewBinding.Proofs.Document.PreOrder

/-!
# What a search finds

A search takes nodes off a stack and puts their children on it, the last one first. In a forest
this ends after as many turns as there are nodes under the root, and it meets them in document
order: what it finds is the first element of this order that the selector accepts
(`Document.query?_first`).
-/

namespace ViewBinding
namespace Document

/-- A node is an element that a selector accepts by its tag and its attributes `id` and `class`. -/
def Matches (doc : Document) (selector : Selector) (id : NodeId) : Prop :=
  ∃ tag attributes value, doc.content? id = some (.element tag attributes value) ∧
    selector.accepts tag (attributeValue? "id" attributes)
      (attributeValue? "class" attributes) = true

/-- A search in so many turns, each with the node on top of a stack, which is the last of the list:
a node that matches is the result, and another one is replaced by its children, the first on top. -/
inductive StackSearch (doc : Document) (selector : Selector) :
    List NodeId → Nat → Option NodeId → Prop
  | exhausted : StackSearch doc selector [] 0 none
  | found {stack id} : doc.Matches selector id →
      StackSearch doc selector (stack ++ [id]) 1 (some id)
  | replaced {stack id turns result} : ¬ doc.Matches selector id →
      StackSearch doc selector (stack ++ (doc.children id).reverse) turns result →
        StackSearch doc selector (stack ++ [id]) (turns + 1) result

variable {doc : Document} {selector : Selector} {ids order : List NodeId}

theorem isSelected_iff (doc : Document) (selector : Selector) (id : NodeId) :
    doc.isSelected selector id = true ↔ doc.Matches selector id := by
  simp only [isSelected, Matches, attribute?, tag?_eq, attributes_eq]
  rcases doc.content? id with _ | _ | ⟨tag, attributes, value⟩ | _ | _
  case some.element => simp [Content.tag?, Content.attributes]
  all_goals simp [Content.tag?]

private theorem PreOrder.exists_pending {id : NodeId} {rest : List NodeId}
    (h : doc.PreOrder (id :: rest) order) :
    ∃ fewer, doc.PreOrder (doc.children id ++ rest) fewer ∧ order = id :: fewer := by
  cases h with
  | cons hbelow hrest => exact ⟨_, hbelow.append hrest, rfl⟩

/-- The pending nodes of a search are searched in document order, when the steps are enough. -/
theorem PreOrder.firstSelected_eq (h : doc.PreOrder ids order) {steps : Nat}
    (hsteps : order.length ≤ steps) :
    doc.firstSelected selector steps ids = order.find? (doc.isSelected selector) := by
  induction steps generalizing ids order with
  | zero =>
    cases h with
    | nil => rfl
    | cons => simp at hsteps
  | succ steps ih =>
    cases ids with
    | nil =>
      cases h
      rfl
    | cons id rest =>
      obtain ⟨fewer, hpending, rfl⟩ := h.exists_pending
      rw [List.length_cons] at hsteps
      rw [firstSelected, List.find?_cons, ih hpending (by omega)]
      split <;> simp_all

/-- The stack holds the pending nodes, the next one on top, and runs empty after all of them. -/
theorem PreOrder.stackSearch (selector : Selector) (h : doc.PreOrder ids order) :
    ∃ turns ≤ order.length, doc.StackSearch selector ids.reverse turns
      (order.find? (doc.isSelected selector)) := by
  induction order generalizing ids with
  | nil =>
    cases h
    exact ⟨0, le_rfl, .exhausted⟩
  | cons first order ih =>
    cases ids with
    | nil => cases h
    | cons id rest =>
      obtain ⟨fewer, hpending, heq⟩ := h.exists_pending
      obtain ⟨rfl, rfl⟩ := List.cons.inj heq
      rw [List.reverse_cons, List.find?_cons, List.length_cons]
      cases hselected : doc.isSelected selector first with
      | true =>
        exact ⟨1, by omega, .found ((isSelected_iff doc selector first).mp hselected)⟩
      | false =>
        obtain ⟨turns, hturns, hsearch⟩ := ih hpending
        rw [List.reverse_append] at hsearch
        refine ⟨turns + 1, by omega, .replaced ?_ hsearch⟩
        rw [← isSelected_iff, hselected]
        exact Bool.false_ne_true

/-- A search finds nothing with a text that is no selector. Otherwise it finds the first node that
matches among those under the root in document order, and it does so with a stack in no more turns
than there are such nodes. It never finds a node outside the tree. -/
theorem query?_first (hdoc : doc.Reachable) (text : String) :
    (Selector.parse? text = none → doc.query? text = none) ∧
    (∀ id, doc.query? text = some id → doc.Under id root) ∧
    ∀ selector, Selector.parse? text = some selector →
      ∃ order, doc.PreOrder (doc.children root) order ∧
        (∀ id, id ∈ order ↔ doc.Under id root ∧ id ≠ root) ∧
        (∀ id, doc.query? text = some id ↔ ∃ before behind, order = before ++ id :: behind ∧
          doc.Matches selector id ∧ ∀ other ∈ before, ¬ doc.Matches selector other) ∧
        (doc.query? text = none ↔ ∀ id ∈ order, ¬ doc.Matches selector id) ∧
        ∃ turns ≤ order.length,
          doc.StackSearch selector (doc.children root).reverse turns (doc.query? text) := by
  have hwf := hdoc.wellFormed
  obtain ⟨order, horder⟩ := hwf.exists_preOrder (doc.children root)
  have hlength : order.length ≤ doc.size :=
    length_le_size_of_nodup (horder.nodup_children hwf) (horder.lt_size_children hwf)
  have hmem := horder.mem_children_iff hwf
  have hnone : Selector.parse? text = none → doc.query? text = none := by
    intro hparse
    rw [query?, hparse]
    rfl
  have hquery : ∀ selector, Selector.parse? text = some selector →
      doc.query? text = order.find? (doc.isSelected selector) := by
    intro selector hparse
    rw [query?, hparse]
    exact horder.firstSelected_eq hlength
  refine ⟨hnone, ?_, ?_⟩
  · intro id hid
    cases hparse : Selector.parse? text with
    | none =>
      rw [hnone hparse] at hid
      cases hid
    | some selector =>
      rw [hquery selector hparse] at hid
      exact ((hmem id).mp (List.mem_of_find?_eq_some hid)).1
  · intro selector hparse
    rw [hquery selector hparse]
    refine ⟨order, horder, hmem, ?_, ?_, horder.stackSearch selector⟩
    · intro id
      rw [List.find?_eq_some_iff_append, isSelected_iff]
      simp only [Bool.not_eq_true', ← Bool.not_eq_true, isSelected_iff]
      constructor
      · rintro ⟨hmatches, before, behind, rfl, hbefore⟩
        exact ⟨before, behind, rfl, hmatches, hbefore⟩
      · rintro ⟨before, behind, rfl, hmatches, hbefore⟩
        exact ⟨hmatches, before, behind, rfl, hbefore⟩
    · rw [List.find?_eq_none]
      simp only [isSelected_iff]

/-- A list whose item was replaced by a text, and a paragraph behind it. -/
def redrawnList : Document :=
  (empty.parseInto root "<ul><li class=\"a\">x</li></ul><p class=\"a\"></p>").1.setTextContent 1 "y"

/-- The item is no longer found, though it would match and is older than the paragraph. -/
theorem redrawnList_first :
    redrawnList.parent? 2 = none ∧ redrawnList.Matches { classes := ["a"] } 2 ∧
      Selector.parse? " .a" = some { classes := ["a"] } ∧ redrawnList.query? " .a" = some 4 ∧
        redrawnList.Under 4 root ∧
      ∃ order, redrawnList.PreOrder (redrawnList.children root) order ∧
        (∀ id, id ∈ order ↔ redrawnList.Under id root ∧ id ≠ root) ∧
        (∀ id, redrawnList.query? " .a" = some id ↔ ∃ before behind,
          order = before ++ id :: behind ∧ redrawnList.Matches { classes := ["a"] } id ∧
            ∀ other ∈ before, ¬ redrawnList.Matches { classes := ["a"] } other) ∧
        (redrawnList.query? " .a" = none ↔
          ∀ id ∈ order, ¬ redrawnList.Matches { classes := ["a"] } id) ∧
        ∃ turns ≤ order.length, redrawnList.StackSearch { classes := ["a"] }
          (redrawnList.children root).reverse turns (redrawnList.query? " .a") :=
  have hparse : Selector.parse? " .a" = some { classes := ["a"] } := by decide +kernel
  have hquery : redrawnList.query? " .a" = some 4 := by decide +kernel
  have hparsed :=
    Reachable.parseInto root "<ul><li class=\"a\">x</li></ul><p class=\"a\"></p>" .empty
  have hfirst := query?_first (hparsed.setTextContent 1 "y") " .a"
  ⟨by decide +kernel, (isSelected_iff _ _ _).mp (by decide +kernel), hparse, hquery,
    hfirst.2.1 4 hquery, hfirst.2.2 _ hparse⟩

end Document
end ViewBinding
