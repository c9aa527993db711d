import Mathlib
import ViewBinding.Markup.Write
import ViewBinding.Proofs.Compile.Discovery

/-!
# No walk is cut short

The functions that walk over a document go as many steps as it has nodes, or as deep. In a forest
that is enough: going on for longer would find nothing more (`WalksEnd`), since a way up names each
node once and so does the order of a walk down. With what a forest is, this is `IsForest`.
-/

namespace ViewBinding
namespace Document

/-- The walks over a document end by themselves: longer ones lead to the same. -/
structure WalksEnd (doc : Document) : Prop where
  ancestors : ∀ candidate id steps, doc.size ≤ steps →
    doc.meetsAbove candidate steps id = doc.isAncestorOrSelf candidate id
  text : ∀ id depth, doc.size ≤ depth → doc.textWithin depth id = doc.textWithin doc.size id
  search : ∀ selector steps, doc.size ≤ steps →
    doc.firstSelected selector steps (doc.children root) =
      doc.firstSelected selector doc.size (doc.children root)
  markup : ∀ id depth, doc.size < depth →
    Markup.nodeMarkup doc depth id = Markup.nodeMarkup doc (doc.size + 1) id
  bindings : ∀ store settings id depth, doc.size ≤ depth →
    Compilation.walk settings store depth { doc } id = compile doc store settings id

/-- The links of a document agree and form trees, and its nodes are what their kind says. -/
structure IsForest (doc : Document) : Prop where
  root : doc.kind root = .document ∧ doc.parent? root = none
  onlyRoot : ∀ id, doc.kind id = .document → id = Document.root
  linked : ∀ p c, (doc.children p).count c = if doc.parent? c = some p then 1 else 0
  known : ∀ p c, doc.parent? c = some p → c < doc.size ∧ p < doc.size
  containers : ∀ p, doc.children p ≠ [] → doc.kind p = .document ∨ doc.kind p = .element
  up : WellFounded fun p c => doc.parent? c = some p
  down : WellFounded fun c p => c ∈ doc.children p
  /-- A search that puts the children of a node in its place comes to an end. -/
  pending : WellFounded fun after before => ∃ id rest, before = id :: rest ∧
    after = doc.children id ++ rest
  walks : doc.WalksEnd
  valued : ∀ id, doc.supportsValue id = true ↔
    doc.tag? id = some "input" ∨ doc.tag? id = some "textarea"
  attributed : ∀ id, doc.attributes id ≠ [] → doc.kind id = .element
  named : ∀ id, ((doc.attributes id).map Attribute.name).Nodup ∧
    ∀ a ∈ doc.attributes id, Text.lowercase a.name = a.name

variable {doc : Document}

/-! ## Ways up -/

private theorem WellFormed.length_lineage_le (hwf : doc.WellFormed) {id : NodeId}
    {above : List NodeId} (h : doc.Lineage id above) : above.length ≤ doc.size := by
  by_cases hid : id < doc.size
  · exact length_le_size_of_nodup (h.nodup hwf) (h.lt_size hwf hid)
  · cases h with
    | top => exact Nat.succ_le_of_lt ((Nat.zero_le _).trans_lt hwf.root_lt_size)
    | up hp => exact absurd (lt_size_of_parent? hp) hid

private theorem Lineage.meetsAbove_eq {id : NodeId} {above : List NodeId} (h : doc.Lineage id above)
    (candidate : NodeId) {a b : Nat} (ha : above.length ≤ a) (hb : above.length ≤ b) :
    doc.meetsAbove candidate a id = doc.meetsAbove candidate b id := by
  induction h generalizing a b with
  | top hp =>
    cases a with
    | zero => simp at ha
    | succ a =>
      cases b with
      | zero => simp at hb
      | succ b => simp [Document.meetsAbove, hp]
  | up hp _ ih =>
    cases a with
    | zero => simp at ha
    | succ a =>
      cases b with
      | zero => simp at hb
      | succ b =>
        simp only [Document.meetsAbove, hp]
        rw [ih (Nat.le_of_succ_le_succ ha) (Nat.le_of_succ_le_succ hb)]

/-! ## Ways down -/

private theorem eq_of_deep (hwf : doc.WellFormed) {α : Type} {f : Nat → NodeId → α}
    (hf : ∀ a b id, (∀ c ∈ doc.children id, f a c = f b c) → f (a + 1) id = f (b + 1) id)
    {id : NodeId} {above : List NodeId} (h : doc.Lineage id above) {a b : Nat}
    (ha : doc.size < above.length + a) (hb : doc.size < above.length + b) : f a id = f b id := by
  -- Both depths cover the longest way up a node could have, less the way up that this one has.
  have hlength := hwf.length_lineage_le h
  induction a generalizing id above b with
  | zero => omega
  | succ a ih =>
    obtain ⟨b, rfl⟩ := Nat.exists_eq_add_one_of_ne_zero (by omega : b ≠ 0)
    apply hf
    intro c hc
    have hlineage : doc.Lineage c (c :: above) := .up ((hwf.linked id c).mp hc) h
    refine ih hlineage ?_ ?_ (hwf.length_lineage_le hlineage)
    · rw [List.length_cons]
      omega
    · rw [List.length_cons]
      omega

theorem WellFormed.textWithin_eq (hwf : doc.WellFormed) (id : NodeId) {a b : Nat}
    (ha : doc.size ≤ a) (hb : doc.size ≤ b) : doc.textWithin a id = doc.textWithin b id := by
  obtain ⟨above, habove⟩ := hwf.exists_lineage id
  have hpositive : 0 < above.length := by cases habove <;> simp
  refine eq_of_deep hwf (fun a b id hchildren => ?_) habove (by omega) (by omega)
  unfold textWithin
  split
  · rfl
  · rename_i node hnode
    simp only [children_eq, hnode, Option.map_some, Option.getD_some] at hchildren
    rw [List.map_congr_left hchildren]

private theorem WellFormed.nodeMarkup_eq (hwf : doc.WellFormed) (id : NodeId) {a b : Nat}
    (ha : doc.size ≤ a) (hb : doc.size ≤ b) :
    Markup.nodeMarkup doc a id = Markup.nodeMarkup doc b id := by
  obtain ⟨above, habove⟩ := hwf.exists_lineage id
  have hpositive : 0 < above.length := by cases habove <;> simp
  refine eq_of_deep hwf (fun a b id hchildren => ?_) habove (by omega) (by omega)
  unfold Markup.nodeMarkup
  split
  · rfl
  · rename_i node hnode
    simp only [children_eq, hnode, Option.map_some, Option.getD_some] at hchildren
    rw [List.flatMap_congr hchildren]

private theorem WellFormed.wellFounded_children (hwf : doc.WellFormed) :
    WellFounded fun c p => c ∈ doc.children p := by
  -- The way up grows with each step down, and is never longer than the document.
  have hacc : ∀ room id above, doc.Lineage id above → doc.size ≤ above.length + room →
      Acc (fun c p => c ∈ doc.children p) id := by
    intro room
    induction room with
    | zero =>
      intro id above habove hroom
      refine ⟨id, fun c hc => ?_⟩
      have hlength := hwf.length_lineage_le (.up ((hwf.linked id c).mp hc) habove)
      rw [List.length_cons] at hlength
      omega
    | succ room ih =>
      intro id above habove hroom
      refine ⟨id, fun c hc => ih c (c :: above) (.up ((hwf.linked id c).mp hc) habove) ?_⟩
      rw [List.length_cons]
      omega
  refine ⟨fun id => ?_⟩
  obtain ⟨above, habove⟩ := hwf.exists_lineage id
  exact hacc doc.size id above habove (Nat.le_add_left _ _)

/-! ## Searches -/

theorem PostOrder.append {ids others a b : List NodeId} (ha : doc.PostOrder ids a)
    (hb : doc.PostOrder others b) : doc.PostOrder (ids ++ others) (a ++ b) := by
  induction ha with
  | nil => exact hb
  | cons hbelow _ _ ih =>
    rw [List.cons_append, List.append_assoc, List.cons_append]
    exact .cons hbelow ih

private theorem PostOrder.length_pending {id : NodeId} {rest order : List NodeId}
    (h : doc.PostOrder (id :: rest) order) :
    ∃ fewer, doc.PostOrder (doc.children id ++ rest) fewer ∧ order.length = fewer.length + 1 := by
  cases h with
  | @cons _ _ below later hbelow hlater =>
    refine ⟨below ++ later, hbelow.append hlater, ?_⟩
    simp only [List.length_append, List.length_cons]
    omega

private theorem WellFormed.wellFounded_pending (hwf : doc.WellFormed) :
    WellFounded fun after before => ∃ id rest, before = id :: rest ∧
      after = doc.children id ++ rest := by
  have hacc : ∀ n ids order, doc.PostOrder ids order → order.length = n →
      Acc (fun after before => ∃ id rest, before = id :: rest ∧ after = doc.children id ++ rest)
        ids := by
    intro n
    induction n with
    | zero =>
      intro ids order horder hlength
      refine ⟨ids, fun after hafter => ?_⟩
      obtain ⟨id, rest, rfl, -⟩ := hafter
      obtain ⟨fewer, -, hfewer⟩ := horder.length_pending
      omega
    | succ n ih =>
      intro ids order horder hlength
      refine ⟨ids, fun after hafter => ?_⟩
      obtain ⟨id, rest, rfl, rfl⟩ := hafter
      obtain ⟨fewer, hpending, hfewer⟩ := horder.length_pending
      exact ih _ fewer hpending (by omega)
  refine ⟨fun ids => ?_⟩
  obtain ⟨order, horder⟩ := hwf.exists_postOrder ids
  exact hacc _ ids order horder rfl

private theorem PostOrder.firstSelected_eq (selector : Selector) {ids order : List NodeId}
    (h : doc.PostOrder ids order) {a b : Nat} (ha : order.length ≤ a) (hb : order.length ≤ b) :
    doc.firstSelected selector a ids = doc.firstSelected selector b ids := by
  induction a generalizing ids order b with
  | zero =>
    cases h with
    | nil => cases b <;> rfl
    | cons => simp at ha
  | succ a ih =>
    cases ids with
    | nil => cases b <;> rfl
    | cons id rest =>
      obtain ⟨fewer, hpending, hfewer⟩ := h.length_pending
      obtain ⟨b, rfl⟩ := Nat.exists_eq_add_one_of_ne_zero (by omega : b ≠ 0)
      rw [firstSelected, firstSelected, ih hpending (by omega) (by omega : fewer.length ≤ b)]

private theorem WellFormed.walksEnd (hwf : doc.WellFormed) : doc.WalksEnd where
  ancestors := by
    intro candidate id steps hsteps
    obtain ⟨above, habove⟩ := hwf.exists_lineage id
    have hlength := hwf.length_lineage_le habove
    exact habove.meetsAbove_eq candidate (hlength.trans hsteps) hlength
  text := fun id _ hdepth => hwf.textWithin_eq id hdepth (Nat.le_refl _)
  search := by
    intro selector steps hsteps
    obtain ⟨order, horder⟩ := hwf.exists_postOrder (doc.children Document.root)
    have hlength : order.length ≤ doc.size := by
      apply length_le_size_of_nodup
      · exact horder.nodup hwf (hwf.children_pairwise_not_under _)
      · exact horder.lt_size hwf fun c hc => lt_size_of_parent? ((hwf.linked _ c).mp hc)
    exact horder.firstSelected_eq selector (hlength.trans hsteps) hlength
  markup := fun id _ hdepth => hwf.nodeMarkup_eq id (Nat.le_of_lt hdepth) (Nat.le_succ _)
  bindings := fun store settings id _ hdepth => walk_eq_compile hwf store settings id hdepth

/-! ## Forests -/

theorem tag?_eq (doc : Document) (id : NodeId) :
    doc.tag? id = (doc.content? id).bind Content.tag? := by
  unfold tag? content?
  cases doc.node? id <;> rfl

theorem attributes_eq (doc : Document) (id : NodeId) :
    doc.attributes id = ((doc.content? id).map Content.attributes).getD [] := by
  unfold attributes content?
  cases doc.node? id <;> rfl

theorem WellFormed.isForest (hwf : doc.WellFormed) : doc.IsForest where
  root := ⟨by rw [kind_eq, hwf.rootContent]; rfl, hwf.rootParent⟩
  onlyRoot := by
    intro id hkind
    apply hwf.rootOnly
    rw [kind_eq] at hkind
    rcases hcontent : doc.content? id with _ | _ | _ | _ | _ <;> simp_all [Content.kind]
  linked := by
    intro p c
    rw [(hwf.nodup p).count]
    simp only [hwf.linked]
  known := fun p c hp => ⟨lt_size_of_parent? hp, hwf.lt_size_of_parent?_eq hp⟩
  containers := by
    intro p hchildren
    obtain ⟨c, hc⟩ := List.exists_mem_of_ne_nil _ hchildren
    have hcontainer := hwf.container p c hc
    rw [isContainer_eq] at hcontainer
    rw [kind_eq]
    rcases hcontent : doc.content? p with _ | _ | _ | _ | _ <;>
      simp_all [Content.kind, Content.isContainer]
  up := hwf.acyclic
  down := hwf.wellFounded_children
  pending := hwf.wellFounded_pending
  walks := hwf.walksEnd
  valued := by
    intro id
    rw [supportsValue, value?_eq, tag?_eq]
    rcases hcontent : doc.content? id with _ | _ | ⟨tag, attributes, value⟩ | _ | _
    case some.element =>
      have hvalid : value.isSome = valueTags.contains tag := (hwf.valid id _ hcontent).1
      simp [Content.value?, Content.tag?, hvalid, valueTags]
    all_goals simp [Content.value?, Content.tag?]
  attributed := by
    intro id hattributes
    rw [attributes_eq] at hattributes
    rw [kind_eq]
    rcases hcontent : doc.content? id with _ | _ | _ | _ | _ <;>
      simp_all [Content.kind, Content.attributes]
  named := by
    intro id
    rw [attributes_eq]
    rcases hcontent : doc.content? id with _ | _ | ⟨tag, attributes, value⟩ | _ | _
    case some.element =>
      obtain ⟨-, hnodup, hlower, -⟩ := hwf.valid id _ hcontent
      exact ⟨hnodup, hlower⟩
    all_goals simp [Content.attributes]

end Document
end ViewBinding
