import Mathlib
import ViewBinding.Proofs.Compile.Display
import ViewBinding.Proofs.Document.Depiction

/-!
# Parts of a document

View models write to nodes that a document has at first, and what they put under these nodes are
texts (`Renews`). What is seen of a node leaves out which numbers the new texts have (`sight`). So a
write to a node changes what is seen of this node only, and in the same way in every document where
the same is seen of it. Two documents in which the same is seen of a part have the same markup there
(`Renews.innerMarkup_eq`).
-/

namespace ViewBinding
namespace Document

/-- The documents that the nodes of an initial one have become through writes of view models: under
them are the nodes that were there, or new texts. -/
structure Renews (initial doc : Document) : Prop where
  wellFormed : doc.WellFormed
  size : initial.size ≤ doc.size
  children : ∀ id < initial.size, ∀ child ∈ doc.children id, child ∈ initial.children id ∨
    (initial.size ≤ child ∧ ∃ data, doc.content? child = some (.text data))

/-- A child as it is seen: by its number if it is an old one, else by its content. -/
def glance (old : Nat) (doc : Document) (child : NodeId) : NodeId ⊕ Option Content :=
  if child < old then .inl child else .inr (doc.content? child)

/-- What is seen of a node: its content and its children. -/
def sight (old : Nat) (doc : Document) (id : NodeId) :
    Option Content × List (NodeId ⊕ Option Content) :=
  (doc.content? id, (doc.children id).map (doc.glance old))

variable {initial doc a b : Document} {old : Nat} {id : NodeId} {change : HostChange}

/-! ## Writes -/

private theorem glance_perform (doc : Document) (hnode : change.node < old) {child : NodeId}
    (hchild : child < doc.size) : (doc.perform change).glance old child = doc.glance old child := by
  unfold glance
  split
  · rfl
  · rename_i hnew
    have hne : child ≠ change.node := by
      rintro rfl
      exact hnew hnode
    rw [content?_perform_of_ne doc hne hchild]

private theorem WellFormed.map_glance_perform (hwf : doc.WellFormed) (hnode : change.node < old)
    (hkept : (doc.perform change).children id = doc.children id) :
    ((doc.perform change).children id).map ((doc.perform change).glance old) =
      (doc.children id).map (doc.glance old) := by
  rw [hkept]
  refine List.map_congr_left fun child hchild => glance_perform doc hnode ?_
  exact lt_size_of_parent? ((hwf.linked id child).mp hchild)

/-- A write leaves what is seen of other nodes. -/
theorem WellFormed.sight_perform_of_ne (hwf : doc.WellFormed) (hnode : change.node < old)
    (hid : id < doc.size) (hne : id ≠ change.node) :
    (doc.perform change).sight old id = doc.sight old id := by
  unfold sight
  rw [content?_perform_of_ne doc hne hid,
    hwf.map_glance_perform hnode (children_perform_of_ne doc hne)]

theorem children_setTextContent_of_kind_ne (doc : Document) {node : NodeId}
    (hkind : doc.kind node ≠ .element) (text : String) (id : NodeId) :
    (doc.setTextContent node text).children id = doc.children id := by
  rcases hnode : doc.kind node with _ | _ | _ | _
  case element => exact absurd hnode hkind
  all_goals simp [setTextContent, hnode]

theorem kind_congr (h : b.content? id = a.content? id) : b.kind id = a.kind id := by
  rw [kind_eq, kind_eq, h]

private theorem content?_perform_congr (hsame : b.content? change.node = a.content? change.node) :
    (b.perform change).content? change.node = (a.perform change).content? change.node := by
  cases change with
  | setText node text =>
    have hkind : b.kind node = a.kind node := kind_congr hsame
    rcases hnode : a.kind node with _ | _ | _ | _
    case element =>
      exact (content?_setTextContent_element b (hkind.trans hnode) text).trans
        (hsame.trans (content?_setTextContent_element a hnode text).symm)
    all_goals
      have hnode' := hkind.trans hnode
      simp only [HostChange.node] at hsame ⊢
      simp [perform, setTextContent, hnode, hnode', hsame]
  | setValue node text =>
    simp only [HostChange.node] at hsame ⊢
    rw [perform, perform, setValue, setValue, content?_modifyContent, content?_modifyContent,
      if_pos rfl, if_pos rfl, hsame]
  | listen node => exact hsame

private theorem map_glance_setTextContent (doc : Document) (hkind : doc.kind id = .element)
    (hold : old ≤ doc.size) (text : String) : ((doc.setTextContent id text).children id).map
      ((doc.setTextContent id text).glance old) =
        if text.isEmpty then [] else [.inr (some (.text text))] := by
  rw [children_setTextContent_element doc hkind]
  cases htext : text.isEmpty with
  | true => rfl
  | false =>
    simp only [Bool.false_eq_true, if_false, List.map_cons, List.map_nil]
    rw [glance, if_neg (Nat.not_lt.mpr hold), content?_setTextContent_new doc hkind htext]

/-- The same write to a node of which the same is seen. -/
theorem sight_perform_congr (hsame : b.sight old change.node = a.sight old change.node)
    (hwfa : a.WellFormed) (hwfb : b.WellFormed) (hnode : change.node < old) (hsizea : old ≤ a.size)
    (hsizeb : old ≤ b.size) :
    (b.perform change).sight old change.node = (a.perform change).sight old change.node := by
  obtain ⟨hcontent, hchildren⟩ := Prod.mk.inj hsame
  refine Prod.ext (content?_perform_congr hcontent) ?_
  have hkept : (a.perform change).children change.node = a.children change.node →
      (b.perform change).children change.node = b.children change.node →
      ((b.perform change).children change.node).map ((b.perform change).glance old) =
        ((a.perform change).children change.node).map ((a.perform change).glance old) := by
    intro ha hb
    rw [hwfa.map_glance_perform hnode ha, hwfb.map_glance_perform hnode hb, hchildren]
  cases change with
  | setText node text =>
    have hkind : b.kind node = a.kind node := kind_congr hcontent
    by_cases helement : a.kind node = .element
    · exact (map_glance_setTextContent b (hkind.trans helement) hsizeb text).trans
        (map_glance_setTextContent a helement hsizea text).symm
    · exact hkept (children_setTextContent_of_kind_ne a helement text node)
        (children_setTextContent_of_kind_ne b (hkind ▸ helement) text node)
  | setValue node text =>
    exact hkept (children_setValue a node text node) (children_setValue b node text node)
  | listen node => exact hchildren

theorem value?_of_sight (hsame : b.sight old id = a.sight old id) : b.value? id = a.value? id := by
  rw [value?_eq, value?_eq, (Prod.mk.inj hsame).1]

/-! ## Documents that nodes have become -/

theorem Renews.refl (hwf : doc.WellFormed) : doc.Renews doc :=
  ⟨hwf, Nat.le_refl _, fun _ _ _ => Or.inl⟩

theorem Renews.perform (h : initial.Renews doc) (hnode : change.node < initial.size) :
    initial.Renews (doc.perform change) where
  wellFormed := by
    cases change with
    | setText node text => exact h.wellFormed.setTextContent node text
    | setValue node text => exact h.wellFormed.setValue node text
    | listen node => exact h.wellFormed
  size := h.size.trans (size_le_perform doc change)
  children := by
    intro id hid child hchild
    have hkept : child ∈ doc.children id → child ∈ initial.children id ∨ (initial.size ≤ child ∧
        ∃ data, (doc.perform change).content? child = some (.text data)) := by
      intro hold
      refine (h.children id hid child hold).imp_right fun ⟨hnew, data, hdata⟩ => ⟨hnew, data, ?_⟩
      rw [content?_perform_of_ne doc (Nat.ne_of_gt (hnode.trans_le hnew))
        (lt_size_of_content? hdata), hdata]
    cases change with
    | setText node text =>
      by_cases hother : id = node ∧ doc.kind node = .element
      · obtain ⟨rfl, helement⟩ := hother
        rw [Document.perform, children_setTextContent_element doc helement] at hchild
        cases htext : text.isEmpty with
        | true => simp [htext] at hchild
        | false =>
          obtain rfl : child = doc.size := by simpa [htext] using hchild
          exact Or.inr ⟨h.size, text, content?_setTextContent_new doc helement htext⟩
      · refine hkept ?_
        by_cases hid' : id = node
        · rwa [Document.perform, children_setTextContent_of_kind_ne doc
            fun helement => hother ⟨hid', helement⟩] at hchild
        · rwa [Document.perform, children_setTextContent_of_ne doc hid'] at hchild
    | setValue node text => exact hkept (by rwa [Document.perform, children_setValue] at hchild)
    | listen node => exact hkept hchild

theorem Renews.foldl_showBinding (h : initial.Renews doc) (store : Store) {found : List Binding}
    (hfound : ∀ b ∈ found, ∀ node, b.target? = some node → node < initial.size) :
    initial.Renews (found.foldl (showBinding store) doc) := by
  induction found generalizing doc with
  | nil => exact h
  | cons b rest ih =>
    obtain ⟨hb, hrest⟩ := List.forall_mem_cons.mp hfound
    refine ih ?_ hrest
    rcases showBinding_eq store doc b with hsame | ⟨change, htarget, hchanged⟩
    · rw [hsame]
      exact h
    · rw [hchanged]
      exact h.perform (hb _ htarget)

/-- Where nothing else was put, what stands under a node of a part is in this part. -/
theorem Renews.region_of_under (h : initial.Renews doc) {region : NodeId → Prop}
    (hbelow : ∀ id, region id → ∀ child ∈ initial.children id, region child)
    (hkept : ∀ id, region id → doc.children id = initial.children id) {top : NodeId}
    (htop : region top) (hunder : doc.Under id top) : region id := by
  induction hunder using Relation.ReflTransGen.head_induction_on with
  | refl => exact htop
  | head hparent _ ih =>
    refine hbelow _ ih _ ?_
    rw [← hkept _ ih]
    exact (h.wellFormed.linked _ _).mpr hparent

/-! ## The same markup -/

section

variable {region : NodeId → Prop}
  (hbelow : ∀ id, region id → ∀ child ∈ initial.children id, region child)
  (hlt : ∀ id, region id → id < initial.size) (ha : initial.Renews a)
  (hsame : ∀ id, region id → b.sight initial.size id = a.sight initial.size id)

private theorem eq_or_content?_eq_of_glance {c d : NodeId} (h : b.glance old d = a.glance old c) :
    (d = c ∧ c < old) ∨ (old ≤ c ∧ b.content? d = a.content? c) := by
  unfold glance at h
  by_cases hd : d < old <;> by_cases hc : c < old <;> simp [hd, hc] at h
  · exact Or.inl ⟨h, hc⟩
  · exact Or.inr ⟨Nat.not_lt.mp hc, h⟩

include hbelow hlt ha hsame

/-- Nodes that are seen alike, in a part of the document or new texts, stand for the same forest. -/
theorem Renews.depicts {ids ids' : List NodeId} {forest : Forest} (h : a.Depicts ids forest)
    (hids : ∀ id ∈ ids, region id ∨
      (initial.size ≤ id ∧ ∃ data, a.content? id = some (.text data)))
    (hseen : ids'.map (b.glance initial.size) = ids.map (a.glance initial.size)) :
    b.Depicts ids' forest := by
  -- The content of a node is the same as that of the node that is seen like it.
  have hcontents : ∀ id id', (region id ∨
      (initial.size ≤ id ∧ ∃ data, a.content? id = some (.text data))) →
      b.glance initial.size id' = a.glance initial.size id → b.content? id' = a.content? id := by
    intro id id' hid hglance
    rcases eq_or_content?_eq_of_glance hglance with ⟨rfl, hold⟩ | ⟨-, hcontent⟩
    · rcases hid with hid | ⟨hnew, -⟩
      · exact (Prod.mk.inj (hsame _ hid)).1
      · exact absurd hold (Nat.not_lt.mpr hnew)
    · exact hcontent
  induction h generalizing ids' with
  | nil =>
    obtain rfl : ids' = [] := by simpa using hseen
    exact .nil
  | @text id ids data rest hcontent _ ih =>
    obtain ⟨id', ids', rfl, hglance, hrest⟩ := List.map_eq_cons_iff.mp hseen
    obtain ⟨hid, hids⟩ := List.forall_mem_cons.mp hids
    exact .text ((hcontents id id' hid hglance).trans hcontent) (ih hids hrest)
  | @comment id ids data rest hcontent _ ih =>
    obtain ⟨id', ids', rfl, hglance, hrest⟩ := List.map_eq_cons_iff.mp hseen
    obtain ⟨hid, hids⟩ := List.forall_mem_cons.mp hids
    exact .comment ((hcontents id id' hid hglance).trans hcontent) (ih hids hrest)
  | @element id ids tag attributes value inside rest hcontent _ _ ihinside ih =>
    obtain ⟨id', ids', rfl, hglance, hrest⟩ := List.map_eq_cons_iff.mp hseen
    obtain ⟨hid, hlater⟩ := List.forall_mem_cons.mp hids
    have hregion : region id := by
      refine hid.resolve_right ?_
      rintro ⟨-, data, hdata⟩
      rw [hcontent] at hdata
      cases hdata
    obtain rfl : id' = id := by
      rcases eq_or_content?_eq_of_glance hglance with ⟨heq, -⟩ | ⟨hnew, -⟩
      · exact heq
      · exact absurd (hlt id hregion) (Nat.not_lt.mpr hnew)
    refine .element ((hcontents id' id' hid hglance).trans hcontent) (ihinside ?_ ?_)
      (ih hlater hrest)
    · intro child hchild
      exact (ha.children id' (hlt id' hregion) child hchild).imp_left
        (hbelow id' hregion child)
    · exact (Prod.mk.inj (hsame id' hregion)).2

theorem Renews.innerMarkup_eq (hb : initial.Renews b) (hid : region id) :
    b.innerMarkup id = a.innerMarkup id := by
  obtain ⟨forest, hforest⟩ := ha.wellFormed.exists_depicts id
  have hforest' : b.Depicts (b.children id) forest := by
    refine Renews.depicts hbelow hlt ha hsame hforest ?_ (Prod.mk.inj (hsame id hid)).2
    intro child hchild
    exact (ha.children id (hlt id hid) child hchild).imp_left (hbelow id hid child)
  rw [innerMarkup, innerMarkup, hforest.flatMap_nodeMarkup ha.wellFormed,
    hforest'.flatMap_nodeMarkup hb.wellFormed]

end

end Document
end ViewBinding
