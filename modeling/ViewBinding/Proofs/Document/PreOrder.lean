import Mathlib
import ViewBinding.Proofs.Document.PostOrder

/-!
# Subtrees in document order

`PreOrder` lists the nodes of the subtrees of some nodes, each node before its children and
everything else in order. It has the nodes of the list in post-order (`PostOrder.exists_preOrder`),
so that in a forest it names each node under the given ones once and no other node. Where one node
gets other children the order changes at this place only (`PreOrder.replace`).
-/

namespace ViewBinding
namespace Document

/-- `order` lists the subtrees of `ids`, each node before what stands under it. -/
inductive PreOrder (doc : Document) : List NodeId → List NodeId → Prop
  | nil : PreOrder doc [] []
  | cons {id ids below rest} :
      PreOrder doc (doc.children id) below → PreOrder doc ids rest →
        PreOrder doc (id :: ids) (id :: (below ++ rest))

variable {doc after : Document} {ids order : List NodeId}

theorem PreOrder.unique {other : List NodeId} (h : doc.PreOrder ids order)
    (hother : doc.PreOrder ids other) : order = other := by
  induction h generalizing other with
  | nil =>
    cases hother
    rfl
  | cons _ _ ihbelow ihrest =>
    cases hother with
    | cons hbelow hrest => rw [ihbelow hbelow, ihrest hrest]

theorem PreOrder.append {others more : List NodeId} (h : doc.PreOrder ids order)
    (hmore : doc.PreOrder others more) : doc.PreOrder (ids ++ others) (order ++ more) := by
  induction h with
  | nil => exact hmore
  | cons hbelow _ _ ih =>
    rw [List.cons_append, List.cons_append, List.append_assoc]
    exact .cons hbelow ih

theorem PostOrder.exists_preOrder {post : List NodeId} (h : doc.PostOrder ids post) :
    ∃ order, doc.PreOrder ids order ∧ order.Perm post := by
  induction h with
  | nil => exact ⟨[], .nil, .refl _⟩
  | cons _ _ ihbelow ihrest =>
    obtain ⟨below, hbelow, hpermBelow⟩ := ihbelow
    obtain ⟨rest, hrest, hpermRest⟩ := ihrest
    refine ⟨_, .cons hbelow hrest, ?_⟩
    exact (hpermBelow.append hpermRest).cons _ |>.trans List.perm_middle.symm

theorem WellFormed.exists_preOrder (hwf : doc.WellFormed) (ids : List NodeId) :
    ∃ order, doc.PreOrder ids order := by
  obtain ⟨post, hpost⟩ := hwf.exists_postOrder ids
  obtain ⟨order, horder, -⟩ := hpost.exists_preOrder
  exact ⟨order, horder⟩

private theorem PreOrder.exists_postOrder (hwf : doc.WellFormed) (h : doc.PreOrder ids order) :
    ∃ post, doc.PostOrder ids post ∧ order.Perm post := by
  obtain ⟨post, hpost⟩ := hwf.exists_postOrder ids
  obtain ⟨other, hother, hperm⟩ := hpost.exists_preOrder
  rw [h.unique hother]
  exact ⟨post, hpost, hperm⟩

theorem PreOrder.mem_iff (hwf : doc.WellFormed) (h : doc.PreOrder ids order) (x : NodeId) :
    x ∈ order ↔ ∃ id ∈ ids, doc.Under x id := by
  obtain ⟨post, hpost, hperm⟩ := h.exists_postOrder hwf
  rw [hperm.mem_iff, hpost.mem_iff hwf]

/-- The nodes that stand under one, without it. -/
theorem PreOrder.mem_children_iff (hwf : doc.WellFormed) {top : NodeId}
    (h : doc.PreOrder (doc.children top) order) (x : NodeId) :
    x ∈ order ↔ doc.Under x top ∧ x ≠ top := by
  rw [h.mem_iff hwf, under_iff_eq_or_child hwf]
  constructor
  · rintro ⟨c, hc, hunder⟩
    refine ⟨Or.inr ⟨c, hc, hunder⟩, ?_⟩
    rintro rfl
    exact hwf.not_under_of_parent? ((hwf.linked x c).mp hc) hunder
  · rintro ⟨rfl | hunder, hne⟩
    · exact absurd rfl hne
    · exact hunder

theorem PreOrder.nodup_children (hwf : doc.WellFormed) {top : NodeId}
    (h : doc.PreOrder (doc.children top) order) : order.Nodup := by
  obtain ⟨post, hpost, hperm⟩ := h.exists_postOrder hwf
  exact hperm.nodup_iff.mpr (hpost.nodup hwf (hwf.children_pairwise_not_under top))

theorem PreOrder.lt_size_children (hwf : doc.WellFormed) {top : NodeId}
    (h : doc.PreOrder (doc.children top) order) : ∀ x ∈ order, x < doc.size := by
  obtain ⟨post, hpost, hperm⟩ := h.exists_postOrder hwf
  intro x hx
  refine hpost.lt_size hwf ?_ x (hperm.mem_iff.mp hx)
  exact fun c hc => lt_size_of_parent? ((hwf.linked top c).mp hc)

/-! ## Other children -/

theorem PreOrder.congr (h : doc.PreOrder ids order)
    (hkept : ∀ x ∈ order, after.children x = doc.children x) : after.PreOrder ids order := by
  induction h with
  | nil => exact .nil
  | @cons id ids below rest _ _ ihbelow ihrest =>
    simp only [List.mem_cons, List.mem_append] at hkept
    refine .cons ?_ (ihrest fun x hx => hkept x (Or.inr (Or.inr hx)))
    rw [hkept id (Or.inl rfl)]
    exact ihbelow fun x hx => hkept x (Or.inr (Or.inl hx))

/-- When one node of the order gets other children, what was under it is replaced by what is now. -/
theorem PreOrder.replace {top : NodeId} {new : List NodeId} (h : doc.PreOrder ids order)
    (hnodup : order.Nodup) (hkept : ∀ x ∈ order, x ≠ top → after.children x = doc.children x)
    (hnew : after.PreOrder (after.children top) new) (htop : top ∈ order) :
    ∃ before below behind, order = before ++ top :: (below ++ behind) ∧
      doc.PreOrder (doc.children top) below ∧
        after.PreOrder ids (before ++ top :: (new ++ behind)) := by
  induction h with
  | nil => cases htop
  | @cons id ids below rest hbelow hrest ihbelow ihrest =>
    obtain ⟨hfirst, hlater⟩ := List.nodup_cons.mp hnodup
    obtain ⟨hnodupBelow, hnodupRest, hapart⟩ := List.nodup_append.mp hlater
    simp only [List.mem_cons, List.mem_append] at hkept htop hfirst
    -- A part of the order in which the node does not stand is kept.
    have hcongr : ∀ {ids part}, doc.PreOrder ids part → (∀ x ∈ part, x ∈ below ∨ x ∈ rest) →
        top ∉ part → after.PreOrder ids part := by
      intro ids part hpart hsub hout
      apply hpart.congr
      intro x hx
      exact hkept x (Or.inr (hsub x hx)) fun he => hout (he ▸ hx)
    rcases htop with rfl | htop | htop
    · refine ⟨[], below, rest, rfl, hbelow, .cons hnew ?_⟩
      exact hcongr hrest (fun x => Or.inr) fun hin => hfirst (Or.inr hin)
    · have hne : id ≠ top := fun he => hfirst (Or.inl (he ▸ htop))
      obtain ⟨before, under, behind, rfl, hunder, hafter⟩ := ihbelow hnodupBelow
        (fun x hx => hkept x (Or.inr (Or.inl hx))) htop
      refine ⟨id :: before, under, behind ++ rest, by simp, hunder, ?_⟩
      have hrest' : after.PreOrder ids rest :=
        hcongr hrest (fun x => Or.inr) fun hin => hapart top htop top hin rfl
      rw [← hkept id (Or.inl rfl) hne] at hafter
      simpa using PreOrder.cons hafter hrest'
    · have hne : id ≠ top := fun he => hfirst (Or.inr (he ▸ htop))
      obtain ⟨before, under, behind, rfl, hunder, hafter⟩ := ihrest hnodupRest
        (fun x hx => hkept x (Or.inr (Or.inr hx))) htop
      refine ⟨id :: (below ++ before), under, behind, by simp, hunder, ?_⟩
      have hbelow' : after.PreOrder (after.children id) below := by
        rw [hkept id (Or.inl rfl) hne]
        exact hcongr hbelow (fun x => Or.inl) fun hin => hapart top hin top htop rfl
      simpa using PreOrder.cons hbelow' hafter

end Document
end ViewBinding
