import Mathlib
import ViewBinding.Proofs.Document.Forest

/-!
# Subtrees in post-order

`PostOrder` lists the nodes of the subtrees of some nodes, children before their parents and
everything else in order. In a forest every subtree has such a list, which names each of its nodes
once and no other node (`WellFormed.exists_postOrder`, `PostOrder.mem_iff`, `PostOrder.nodup`).
-/

namespace ViewBinding
namespace Document

/-- `order` lists the subtrees of `ids`, children before their parents. -/
inductive PostOrder (doc : Document) : List NodeId → List NodeId → Prop
  | nil : PostOrder doc [] []
  | cons {id ids below rest} :
      PostOrder doc (doc.children id) below → PostOrder doc ids rest →
        PostOrder doc (id :: ids) (below ++ id :: rest)

variable {doc : Document}

theorem PostOrder.unique {ids a b : List NodeId} (ha : doc.PostOrder ids a)
    (hb : doc.PostOrder ids b) : a = b := by
  induction ha generalizing b with
  | nil =>
    cases hb
    rfl
  | cons _ _ ihbelow ihrest =>
    cases hb with
    | cons hbelow hrest => rw [ihbelow hbelow, ihrest hrest]

theorem under_iff_eq_or_child (hwf : doc.WellFormed) (x id : NodeId) :
    doc.Under x id ↔ x = id ∨ ∃ c ∈ doc.children id, doc.Under x c := by
  rw [Under, Relation.ReflTransGen.cases_tail_iff]
  constructor
  · rintro (rfl | ⟨c, hxc, hc⟩)
    · exact Or.inl rfl
    · exact Or.inr ⟨c, (hwf.linked id c).mpr hc, hxc⟩
  · rintro (rfl | ⟨c, hc, hxc⟩)
    · exact Or.inl rfl
    · exact Or.inr ⟨c, hxc, (hwf.linked id c).mp hc⟩

theorem PostOrder.mem_iff (hwf : doc.WellFormed) {ids order : List NodeId}
    (h : doc.PostOrder ids order) (x : NodeId) : x ∈ order ↔ ∃ id ∈ ids, doc.Under x id := by
  induction h with
  | nil => simp
  | @cons id ids below rest _ _ ihbelow ihrest =>
    rw [List.exists_mem_cons_iff, under_iff_eq_or_child hwf x id, List.mem_append, List.mem_cons,
      ihbelow, ihrest, or_assoc]
    exact or_left_comm

private theorem exists_postOrder_of_forall {ids : List NodeId}
    (h : ∀ id ∈ ids, ∃ below, doc.PostOrder (doc.children id) below) :
    ∃ order, doc.PostOrder ids order := by
  induction ids with
  | nil => exact ⟨[], .nil⟩
  | cons id ids ih =>
    obtain ⟨below, hbelow⟩ := h id (by simp)
    obtain ⟨rest, hrest⟩ := ih fun other hother => h other (by simp [hother])
    exact ⟨below ++ id :: rest, .cons hbelow hrest⟩

private theorem exists_postOrder_children (hwf : doc.WellFormed) (room : Nat) {id : NodeId}
    {above : List NodeId} (habove : doc.Lineage id above) (hroom : doc.size ≤ above.length + room) :
    ∃ below, doc.PostOrder (doc.children id) below := by
  -- On how much longer the way up could be: a child's way up is longer than its parent's.
  induction room generalizing id above with
  | zero =>
    have hnone : doc.children id = [] := by
      apply List.eq_nil_iff_forall_not_mem.mpr
      intro c hc
      have hlineage : doc.Lineage c (c :: above) := .up ((hwf.linked id c).mp hc) habove
      have hlt := hlineage.lt_size hwf (lt_size_of_parent? ((hwf.linked id c).mp hc))
      have hlen := length_le_size_of_nodup (hlineage.nodup hwf) hlt
      rw [List.length_cons] at hlen
      omega
    rw [hnone]
    exact ⟨[], .nil⟩
  | succ room ih =>
    apply exists_postOrder_of_forall
    intro c hc
    apply ih (.up ((hwf.linked id c).mp hc) habove)
    rw [List.length_cons]
    omega

theorem WellFormed.exists_postOrder (hwf : doc.WellFormed) (ids : List NodeId) :
    ∃ order, doc.PostOrder ids order := by
  apply exists_postOrder_of_forall
  intro id _
  obtain ⟨above, habove⟩ := hwf.exists_lineage id
  exact exists_postOrder_children hwf doc.size habove (by omega)

theorem WellFormed.children_pairwise_not_under (hwf : doc.WellFormed) (id : NodeId) :
    (doc.children id).Pairwise fun a b => ¬ doc.Under a b ∧ ¬ doc.Under b a := by
  have hapart : ∀ a ∈ doc.children id, ∀ b ∈ doc.children id, a ≠ b → ¬ doc.Under a b := by
    intro a ha b hb hne hab
    have hpa := (hwf.linked id a).mp ha
    rcases Relation.ReflTransGen.cases_head hab with rfl | ⟨p, hp, hpb⟩
    · exact hne rfl
    · rw [hpa] at hp
      rw [← Option.some.inj hp] at hpb
      exact hwf.not_under_of_parent? ((hwf.linked id b).mp hb) hpb
  refine List.Pairwise.imp_of_mem ?_ (hwf.nodup id)
  intro a b ha hb hne
  exact ⟨hapart a ha b hb hne, hapart b hb a ha (Ne.symm hne)⟩

theorem PostOrder.nodup (hwf : doc.WellFormed) {ids order : List NodeId}
    (h : doc.PostOrder ids order)
    (hapart : ids.Pairwise fun a b => ¬ doc.Under a b ∧ ¬ doc.Under b a) : order.Nodup := by
  induction h with
  | nil => exact List.nodup_nil
  | @cons id ids below rest hbelow hrest ihbelow ihrest =>
    obtain ⟨hid, hids⟩ := List.pairwise_cons.mp hapart
    have hunder : ∀ x ∈ below, doc.Under x id := by
      intro x hx
      obtain ⟨c, hc, hxc⟩ := (hbelow.mem_iff hwf x).mp hx
      exact (under_iff_eq_or_child hwf x id).mpr (Or.inr ⟨c, hc, hxc⟩)
    have hother : ∀ x ∈ rest, ¬ doc.Under x id := by
      intro x hx hxid
      obtain ⟨i, hi, hxi⟩ := (hrest.mem_iff hwf x).mp hx
      rcases hxid.total hxi with h | h
      · exact (hid i hi).1 h
      · exact (hid i hi).2 h
    refine List.nodup_append.mpr ⟨ihbelow (hwf.children_pairwise_not_under id), ?_, ?_⟩
    · refine List.nodup_cons.mpr ⟨?_, ihrest hids⟩
      intro hx
      exact hother id hx .refl
    · intro x hx y hy hxy
      subst hxy
      rcases List.mem_cons.mp hy with rfl | hy
      · obtain ⟨c, hc, hxc⟩ := (hbelow.mem_iff hwf x).mp hx
        exact hwf.not_under_of_parent? ((hwf.linked x c).mp hc) hxc
      · exact hother x hy (hunder x hx)

theorem PostOrder.nodup_singleton (hwf : doc.WellFormed) {root : NodeId} {order : List NodeId}
    (h : doc.PostOrder [root] order) : order.Nodup :=
  h.nodup hwf (List.pairwise_singleton _ _)

theorem PostOrder.lt_size (hwf : doc.WellFormed) {ids order : List NodeId}
    (h : doc.PostOrder ids order) (hids : ∀ id ∈ ids, id < doc.size) :
    ∀ x ∈ order, x < doc.size := by
  intro x hx
  obtain ⟨id, hid, hxid⟩ := (h.mem_iff hwf x).mp hx
  exact hxid.lt_size (hids id hid)

end Document
end ViewBinding
