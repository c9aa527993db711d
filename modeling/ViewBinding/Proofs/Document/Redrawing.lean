import Mathlib
import ViewBinding.Proofs.Document.Overlay

/-!
# What bindings leave alone

When bindings are applied to a document, an interpolation changes the data of its text node, a model
binding the value of its input, and a text binding the children of its element. The former children
lose their parent, and each text binding makes at most one node, which is a text. Nothing else
changes (`Redrawn`), in whatever tree the nodes stand (`redrawn_foldl_showText`).
-/

namespace ViewBinding

/-- Whether a binding shows its value as the text of an element. -/
def Binding.isText : Binding → Bool
  | text .. => true
  | _ => false

namespace Document

/-- What a node may become when bindings are applied. -/
inductive Rewritten (bindings : List Binding) (id : NodeId) : Content → Content → Prop
  | kept (content : Content) : Rewritten bindings id content content
  | data {template : Template} (old new : String) : .interpolation id template ∈ bindings →
      Rewritten bindings id (.text old) (.text new)
  | value {key : String} (tag : String) (attributes : List Attribute) (old new : String) :
      .model id key ∈ bindings →
        Rewritten bindings id (.element tag attributes (some old)) (.element tag attributes (some new))

/-- A document in which some bindings were applied. -/
structure Redrawn (doc : Document) (bindings : List Binding) (after : Document) : Prop where
  content {id : NodeId} {old : Content} : doc.content? id = some old →
    ∃ new, after.content? id = some new ∧ Rewritten bindings id old new
  children {id : NodeId} : id < doc.size → (∀ key, .text id key ∉ bindings) →
    after.children id = doc.children id
  /-- The only old nodes under a node are those that were there before. -/
  childrenOld {id child : NodeId} : child ∈ after.children id → child < doc.size →
    child ∈ doc.children id
  parent {id : NodeId} : id < doc.size → after.parent? id = doc.parent? id ∨
    after.parent? id = none ∧ ∃ top key, .text top key ∈ bindings ∧ id ∈ doc.children top
  fresh {id : NodeId} : doc.size ≤ id → id < after.size → ∃ data, after.content? id = some (.text data)
  size_le : doc.size ≤ after.size
  size_le_add : after.size ≤ doc.size + bindings.countP Binding.isText

variable {doc middle after : Document} {bindings more : List Binding}

theorem Rewritten.mono {id : NodeId} {old new : Content} (h : Rewritten bindings id old new)
    (hsub : bindings ⊆ more) : Rewritten more id old new := by
  cases h with
  | kept => exact .kept _
  | data old new hmem => exact .data old new (hsub hmem)
  | value tag attributes old new hmem => exact .value tag attributes old new (hsub hmem)

theorem Rewritten.trans {id : NodeId} {a b c : Content} (hab : Rewritten bindings id a b)
    (hbc : Rewritten bindings id b c) : Rewritten bindings id a c := by
  cases hab with
  | kept => exact hbc
  | data old new hmem =>
    cases hbc with
    | kept => exact .data old new hmem
    | data _ last _ => exact .data old last hmem
  | value tag attributes old new hmem =>
    cases hbc with
    | kept => exact .value tag attributes old new hmem
    | value _ _ _ last _ => exact .value tag attributes old last hmem

theorem Redrawn.refl (doc : Document) (bindings : List Binding) : doc.Redrawn bindings doc where
  content h := ⟨_, h, .kept _⟩
  children _ _ := rfl
  childrenOld h _ := h
  parent _ := Or.inl rfl
  fresh hle hlt := absurd hle (Nat.not_le_of_lt hlt)
  size_le := le_rfl
  size_le_add := Nat.le_add_right _ _

private theorem Redrawn.trans (h : doc.Redrawn bindings middle)
    (hafter : middle.Redrawn more after) : doc.Redrawn (bindings ++ more) after where
  content hold := by
    obtain ⟨new, hnew, hrewritten⟩ := h.content hold
    obtain ⟨last, hlast, hrewritten'⟩ := hafter.content hnew
    exact ⟨last, hlast, (hrewritten.mono (List.subset_append_left _ _)).trans
      (hrewritten'.mono (List.subset_append_right _ _))⟩
  children hid hnone := by
    rw [hafter.children (hid.trans_le h.size_le) fun key hmem => hnone key (by simp [hmem]),
      h.children hid fun key hmem => hnone key (by simp [hmem])]
  childrenOld hmem hold := h.childrenOld (hafter.childrenOld hmem (hold.trans_le h.size_le)) hold
  parent {id} hid := by
    rcases hafter.parent (hid.trans_le h.size_le) with hsame | ⟨hnone, top, key, hmem, hchild⟩
    · rw [hsame]
      rcases h.parent hid with hsame' | ⟨hnone, top, key, hmem, hchild⟩
      · exact Or.inl hsame'
      · exact Or.inr ⟨hnone, top, key, by simp [hmem], hchild⟩
    · exact Or.inr ⟨hnone, top, key, by simp [hmem], h.childrenOld hchild hid⟩
  fresh {id} hle hlt := by
    by_cases hmiddle : id < middle.size
    · obtain ⟨data, hdata⟩ := h.fresh hle hmiddle
      obtain ⟨new, hnew, hrewritten⟩ := hafter.content hdata
      cases hrewritten with
      | kept => exact ⟨data, hnew⟩
      | data _ last _ => exact ⟨last, hnew⟩
    · exact hafter.fresh (Nat.not_lt.mp hmiddle) hlt
  size_le := h.size_le.trans hafter.size_le
  size_le_add := by
    have hfirst := h.size_le_add
    have hsecond := hafter.size_le_add
    rw [List.countP_append]
    omega

/-! ## One binding -/

private theorem redrawn_modifyContent {b : Binding} {node : NodeId} {f : Content → Content}
    (hf : ∀ old, doc.content? node = some old → Rewritten [b] node old (f old)) :
    doc.Redrawn [b] (doc.modifyContent node f) where
  content {id old} hold := by
    rw [content?_modifyContent]
    split
    · rename_i hid
      subst hid
      exact ⟨f old, by rw [hold]; rfl, hf old hold⟩
    · exact ⟨old, hold, .kept old⟩
  children _ _ := children_modifyContent doc node f _
  childrenOld h _ := by rwa [children_modifyContent] at h
  parent _ := Or.inl (parent?_modifyContent doc node f _)
  fresh hle hlt := absurd hle (Nat.not_le_of_lt (by rwa [size_modifyContent] at hlt))
  size_le := (size_modifyContent doc node f).ge
  size_le_add := (size_modifyContent doc node f).le.trans (Nat.le_add_right _ _)

private theorem redrawn_removeChildren {node : NodeId} {key : String} :
    doc.Redrawn [.text node key] (doc.removeChildren node) where
  content hold := ⟨_, by rw [content?_removeChildren]; exact hold, .kept _⟩
  children {id} _ hnone := by
    have hne : id ≠ node := by
      rintro rfl
      exact hnone key (by simp)
    rw [children_removeChildren, if_neg hne]
  childrenOld h _ := by
    rw [children_removeChildren] at h
    split at h
    · cases h
    · exact h
  parent {id} _ := by
    rw [parent?_removeChildren]
    split
    · rename_i hchild
      exact Or.inr ⟨rfl, node, key, by simp, hchild⟩
    · exact Or.inl rfl
  fresh hle hlt := absurd hle (Nat.not_le_of_lt (by rwa [size_removeChildren] at hlt))
  size_le := (size_removeChildren doc node).ge
  size_le_add := (size_removeChildren doc node).le.trans (Nat.le_add_right _ _)

private theorem redrawn_replaceChildren {node : NodeId} {key : String} (hnode : node < doc.size)
    (data : String) : doc.Redrawn [.text node key]
      (((doc.create (.text data)).1.removeChildren node).attachLast node doc.size) where
  content {id old} hold := by
    refine ⟨old, ?_, .kept old⟩
    rw [content?_attachLast, content?_removeChildren, content?_create,
      if_neg (Nat.ne_of_lt (lt_size_of_content? hold)), hold]
  children {id} hid hnone := by
    have hne : id ≠ node := by
      rintro rfl
      exact hnone key (by simp)
    rw [children_attachLast, if_neg (by simp [hne]), children_removeChildren, if_neg hne,
      children_create]
  childrenOld {id child} h hold := by
    have hne : child ≠ doc.size := Nat.ne_of_lt hold
    simp only [children_attachLast, children_removeChildren, children_create] at h
    split at h
    · rename_i hid
      simp [hid.1, hne] at h
    · split at h
      · cases h
      · exact h
  parent {id} hid := by
    have hne : id ≠ doc.size := Nat.ne_of_lt hid
    rw [parent?_attachLast, if_neg (by simp [hne]), parent?_removeChildren, children_create,
      parent?_create]
    split
    · rename_i hchild
      exact Or.inr ⟨rfl, node, key, by simp, hchild⟩
    · exact Or.inl rfl
  fresh {id} hle hlt := by
    rw [size_attachLast, size_removeChildren, size_create] at hlt
    refine ⟨data, ?_⟩
    rw [content?_attachLast, content?_removeChildren, content?_create,
      if_pos (Nat.le_antisymm (Nat.le_of_lt_succ hlt) hle)]
  size_le := by simp
  size_le_add := by simp [Binding.isText]

private theorem redrawn_perform {b : Binding} (hfits : b.Fits doc doc.size) {shown : String}
    {change : HostChange} (hchange : b.change? shown = some change) :
    doc.Redrawn [b] (doc.perform change) := by
  cases b with
  | interpolation node template =>
    obtain rfl := Option.some.inj hchange
    obtain ⟨-, hkind⟩ := hfits
    rw [perform, setTextContent, hkind]
    refine redrawn_modifyContent fun old hold => ?_
    obtain ⟨data, hdata⟩ := (kind_eq_text_iff doc node).mp hkind
    obtain rfl := Option.some.inj (hdata.symm.trans hold)
    exact .data data _ (List.mem_singleton_self _)
  | text node key =>
    obtain rfl := Option.some.inj hchange
    obtain ⟨hlt, hkind⟩ := hfits
    simp only [perform, setTextContent, hkind]
    split
    · exact redrawn_removeChildren
    · exact redrawn_replaceChildren hlt shown
  | model node key =>
    obtain rfl := Option.some.inj hchange
    rw [perform, setValue]
    refine redrawn_modifyContent fun old _ => ?_
    rcases old with _ | ⟨tag, attributes, _ | value⟩ | _ | _
    · exact .kept _
    · exact .kept _
    · exact .value tag attributes value shown (List.mem_singleton_self _)
    · exact .kept _
    · exact .kept _
  | watch => cases hchange

/-! ## One binding after another -/

private theorem redrawn_showText {b : Binding} (hfits : b.Fits doc doc.size) (shown : String) :
    doc.Redrawn [b] (doc.showText shown b) := by
  unfold showText
  split
  · rename_i change hchange
    exact redrawn_perform hfits hchange
  · exact .refl doc [b]

/-- Bindings may sit on nodes below each other, and show their text in any order. -/
theorem redrawn_foldl_showText (hfits : ∀ b ∈ bindings, b.Fits doc doc.size) (shown : String) :
    doc.Redrawn bindings (bindings.foldl (showText shown) doc) := by
  induction bindings generalizing doc with
  | nil => exact .refl doc []
  | cons b rest ih =>
    obtain ⟨hb, hrest⟩ := List.forall_mem_cons.mp hfits
    have hfirst := redrawn_showText hb shown
    refine hfirst.trans (ih fun c hc => ?_)
    exact (fits_showText le_rfl (hrest c hc) b shown).mono hfirst.size_le

end Document
end ViewBinding
