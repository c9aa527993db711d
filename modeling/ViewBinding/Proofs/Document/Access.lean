import ViewBinding.Binding

/-!
# What operations leave of a document

A document is read through the content, the parent and the children of its nodes. For each change
that other operations are made of, this module says what becomes of these three.
-/

namespace ViewBinding
namespace Document

/-- What a node is, if it was created. -/
def content? (doc : Document) (id : NodeId) : Option Content := (doc.node? id).map Node.content

theorem node?_isSome_iff (doc : Document) (id : NodeId) :
    (doc.node? id).isSome ↔ id < doc.size := by
  simp [node?, size]

theorem lt_size_of_node? {doc : Document} {id : NodeId} {node : Node}
    (h : doc.node? id = some node) : id < doc.size := by
  rw [← node?_isSome_iff, h]
  rfl

theorem content?_eq_some_of_lt {doc : Document} {id : NodeId} (h : id < doc.size) :
    ∃ content, doc.content? id = some content := by
  obtain ⟨node, hnode⟩ := Option.isSome_iff_exists.mp ((node?_isSome_iff doc id).mpr h)
  exact ⟨node.content, by simp [content?, hnode]⟩

theorem lt_size_of_content? {doc : Document} {id : NodeId} {content : Content}
    (h : doc.content? id = some content) : id < doc.size := by
  obtain ⟨node, hnode, -⟩ := Option.map_eq_some_iff.mp h
  exact lt_size_of_node? hnode

theorem lt_size_of_parent? {doc : Document} {id parent : NodeId}
    (h : doc.parent? id = some parent) : id < doc.size := by
  obtain ⟨node, hnode, -⟩ := Option.bind_eq_some_iff.mp h
  exact lt_size_of_node? hnode

theorem lt_size_of_mem_children {doc : Document} {id child : NodeId}
    (h : child ∈ doc.children id) : id < doc.size := by
  unfold children at h
  split at h
  · rename_i node hnode
    exact lt_size_of_node? hnode
  · simp at h

theorem contains_iff (doc : Document) (id : NodeId) : doc.contains id = true ↔ id < doc.size := by
  simp [contains]

theorem kind_eq (doc : Document) (id : NodeId) :
    doc.kind id = ((doc.content? id).map Content.kind).getD .comment := by
  unfold kind content?
  cases doc.node? id <;> rfl

theorem value?_eq (doc : Document) (id : NodeId) :
    doc.value? id = (doc.content? id).bind Content.value? := by
  unfold value? content?
  cases doc.node? id <;> rfl

theorem isContainer_eq (doc : Document) (id : NodeId) :
    doc.isContainer id = ((doc.content? id).map Content.isContainer).getD false := by
  unfold isContainer content?
  cases doc.node? id <;> rfl

theorem children_eq (doc : Document) (id : NodeId) :
    doc.children id = ((doc.node? id).map Node.children).getD [] := by
  unfold children
  cases doc.node? id <;> rfl

/-! ## Changing one node -/

theorem node?_modify (doc : Document) (id : NodeId) (f : Node → Node) (other : NodeId) :
    (doc.modify id f).node? other =
      if id = other then (doc.node? other).map f else doc.node? other := by
  simp [modify, node?, Array.getElem?_modify]

@[simp] theorem size_modify (doc : Document) (id : NodeId) (f : Node → Node) :
    (doc.modify id f).size = doc.size := by
  simp [modify, size]

private theorem content?_modify (doc : Document) (id : NodeId) (f : Node → Node)
    (hf : ∀ node, (f node).content = node.content) (other : NodeId) :
    (doc.modify id f).content? other = doc.content? other := by
  rw [content?, node?_modify]
  by_cases h : id = other
  · subst h
    cases hnode : doc.node? id <;> simp [content?, hnode, hf]
  · simp [h, content?]

private theorem parent?_modify (doc : Document) (id : NodeId) (f : Node → Node)
    (hf : ∀ node, (f node).parent = node.parent) (other : NodeId) :
    (doc.modify id f).parent? other = doc.parent? other := by
  rw [parent?, node?_modify]
  by_cases h : id = other
  · subst h
    cases hnode : doc.node? id <;> simp [parent?, hnode, hf]
  · simp [h, parent?]

private theorem children_modify (doc : Document) (id : NodeId) (f : Node → Node)
    (hf : ∀ node, (f node).children = node.children) (other : NodeId) :
    (doc.modify id f).children other = doc.children other := by
  rw [children_eq, children_eq, node?_modify]
  by_cases h : id = other
  · subst h
    cases hnode : doc.node? id <;> simp [hf]
  · simp [h]

@[simp] theorem size_modifyContent (doc : Document) (id : NodeId) (f : Content → Content) :
    (doc.modifyContent id f).size = doc.size := size_modify doc id _

@[simp] theorem content?_modifyContent (doc : Document) (id : NodeId) (f : Content → Content)
    (other : NodeId) :
    (doc.modifyContent id f).content? other =
      if id = other then (doc.content? other).map f else doc.content? other := by
  rw [content?, modifyContent, node?_modify]
  by_cases h : id = other
  · subst h
    cases hnode : doc.node? id <;> simp [content?, hnode]
  · simp [h, content?]

@[simp] theorem parent?_modifyContent (doc : Document) (id : NodeId) (f : Content → Content)
    (other : NodeId) : (doc.modifyContent id f).parent? other = doc.parent? other := by
  rw [modifyContent, parent?_modify]
  intro node
  rfl

@[simp] theorem children_modifyContent (doc : Document) (id : NodeId) (f : Content → Content)
    (other : NodeId) : (doc.modifyContent id f).children other = doc.children other := by
  rw [modifyContent, children_modify]
  intro node
  rfl

/-! ## Creating a node -/

theorem node?_create (doc : Document) (content : Content) (other : NodeId) :
    (doc.create content).1.node? other =
      if other = doc.size then some { content } else doc.node? other := by
  unfold create node? size
  rw [Array.getElem?_push]

@[simp] theorem create_snd (doc : Document) (content : Content) :
    (doc.create content).2 = doc.size := rfl

@[simp] theorem size_create (doc : Document) (content : Content) :
    (doc.create content).1.size = doc.size + 1 := by
  simp [create, size]

private theorem node?_size (doc : Document) : doc.node? doc.size = none := by
  simp [node?, size]

@[simp] theorem content?_create (doc : Document) (content : Content) (other : NodeId) :
    (doc.create content).1.content? other =
      if other = doc.size then some content else doc.content? other := by
  rw [content?, node?_create]
  split <;> simp [content?]

@[simp] theorem parent?_create (doc : Document) (content : Content) (other : NodeId) :
    (doc.create content).1.parent? other = doc.parent? other := by
  rw [parent?, node?_create]
  split
  · rename_i h
    simp [parent?, h, node?_size]
  · rfl

@[simp] theorem children_create (doc : Document) (content : Content) (other : NodeId) :
    (doc.create content).1.children other = doc.children other := by
  rw [children_eq, children_eq, node?_create]
  split
  · rename_i h
    simp [h, node?_size]
  · rfl

/-! ## Links -/

private theorem parent?_setParent (doc : Document) (id : NodeId) (parent : Option NodeId)
    (other : NodeId) :
    (doc.modify id fun node => { node with parent }).parent? other =
      if other = id ∧ id < doc.size then parent else doc.parent? other := by
  rw [parent?, node?_modify]
  by_cases h : id = other
  · subst h
    cases hnode : doc.node? id with
    | none =>
      have hge : ¬ id < doc.size := by
        rw [← node?_isSome_iff, hnode]
        simp
      simp [hge, parent?, hnode]
    | some node => simp [lt_size_of_node? hnode]
  · simp [h, Ne.symm h, parent?]

private theorem children_setChildren (doc : Document) (id : NodeId)
    (f : List NodeId → List NodeId) (other : NodeId) :
    (doc.modify id fun node => { node with children := f node.children }).children other =
      if other = id ∧ id < doc.size then f (doc.children other) else doc.children other := by
  rw [children_eq, children_eq, node?_modify]
  by_cases h : id = other
  · subst h
    cases hnode : doc.node? id with
    | none =>
      have hge : ¬ id < doc.size := by
        rw [← node?_isSome_iff, hnode]
        simp
      simp [hge]
    | some node => simp [lt_size_of_node? hnode]
  · simp [h, Ne.symm h]

private theorem children_setParent (doc : Document) (id : NodeId) (parent : Option NodeId)
    (other : NodeId) :
    (doc.modify id fun node => { node with parent }).children other = doc.children other := by
  rw [children_modify]
  intro node
  rfl

private theorem parent?_setChildren (doc : Document) (id : NodeId)
    (f : List NodeId → List NodeId) (other : NodeId) :
    (doc.modify id fun node => { node with children := f node.children }).parent? other =
      doc.parent? other := by
  rw [parent?_modify]
  intro node
  rfl

@[simp] theorem size_attachLast (doc : Document) (parent child : NodeId) :
    (doc.attachLast parent child).size = doc.size := by
  simp [attachLast]

@[simp] theorem content?_attachLast (doc : Document) (parent child other : NodeId) :
    (doc.attachLast parent child).content? other = doc.content? other := by
  rw [attachLast, content?_modify, content?_modify] <;> intro node <;> rfl

theorem parent?_attachLast (doc : Document) (parent child other : NodeId) :
    (doc.attachLast parent child).parent? other =
      if other = child ∧ child < doc.size then some parent else doc.parent? other := by
  rw [attachLast, parent?_setChildren _ _ (· ++ [child]), parent?_setParent]

theorem children_attachLast (doc : Document) (parent child other : NodeId) :
    (doc.attachLast parent child).children other =
      if other = parent ∧ parent < doc.size then doc.children other ++ [child]
      else doc.children other := by
  rw [attachLast, children_setChildren _ _ (· ++ [child]), children_setParent, size_modify]

@[simp] theorem size_detach (doc : Document) (child : NodeId) :
    (doc.detach child).size = doc.size := by
  unfold detach
  split <;> simp

@[simp] theorem content?_detach (doc : Document) (child other : NodeId) :
    (doc.detach child).content? other = doc.content? other := by
  unfold detach
  split
  · rw [content?_modify, content?_modify] <;> intro node <;> rfl
  · rfl

theorem parent?_detach (doc : Document) (child other : NodeId) :
    (doc.detach child).parent? other = if other = child then none else doc.parent? other := by
  unfold detach
  split
  · rename_i old hold
    rw [parent?_setChildren _ _ (fun l => l.filter (· != child)), parent?_setParent]
    simp [lt_size_of_parent? hold]
  · rename_i hnone
    split
    · rename_i h
      rw [h, hnone]
    · rfl

theorem children_detach (doc : Document) (child other : NodeId) :
    (doc.detach child).children other =
      if doc.parent? child = some other then (doc.children other).filter (· != child)
      else doc.children other := by
  unfold detach
  split
  · rename_i old hold
    rw [children_setChildren _ _ (fun l => l.filter (· != child)), children_setParent, size_modify]
    by_cases h : other = old
    · subst h
      by_cases hlt : other < doc.size
      · simp [hlt, hold]
      · have hnil : doc.children other = [] := by
          apply List.eq_nil_iff_forall_not_mem.mpr
          intro c hc
          exact hlt (lt_size_of_mem_children hc)
        simp [hlt, hold, hnil]
    · have hne : ¬ (some old = some other) := fun he => h (Option.some.inj he).symm
      simp [h, hold, hne]
  · rename_i hnone
    simp [hnone]

@[simp] theorem size_orphan (doc : Document) (ids : List NodeId) :
    (doc.orphan ids).size = doc.size := by
  unfold orphan
  induction ids generalizing doc with
  | nil => rfl
  | cons id ids ih => simp [ih]

@[simp] theorem content?_orphan (doc : Document) (ids : List NodeId) (other : NodeId) :
    (doc.orphan ids).content? other = doc.content? other := by
  unfold orphan
  induction ids generalizing doc with
  | nil => rfl
  | cons id ids ih =>
    rw [List.foldl_cons, ih, content?_modify]
    intro node
    rfl

@[simp] theorem children_orphan (doc : Document) (ids : List NodeId) (other : NodeId) :
    (doc.orphan ids).children other = doc.children other := by
  unfold orphan
  induction ids generalizing doc with
  | nil => rfl
  | cons id ids ih =>
    rw [List.foldl_cons, ih, children_setParent]

private theorem parent?_orphan (doc : Document) (ids : List NodeId) (other : NodeId) :
    (doc.orphan ids).parent? other = if other ∈ ids then none else doc.parent? other := by
  unfold orphan
  induction ids generalizing doc with
  | nil => simp
  | cons id ids ih =>
    rw [List.foldl_cons, ih, parent?_setParent]
    by_cases h : other = id
    · subst h
      by_cases hlt : other < doc.size
      · simp [hlt]
      · have hnone : doc.parent? other = none := by
          cases hp : doc.parent? other with
          | none => rfl
          | some p => exact absurd (lt_size_of_parent? hp) hlt
        simp [hlt, hnone]
    · simp [h]

@[simp] theorem size_removeChildren (doc : Document) (id : NodeId) :
    (doc.removeChildren id).size = doc.size := by
  simp [removeChildren]

@[simp] theorem content?_removeChildren (doc : Document) (id other : NodeId) :
    (doc.removeChildren id).content? other = doc.content? other := by
  rw [removeChildren, content?_orphan, content?_modify]
  intro node
  rfl

theorem parent?_removeChildren (doc : Document) (id other : NodeId) :
    (doc.removeChildren id).parent? other =
      if other ∈ doc.children id then none else doc.parent? other := by
  rw [removeChildren, parent?_orphan, parent?_setChildren _ _ (fun _ => [])]

theorem children_removeChildren (doc : Document) (id other : NodeId) :
    (doc.removeChildren id).children other = if other = id then [] else doc.children other := by
  rw [removeChildren, children_orphan, children_setChildren _ _ (fun _ => [])]
  by_cases h : other = id
  · subst h
    by_cases hlt : other < doc.size
    · simp [hlt]
    · have hnil : doc.children other = [] := by
        apply List.eq_nil_iff_forall_not_mem.mpr
        intro c hc
        exact hlt (lt_size_of_mem_children hc)
      simp [hlt, hnil]
  · simp [h]

end Document
end ViewBinding
