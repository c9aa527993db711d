import Mathlib
import ViewBinding.Proofs.Document.Forest

/-!
# What writes change

Setting a text or a value reaches one node, and the nodes that the text takes from it. Other nodes
keep what they are and what stands under them.
-/

namespace ViewBinding

/-- The node that a change is made to. -/
def HostChange.node : HostChange → NodeId
  | .setText node _ | .setValue node _ | .listen node => node

namespace Document

theorem size_le_setTextContent (doc : Document) (id : NodeId) (text : String) :
    doc.size ≤ (doc.setTextContent id text).size := by
  unfold setTextContent
  split
  · simp
  · simp
  · exact Nat.le_refl _
  · split <;> simp [createText]

@[simp] theorem size_setValue (doc : Document) (id : NodeId) (value : String) :
    (doc.setValue id value).size = doc.size := by
  simp [setValue]

@[simp] theorem children_setValue (doc : Document) (id : NodeId) (value : String)
    (other : NodeId) : (doc.setValue id value).children other = doc.children other := by
  simp [setValue]

theorem content?_setValue_of_ne (doc : Document) {id other : NodeId} (h : other ≠ id)
    (value : String) : (doc.setValue id value).content? other = doc.content? other := by
  simp [setValue, Ne.symm h]

theorem content?_setValue_of_value?_eq_none (doc : Document) {id : NodeId}
    (h : doc.value? id = none) (value : String) (other : NodeId) :
    (doc.setValue id value).content? other = doc.content? other := by
  by_cases he : other = id
  · subst he
    rw [value?_eq] at h
    rw [setValue, content?_modifyContent, if_pos rfl]
    rcases hc : doc.content? other with _ | _ | ⟨tag, attributes, _ | old⟩ | _ | _ <;>
      simp_all [Content.value?]
  · exact content?_setValue_of_ne doc he value

theorem children_setTextContent_of_ne (doc : Document) {id other : NodeId} (h : other ≠ id)
    (text : String) : (doc.setTextContent id text).children other = doc.children other := by
  unfold setTextContent
  split
  · simp
  · simp
  · rfl
  · split
    · rw [children_removeChildren, if_neg h]
    · simp [children_attachLast, children_removeChildren, h, createText]

theorem content?_setTextContent_of_ne (doc : Document) {id other : NodeId} (h : other ≠ id)
    (hlt : other < doc.size) (text : String) :
    (doc.setTextContent id text).content? other = doc.content? other := by
  unfold setTextContent
  split
  · simp [Ne.symm h]
  · simp [Ne.symm h]
  · rfl
  · split
    · simp
    · simp [createText, Nat.ne_of_lt hlt]

theorem content?_setTextContent_text (doc : Document) {id : NodeId} {data : String}
    (h : doc.content? id = some (.text data)) (text : String) :
    (doc.setTextContent id text).content? id = some (.text text) := by
  have hkind : doc.kind id = .text := (kind_eq_text_iff doc id).mpr ⟨data, h⟩
  simp [setTextContent, hkind, h]

/-- Setting the text of an element leaves what the element is. -/
theorem content?_setTextContent_element (doc : Document) {id : NodeId}
    (h : doc.kind id = .element) (text : String) :
    (doc.setTextContent id text).content? id = doc.content? id := by
  obtain ⟨tag, attributes, value, hcontent⟩ := (kind_eq_element_iff doc id).mp h
  have hne : id ≠ doc.size := Nat.ne_of_lt (lt_size_of_content? hcontent)
  simp only [setTextContent, h]
  split
  · simp
  · simp [createText, hne]

theorem children_setTextContent_element (doc : Document) {id : NodeId}
    (h : doc.kind id = .element) (text : String) :
    (doc.setTextContent id text).children id = if text.isEmpty then [] else [doc.size] := by
  obtain ⟨tag, attributes, value, hcontent⟩ := (kind_eq_element_iff doc id).mp h
  have hlt : id < doc.size + 1 := Nat.lt_succ_of_lt (lt_size_of_content? hcontent)
  simp only [setTextContent, h]
  split
  · simp [children_removeChildren]
  · simp [children_attachLast, children_removeChildren, createText, hlt]

theorem content?_setTextContent_new (doc : Document) {id : NodeId}
    (h : doc.kind id = .element) {text : String} (htext : text.isEmpty = false) :
    (doc.setTextContent id text).content? doc.size = some (.text text) := by
  simp [setTextContent, h, htext, createText]

theorem content?_setTextContent_comment (doc : Document) {id : NodeId} {data : String}
    (h : doc.content? id = some (.comment data)) (text : String) :
    (doc.setTextContent id text).content? id = some (.comment text) := by
  have hkind : doc.kind id = .comment := by rw [kind_eq, h]; rfl
  simp [setTextContent, hkind, h]

/-! ## Kinds and values -/

private theorem alike_setTextContent (doc : Document) {id : NodeId} (hlt : id < doc.size)
    (node : NodeId) (text : String) :
    ∃ before after, doc.content? id = some before ∧
      (doc.setTextContent node text).content? id = some after ∧
      after.kind = before.kind ∧ after.value? = before.value? := by
  obtain ⟨content, hcontent⟩ := content?_eq_some_of_lt hlt
  by_cases h : id = node
  · subst h
    cases content with
    | document =>
      have hkind : doc.kind id = .document := by rw [kind_eq, hcontent]; rfl
      exact ⟨_, _, hcontent, by simp [setTextContent, hkind, hcontent], rfl, rfl⟩
    | element tag attributes value =>
      have hkind : doc.kind id = .element := by rw [kind_eq, hcontent]; rfl
      refine ⟨_, _, hcontent, ?_, rfl, rfl⟩
      rw [content?_setTextContent_element doc hkind, hcontent]
    | text data =>
      exact ⟨_, _, hcontent, content?_setTextContent_text doc hcontent text, rfl, rfl⟩
    | comment data =>
      exact ⟨_, _, hcontent, content?_setTextContent_comment doc hcontent text, rfl, rfl⟩
  · refine ⟨_, _, hcontent, ?_, rfl, rfl⟩
    rw [content?_setTextContent_of_ne doc h hlt, hcontent]

theorem kind_setTextContent (doc : Document) {id : NodeId} (hlt : id < doc.size) (node : NodeId)
    (text : String) : (doc.setTextContent node text).kind id = doc.kind id := by
  obtain ⟨before, after, hbefore, hafter, hkind, -⟩ := alike_setTextContent doc hlt node text
  simp [kind_eq, hbefore, hafter, hkind]

theorem value?_setTextContent (doc : Document) {id : NodeId} (hlt : id < doc.size)
    (node : NodeId) (text : String) : (doc.setTextContent node text).value? id = doc.value? id := by
  obtain ⟨before, after, hbefore, hafter, -, hvalue⟩ := alike_setTextContent doc hlt node text
  simp [value?_eq, hbefore, hafter, hvalue]

theorem kind_setValue (doc : Document) (node : NodeId) (value : String) (id : NodeId) :
    (doc.setValue node value).kind id = doc.kind id := by
  rw [kind_eq, kind_eq]
  by_cases h : id = node
  · subst h
    rw [setValue, content?_modifyContent, if_pos rfl]
    rcases doc.content? id with _ | _ | ⟨tag, attributes, _ | old⟩ | _ | _ <;> rfl
  · rw [content?_setValue_of_ne doc h]

theorem value?_setValue (doc : Document) (node : NodeId) (value : String) (id : NodeId) :
    (doc.setValue node value).value? id =
      if id = node then (doc.value? id).map fun _ => value else doc.value? id := by
  rw [value?_eq, value?_eq]
  by_cases h : id = node
  · subst h
    rw [setValue, content?_modifyContent, if_pos rfl, if_pos rfl]
    rcases doc.content? id with _ | _ | ⟨tag, attributes, _ | old⟩ | _ | _ <;> rfl
  · rw [content?_setValue_of_ne doc h, if_neg h]

/-- Setting the value that a node has changes nothing. -/
theorem setValue_eq_self {doc : Document} {node : NodeId} {value : String}
    (h : doc.value? node = some value) : doc.setValue node value = doc := by
  obtain ⟨nodes⟩ := doc
  refine congrArg Document.mk (Array.ext_getElem? fun id => ?_)
  rw [Array.getElem?_modify]
  split
  · rename_i hid
    subst hid
    rw [value?, node?] at h
    rcases hnode : nodes[node]? with _ | ⟨_ | ⟨tag, attributes, _ | old⟩ | _ | _, parent, children⟩
    all_goals simp_all [Content.value?]
  · rfl

theorem kind_perform (doc : Document) (change : HostChange) {id : NodeId} (hlt : id < doc.size) :
    (doc.perform change).kind id = doc.kind id := by
  cases change with
  | setText node text => exact kind_setTextContent doc hlt node text
  | setValue node text => exact kind_setValue doc node text id
  | listen node => rfl

/-- No change gives a value to a node or takes it away. -/
theorem supportsValue_perform (doc : Document) (change : HostChange) {id : NodeId}
    (hlt : id < doc.size) : (doc.perform change).supportsValue id = doc.supportsValue id := by
  unfold supportsValue
  cases change with
  | setText node text => rw [perform, value?_setTextContent doc hlt]
  | setValue node text =>
    rw [perform, value?_setValue]
    split <;> simp
  | listen node => rfl

/-! ## Changes by view models -/

theorem size_le_perform (doc : Document) (change : HostChange) :
    doc.size ≤ (doc.perform change).size := by
  cases change with
  | setText node text => exact size_le_setTextContent doc node text
  | setValue node text => simp [perform]
  | listen node => exact Nat.le_refl _

theorem children_perform_of_ne (doc : Document) {change : HostChange} {other : NodeId}
    (h : other ≠ change.node) : (doc.perform change).children other = doc.children other := by
  cases change with
  | setText node text => exact children_setTextContent_of_ne doc h text
  | setValue node text => exact children_setValue doc node text other
  | listen node => rfl

theorem content?_perform_of_ne (doc : Document) {change : HostChange} {other : NodeId}
    (h : other ≠ change.node) (hlt : other < doc.size) :
    (doc.perform change).content? other = doc.content? other := by
  cases change with
  | setText node text => exact content?_setTextContent_of_ne doc h hlt text
  | setValue node text => exact content?_setValue_of_ne doc h text
  | listen node => rfl

end Document
end ViewBinding
