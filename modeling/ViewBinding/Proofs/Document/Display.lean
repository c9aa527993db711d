import Mathlib
import ViewBinding.Proofs.Document.Writes

/-!
# What bindings show

Each binding writes to one cell of the document, the text of a node or its value. A binding that has
written a text shows it (`shows_of_holds`), and goes on to do so as long as nothing is written to its
cell (`holds_perform_of_ne`). An element shows its text by a node made for it, which must be newer
than all nodes that bindings write to.
-/

namespace ViewBinding

/-- What can be written to: the text of a node or its value. -/
inductive Cell where
  | text (node : NodeId)
  | value (node : NodeId)
deriving DecidableEq

/-- The cell that a binding writes to. -/
def Binding.cell? : Binding → Option Cell
  | interpolation node _ | text node _ => some (.text node)
  | model node _ => some (.value node)
  | watch .. => none

/-- The node that a cell belongs to. -/
def Cell.node : Cell → NodeId
  | text node | value node => node

/-- The cell that a change writes to. -/
def HostChange.cell? : HostChange → Option Cell
  | setText node _ => some (.text node)
  | setValue node _ => some (.value node)
  | listen _ => none

/-- Whether a text is seen where a binding writes it. -/
def Binding.Shows (doc : Document) (shown : String) : Binding → Prop
  | interpolation node template => doc.textContent? node = some (template.render shown)
  | text node _ => doc.textContent? node = some shown
  | model node _ => doc.value? node = some shown
  | watch .. => True

/-- Whether a binding can write: its node is among the first `old` and of the right kind. -/
def Binding.Fits (doc : Document) (old : Nat) : Binding → Prop
  | interpolation node _ => node < old ∧ doc.kind node = .text
  | text node _ => node < old ∧ doc.kind node = .element
  | model node _ => node < old ∧ doc.supportsValue node = true
  | watch .. => True

theorem Binding.Fits.mono {b : Binding} {doc : Document} {old new : Nat} (h : b.Fits doc old)
    (hle : old ≤ new) : b.Fits doc new := by
  cases b with
  | interpolation | text | model => exact ⟨h.1.trans_le hle, h.2⟩
  | watch => exact h

/-- The text of an element is in a node of its own, if it is not empty. -/
def Document.HoldsText (doc : Document) (old : Nat) (id : NodeId) (shown : String) : Prop :=
  shown = "" ∧ doc.children id = [] ∨ shown ≠ "" ∧
    ∃ child, old ≤ child ∧ doc.children id = [child] ∧ doc.content? child = some (.text shown)

/-- Whether a text is where a binding puts it, which is in nodes after the first `old` if the
binding makes any. -/
def Binding.Holds (doc : Document) (old : Nat) (shown : String) : Binding → Prop
  | interpolation node template => doc.content? node = some (.text (template.render shown))
  | text node _ => doc.kind node = .element ∧ doc.HoldsText old node shown
  | model node _ => doc.value? node = some shown
  | watch .. => True

theorem Binding.target?_eq (b : Binding) : b.target? = b.cell?.map Cell.node := by
  cases b <;> rfl

namespace Document

variable {doc : Document} {old : Nat} {b : Binding} {shown : String}

/-! ## Reading -/

private theorem textWithin_text {id : NodeId} (h : doc.content? id = some (.text shown))
    (depth : Nat) : doc.textWithin (depth + 1) id = shown := by
  obtain ⟨node, hnode, hcontent⟩ := Option.map_eq_some_iff.mp h
  simp [textWithin, hnode, hcontent]

theorem textContent?_text {id : NodeId} (h : doc.content? id = some (.text shown)) :
    doc.textContent? id = some shown := by
  obtain ⟨node, hnode, hcontent⟩ := Option.map_eq_some_iff.mp h
  simp [textContent?, hnode, hcontent]

private theorem textContent?_element {id : NodeId} (h : doc.kind id = .element) {depth : Nat}
    (hdepth : doc.size = depth + 1) :
    doc.textContent? id = some (String.join ((doc.children id).map (doc.textWithin depth))) := by
  obtain ⟨tag, attributes, value, hcontent⟩ := (kind_eq_element_iff doc id).mp h
  obtain ⟨node, hnode, hcontent⟩ := Option.map_eq_some_iff.mp hcontent
  simp [textContent?, hnode, hcontent, hdepth, textWithin, children]

/-- A text in its place is seen. -/
theorem shows_of_holds (h : b.Holds doc old shown) : b.Shows doc shown := by
  cases b with
  | interpolation node template => exact textContent?_text h
  | text node key =>
    obtain ⟨hkind, htext⟩ := h
    obtain ⟨tag, attributes, value, hnode⟩ := (kind_eq_element_iff doc node).mp hkind
    have hpositive := lt_size_of_content? hnode
    rcases htext with ⟨rfl, hchildren⟩ | ⟨-, child, -, hchildren, hchild⟩
    · obtain ⟨depth, hdepth⟩ := Nat.exists_eq_add_of_lt (Nat.zero_lt_of_lt hpositive)
      rw [Binding.Shows, textContent?_element hkind (by omega : doc.size = depth + 1), hchildren]
      rfl
    · -- The element and the text in it are two nodes.
      have hne : node ≠ child := by
        rintro rfl
        rw [hnode] at hchild
        cases hchild
      have hlt := lt_size_of_content? hchild
      have htwo : 2 ≤ doc.size := by
        rcases Nat.lt_or_gt_of_ne hne with h | h
        · exact Nat.succ_le_of_lt ((Nat.succ_le_of_lt (Nat.zero_lt_of_lt h)).trans_lt hlt)
        · exact Nat.succ_le_of_lt ((Nat.succ_le_of_lt (Nat.zero_lt_of_lt h)).trans_lt hpositive)
      obtain ⟨depth, hdepth⟩ := Nat.exists_eq_add_of_le' htwo
      rw [Binding.Shows, textContent?_element hkind (by omega : doc.size = depth + 1 + 1), hchildren]
      simp [textWithin_text hchild, String.join]
  | model node key => exact h
  | watch => exact h

/-! ## Writing -/

theorem cell?_of_change? {change : HostChange} (h : b.change? shown = some change) :
    b.cell? = change.cell? := by
  cases b with
  | interpolation | text | model =>
    rw [← Option.some.inj h]
    rfl
  | watch => simp [Binding.change?] at h

theorem value?_perform_of_ne {id : NodeId} (hlt : id < doc.size) {change : HostChange}
    (hcell : change.cell? ≠ some (.value id)) : (doc.perform change).value? id = doc.value? id := by
  cases change with
  | setText node text => exact value?_setTextContent doc hlt node text
  | setValue node text =>
    have hne : id ≠ node := by
      rintro rfl
      exact hcell rfl
    rw [perform, value?_setValue, if_neg hne]
  | listen node => rfl

theorem lt_of_fits {change : HostChange} (h : b.Fits doc old)
    (hchange : b.change? shown = some change) : change.node < old := by
  cases b with
  | interpolation | text | model =>
    rw [← Option.some.inj hchange]
    exact h.1
  | watch => simp [Binding.change?] at hchange

theorem fits_perform (hold : old ≤ doc.size) (h : b.Fits doc old) (change : HostChange) :
    b.Fits (doc.perform change) old := by
  cases b with
  | interpolation | text => exact ⟨h.1, (kind_perform doc change (h.1.trans_le hold)).trans h.2⟩
  | model => exact ⟨h.1, (supportsValue_perform doc change (h.1.trans_le hold)).trans h.2⟩
  | watch => exact h

/-- A binding that writes a text puts it in its place. -/
theorem holds_perform_self (hold : old ≤ doc.size) (h : b.Fits doc old) {change : HostChange}
    (hchange : b.change? shown = some change) : b.Holds (doc.perform change) old shown := by
  cases b with
  | interpolation node template =>
    obtain ⟨data, hdata⟩ := (kind_eq_text_iff doc node).mp h.2
    rw [← Option.some.inj hchange]
    exact content?_setTextContent_text doc hdata _
  | text node key =>
    obtain ⟨hlt, hkind⟩ := h
    rw [← Option.some.inj hchange]
    refine ⟨(kind_setTextContent doc (hlt.trans_le hold) node shown).trans hkind, ?_⟩
    have hchildren := children_setTextContent_element doc hkind shown
    cases hempty : shown.isEmpty with
    | true =>
      rw [hempty, if_pos rfl] at hchildren
      exact Or.inl ⟨by simpa using hempty, hchildren⟩
    | false =>
      rw [hempty] at hchildren
      refine Or.inr ⟨?_, doc.size, hold, hchildren, content?_setTextContent_new doc hkind hempty⟩
      rintro rfl
      cases hempty
  | model node key =>
    obtain ⟨value, hvalue⟩ := Option.isSome_iff_exists.mp h.2
    rw [← Option.some.inj hchange, Binding.Holds, perform, value?_setValue, if_pos rfl, hvalue]
    rfl
  | watch => trivial

private theorem content?_setValue_text {id : NodeId} (h : doc.content? id = some (.text shown))
    (node : NodeId) (value : String) :
    (doc.setValue node value).content? id = some (.text shown) := by
  by_cases hid : id = node
  · subst hid
    have hnone : doc.value? id = none := by rw [value?_eq, h]; rfl
    rw [content?_setValue_of_value?_eq_none doc hnone, h]
  · rw [content?_setValue_of_ne doc hid, h]

theorem holds_setValue_of_ne {node : NodeId} (hcell : b.cell? ≠ some (.value node))
    (h : b.Holds doc old shown) (value : String) : b.Holds (doc.setValue node value) old shown := by
  cases b with
  | interpolation id template => exact content?_setValue_text h node value
  | text id key =>
    obtain ⟨hkind, htext⟩ := h
    refine ⟨(kind_setValue doc node value id).trans hkind, ?_⟩
    rcases htext with ⟨hempty, hchildren⟩ | ⟨hfull, child, hchild, hchildren, hcontent⟩
    · exact Or.inl ⟨hempty, (children_setValue doc node value id).trans hchildren⟩
    · exact Or.inr ⟨hfull, child, hchild, (children_setValue doc node value id).trans hchildren,
        content?_setValue_text hcontent node value⟩
  | model id key =>
    have hne : id ≠ node := by
      rintro rfl
      exact hcell rfl
    rw [Binding.Holds, value?_setValue, if_neg hne]
    exact h
  | watch => trivial

private theorem holds_setTextContent_of_ne (hold : old ≤ doc.size) (hfits : b.Fits doc old)
    {node : NodeId} (hnode : node < old) (hcell : b.cell? ≠ some (.text node))
    (h : b.Holds doc old shown) (text : String) :
    b.Holds (doc.setTextContent node text) old shown := by
  cases b with
  | interpolation id template =>
    have hne : id ≠ node := by
      rintro rfl
      exact hcell rfl
    rw [Binding.Holds, content?_setTextContent_of_ne doc hne (hfits.1.trans_le hold)]
    exact h
  | text id key =>
    have hne : id ≠ node := by
      rintro rfl
      exact hcell rfl
    obtain ⟨hkind, htext⟩ := h
    refine ⟨(kind_setTextContent doc (hfits.1.trans_le hold) node text).trans hkind, ?_⟩
    have hkept := children_setTextContent_of_ne doc hne text
    rcases htext with ⟨hempty, hchildren⟩ | ⟨hfull, child, hchild, hchildren, hcontent⟩
    · exact Or.inl ⟨hempty, hkept.trans hchildren⟩
    · -- What is written to is older than the text that is shown.
      have hother : child ≠ node := Nat.ne_of_gt (hnode.trans_le hchild)
      refine Or.inr ⟨hfull, child, hchild, hkept.trans hchildren, ?_⟩
      rw [content?_setTextContent_of_ne doc hother (lt_size_of_content? hcontent), hcontent]
  | model id key =>
    rw [Binding.Holds, value?_setTextContent doc (hfits.1.trans_le hold)]
    exact h
  | watch => trivial

/-- What is written to other cells leaves a text where it is. -/
theorem holds_perform_of_ne (hold : old ≤ doc.size) (hfits : b.Fits doc old) {change : HostChange}
    (hnode : change.node < old) (hcell : b.cell? ≠ change.cell?) (h : b.Holds doc old shown) :
    b.Holds (doc.perform change) old shown := by
  cases change with
  | setText node text => exact holds_setTextContent_of_ne hold hfits hnode hcell h text
  | setValue node text => exact holds_setValue_of_ne hcell h text
  | listen node => exact h

/-! ## Showing a text by a binding -/

/-- The document after a binding has shown a text. A watcher shows nothing. -/
def showText (shown : String) (doc : Document) (b : Binding) : Document :=
  match b.change? shown with
  | some change => doc.perform change
  | none => doc

theorem size_le_showText (shown : String) (doc : Document) (b : Binding) :
    doc.size ≤ (doc.showText shown b).size := by
  unfold showText
  split
  · exact size_le_perform doc _
  · exact le_rfl

theorem fits_showText (hold : old ≤ doc.size) (h : b.Fits doc old) (other : Binding)
    (shown : String) : b.Fits (doc.showText shown other) old := by
  unfold showText
  split
  · exact fits_perform hold h _
  · exact h

theorem holds_showText_self (hold : old ≤ doc.size) (h : b.Fits doc old) (text : String) :
    b.Holds (doc.showText text b) old text := by
  unfold showText
  split
  · rename_i change hchange
    exact holds_perform_self hold h hchange
  · rename_i hnone
    cases b with
    | interpolation | text | model => cases hnone
    | watch => trivial

theorem holds_showText_of_ne (hold : old ≤ doc.size) (hfits : b.Fits doc old) {other : Binding}
    (hother : other.Fits doc old) (hcell : b.cell? ≠ other.cell?) (h : b.Holds doc old shown)
    (text : String) : b.Holds (doc.showText text other) old shown := by
  unfold showText
  split
  · rename_i change hchange
    rw [cell?_of_change? hchange] at hcell
    exact holds_perform_of_ne hold hfits (lt_of_fits hother hchange) hcell h
  · exact h

end Document
end ViewBinding
