import Mathlib
import ViewBinding.Proofs.Compile.Display
import ViewBinding.Proofs.Document.Depiction

/-!
# What bindings lay over a document

Bindings show texts in the nodes that a document has at first and leave the rest of it as it is, but
for values (`Overlaid`). So two documents that the same bindings have changed stand for the same
forest when they show the same texts (`Overlaid.depicts`), whatever was shown before and whichever
nodes were made for it.
-/

namespace ViewBinding

/-- A content without the value that the user edits. -/
def Content.withoutValue : Content → Content
  | element tag attributes _ => element tag attributes none
  | content => content

namespace Document

/-- The nodes that the document had at first are as they were, apart from the texts that bindings
show and from values. -/
structure Overlaid (initial : Document) (bindings : List Binding) (doc : Document) : Prop where
  size : initial.size ≤ doc.size
  children : ∀ id < initial.size, (∀ key, .text id key ∉ bindings) →
    doc.children id = initial.children id
  content : ∀ id < initial.size, (∀ template, .interpolation id template ∉ bindings) →
    (doc.content? id).map Content.withoutValue = (initial.content? id).map Content.withoutValue

variable {initial doc : Document} {bindings : List Binding}

private theorem withoutValue_setValue (doc : Document) (node : NodeId) (value : String)
    (id : NodeId) : ((doc.setValue node value).content? id).map Content.withoutValue =
      (doc.content? id).map Content.withoutValue := by
  by_cases h : id = node
  · subst h
    rw [setValue, content?_modifyContent, if_pos rfl]
    rcases doc.content? id with _ | _ | ⟨tag, attributes, _ | old⟩ | _ | _ <;> rfl
  · rw [content?_setValue_of_ne doc h]

private theorem children_setTextContent_text (doc : Document) {node : NodeId}
    (hkind : doc.kind node = .text) (text : String) (id : NodeId) :
    (doc.setTextContent node text).children id = doc.children id := by
  simp [setTextContent, hkind]

/-! ## Changes -/

theorem Overlaid.refl (doc : Document) (bindings : List Binding) : doc.Overlaid bindings doc :=
  ⟨Nat.le_refl _, fun _ _ _ => rfl, fun _ _ _ => rfl⟩

theorem Overlaid.setValue (h : initial.Overlaid bindings doc) (node : NodeId) (value : String) :
    initial.Overlaid bindings (doc.setValue node value) where
  size := by
    rw [size_setValue]
    exact h.size
  children := by
    intro id hid hnone
    rw [children_setValue, h.children id hid hnone]
  content := by
    intro id hid hnone
    rw [withoutValue_setValue, h.content id hid hnone]

/-- A binding changes nothing but what it shows. -/
theorem Overlaid.perform (h : initial.Overlaid bindings doc) {b : Binding} (hb : b ∈ bindings)
    (hfits : b.Fits doc initial.size) {shown : String} {change : HostChange}
    (hchange : b.change? shown = some change) : initial.Overlaid bindings (doc.perform change) := by
  have hsize := h.size.trans (size_le_perform doc change)
  cases b with
  | interpolation node template =>
    obtain rfl := Option.some.inj hchange
    refine ⟨hsize, fun id hid hnone => ?_, fun id hid hnone => ?_⟩
    · rw [Document.perform, children_setTextContent_text doc hfits.2, h.children id hid hnone]
    · have hne : id ≠ node := by
        rintro rfl
        exact hnone template hb
      rw [Document.perform, content?_setTextContent_of_ne doc hne (hid.trans_le h.size),
        h.content id hid hnone]
  | text node key =>
    obtain rfl := Option.some.inj hchange
    refine ⟨hsize, fun id hid hnone => ?_, fun id hid hnone => ?_⟩
    · have hne : id ≠ node := by
        rintro rfl
        exact hnone key hb
      rw [Document.perform, children_setTextContent_of_ne doc hne, h.children id hid hnone]
    · rw [← h.content id hid hnone]
      by_cases hid' : id = node
      · subst hid'
        rw [Document.perform, content?_setTextContent_element doc hfits.2]
      · rw [Document.perform, content?_setTextContent_of_ne doc hid' (hid.trans_le h.size)]
  | model node key =>
    obtain rfl := Option.some.inj hchange
    exact h.setValue node shown
  | watch => cases hchange

private theorem Overlaid.foldl_showBinding (h : initial.Overlaid bindings doc) (store : Store)
    {found : List Binding} (hfound : ∀ b ∈ found, b ∈ bindings ∧ b.Fits doc initial.size) :
    initial.Overlaid bindings (found.foldl (showBinding store) doc) := by
  induction found generalizing doc with
  | nil => exact h
  | cons b rest ih =>
    obtain ⟨⟨hb, hfits⟩, hrest⟩ := List.forall_mem_cons.mp hfound
    have hshown : initial.Overlaid bindings (doc.showBinding store b) := by
      unfold showBinding
      split
      · rename_i change hchange
        exact h.perform hb hfits hchange
      · exact h
    exact ih hshown fun c hc => ⟨(hrest c hc).1, fits_showBinding h.size (hrest c hc).2 b⟩

/-! ## The same texts -/

variable {a b : Document}

private theorem eq_text_of_withoutValue {content : Content} {data : String}
    (h : content.withoutValue = .text data) : content = .text data := by
  cases content with
  | text => exact h
  | document | comment | element => cases h

private theorem eq_comment_of_withoutValue {content : Content} {data : String}
    (h : content.withoutValue = .comment data) : content = .comment data := by
  cases content with
  | comment => exact h
  | document | text | element => cases h

private theorem eq_element_of_withoutValue {content : Content} {tag : String}
    {attributes : List Attribute} (h : content.withoutValue = .element tag attributes none) :
    ∃ value, content = .element tag attributes value := by
  cases content with
  | element other others value =>
    cases h
    exact ⟨value, rfl⟩
  | document | text | comment => cases h

private theorem depicts_of_holdsText {old : Nat} {id : NodeId} {shown : String}
    (h : doc.HoldsText old id shown) :
    doc.Depicts (doc.children id) (if shown = "" then .nil else .text shown .nil) := by
  rcases h with ⟨hempty, hchildren⟩ | ⟨hfull, child, -, hchildren, hcontent⟩
  · rw [hchildren, if_pos hempty]
    exact .nil
  · rw [hchildren, if_neg hfull]
    exact .text hcontent .nil

namespace Overlaid

variable (hwf : initial.WellFormed) (ha : initial.Overlaid bindings a)
  (hb : initial.Overlaid bindings b)
  (hshown : ∀ binding ∈ bindings, ∃ shown,
    binding.Holds a initial.size shown ∧ binding.Holds b initial.size shown)

include hwf ha hb hshown

private theorem depicts_children {id : NodeId} (hid : id < initial.size) {forest : Forest}
    (h : a.Depicts (a.children id) forest)
    (hkept : (∀ c ∈ a.children id, c < initial.size) → b.Depicts (a.children id) forest) :
    b.Depicts (b.children id) forest := by
  by_cases hbound : ∃ key, .text id key ∈ bindings
  · obtain ⟨key, hmem⟩ := hbound
    obtain ⟨shown, ⟨-, hina⟩, -, hinb⟩ := hshown _ hmem
    rw [h.unique (depicts_of_holdsText hina)]
    exact depicts_of_holdsText hinb
  · have hnone := not_exists.mp hbound
    have hsame := ha.children id hid hnone
    rw [hb.children id hid hnone, ← hsame]
    refine hkept fun c hc => ?_
    rw [hsame] at hc
    exact lt_size_of_parent? ((hwf.linked id c).mp hc)

/-- Two documents that show the same texts over the same initial document stand for the same forest
under the nodes that it had. -/
theorem depicts {ids : List NodeId} {forest : Forest} (h : a.Depicts ids forest)
    (hids : ∀ id ∈ ids, id < initial.size) : b.Depicts ids forest := by
  -- Where no template is shown, the contents are the same but for values.
  have hsame : ∀ id < initial.size, ∀ content, a.content? id = some content →
      (∀ template, .interpolation id template ∉ bindings) →
      ∃ content', b.content? id = some content' ∧ content'.withoutValue = content.withoutValue := by
    intro id hid content hcontent hnone
    have hmap := (hb.content id hid hnone).trans (ha.content id hid hnone).symm
    rw [hcontent] at hmap
    exact Option.map_eq_some_iff.mp hmap
  -- Where one is shown, there is the same text.
  have htext : ∀ id template, .interpolation id template ∈ bindings →
      ∃ data, a.content? id = some (.text data) ∧ b.content? id = some (.text data) := by
    intro id template hmem
    obtain ⟨shown, hina, hinb⟩ := hshown _ hmem
    exact ⟨_, hina, hinb⟩
  have hplain : ∀ id content, a.content? id = some content → (∀ data, content ≠ .text data) →
      ∀ template, .interpolation id template ∉ bindings := by
    intro id content hcontent hne template hmem
    obtain ⟨data, hina, -⟩ := htext id template hmem
    exact hne data (Option.some.inj (hcontent.symm.trans hina))
  induction h with
  | nil => exact .nil
  | @text id ids data rest hcontent _ ih =>
    obtain ⟨hid, hids⟩ := List.forall_mem_cons.mp hids
    refine .text ?_ (ih hids)
    by_cases hinter : ∃ template, .interpolation id template ∈ bindings
    · obtain ⟨template, hmem⟩ := hinter
      obtain ⟨other, hina, hinb⟩ := htext id template hmem
      rw [hinb, ← hina, hcontent]
    · obtain ⟨content', hcontent', heq⟩ := hsame id hid _ hcontent (not_exists.mp hinter)
      rw [hcontent', eq_text_of_withoutValue heq]
  | @comment id ids data rest hcontent _ ih =>
    obtain ⟨hid, hids⟩ := List.forall_mem_cons.mp hids
    obtain ⟨content', hcontent', heq⟩ :=
      hsame id hid _ hcontent (hplain id _ hcontent (by simp))
    rw [eq_comment_of_withoutValue heq] at hcontent'
    exact .comment hcontent' (ih hids)
  | @element id ids tag attributes value inside rest hcontent hinside _ ihinside ih =>
    obtain ⟨hid, hids⟩ := List.forall_mem_cons.mp hids
    obtain ⟨content', hcontent', heq⟩ :=
      hsame id hid _ hcontent (hplain id _ hcontent (by simp))
    obtain ⟨value', rfl⟩ := eq_element_of_withoutValue heq
    exact .element hcontent' (depicts_children hwf ha hb hshown hid hinside ihinside) (ih hids)

theorem innerMarkup_eq (hwfa : a.WellFormed) (hwfb : b.WellFormed) {id : NodeId}
    (hid : id < initial.size) : a.innerMarkup id = b.innerMarkup id := by
  obtain ⟨forest, hforest⟩ := hwfa.exists_depicts id
  have hforest' : b.Depicts (b.children id) forest :=
    depicts_children hwf ha hb hshown hid hforest (depicts hwf ha hb hshown hforest)
  rw [innerMarkup, innerMarkup, hforest.flatMap_nodeMarkup hwfa, hforest'.flatMap_nodeMarkup hwfb]

end Overlaid

/-- What a walk does to a document is laid over it. -/
theorem WellFormed.overlaid_compile (hwf : initial.WellFormed) (store : Store) (settings : Settings)
    (root : NodeId) : initial.Overlaid (compile initial store settings root).bindings
      (compile initial store settings root).doc := by
  obtain ⟨order, asked, -, -, hcompile⟩ := compile_eq_extended hwf store settings root
  rw [hcompile]
  refine (Overlaid.refl initial _).foldl_showBinding store fun b hb => ⟨?_, ?_⟩
  · simpa [Compilation.extended] using hb
  · obtain ⟨id, -, hid⟩ := List.mem_flatMap.mp hb
    exact fits_of_mem_nodeBindings hid

end Document

/-- Which bindings a walk finds does not depend on the store. -/
theorem bindings_compile {doc : Document} (hwf : doc.WellFormed) (store other : Store)
    (settings : Settings) (root : NodeId) : (compile doc store settings root).bindings =
      (compile doc other settings root).bindings := by
  obtain ⟨order, asked, horder, -, hcompile⟩ := compile_eq_extended hwf store settings root
  obtain ⟨order', asked', horder', -, hcompile'⟩ := compile_eq_extended hwf other settings root
  rw [hcompile, hcompile', horder.unique horder']
  rfl

end ViewBinding
