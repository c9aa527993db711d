import Mathlib
import ViewBinding.Proofs.Compile.Discovery

/-!
# Edits

Whatever is done to a document is made of a few operations on it (`Edits`): the larger ones, the
reading of markup among them, as well as the changes by bindings and the walk that finds these.
What one edit keeps is therefore kept by all that happens to a document: that it was made by
operations (`Edits.reachable`), and which nodes carry a value (`Edits.supportsValue`).
-/

namespace ViewBinding
namespace Document

/-- One operation on a document, which is not refused. -/
inductive Edit : Document → Document → Prop
  | createElement (doc : Document) (tag : String) : Edit doc (doc.createElement tag).1
  | createText (doc : Document) (data : String) : Edit doc (doc.createText data).1
  | createComment (doc : Document) (data : String) : Edit doc (doc.createComment data).1
  | appendChild {doc after : Document} {parent child : NodeId} :
      doc.appendChild parent child = .ok after → Edit doc after
  | setAttribute {doc after : Document} {id : NodeId} {name value : String} :
      doc.setAttribute id name value = .ok after → Edit doc after
  | setTextContent (doc : Document) (id : NodeId) (text : String) :
      Edit doc (doc.setTextContent id text)
  | setValue (doc : Document) (id : NodeId) (value : String) : Edit doc (doc.setValue id value)

/-- One operation after another. -/
abbrev Edits : Document → Document → Prop := Relation.ReflTransGen Edit

variable {doc after : Document}

/-! ## What an edit leads to -/

theorem eq_of_appendChild {parent child : NodeId} (h : doc.appendChild parent child = .ok after) :
    after = (doc.detach child).attachLast parent child := by
  unfold appendChild at h
  split at h
  · cases h
  split at h
  · cases h
  split at h
  · cases h
  · exact (Except.ok.inj h).symm

theorem eq_of_setAttribute {node : NodeId} {name value : String}
    (h : doc.setAttribute node name value = .ok after) :
    after = doc.modifyContent node (contentWithAttribute (Text.lowercase name) value) := by
  unfold setAttribute at h
  split at h
  · exact (Except.ok.inj h).symm
  · cases h

/-! ## What edits keep -/

theorem Edits.reachable (h : doc.Edits after) (hdoc : doc.Reachable) : after.Reachable := by
  induction h with
  | refl => exact hdoc
  | tail _ hedit ih =>
    cases hedit with
    | createElement tag => exact ih.createElement tag
    | createText data => exact ih.createText data
    | createComment data => exact ih.createComment data
    | appendChild happend => exact ih.appendChild _ _ happend
    | setAttribute hset => exact ih.setAttribute _ _ _ hset
    | setTextContent id text => exact ih.setTextContent id text
    | setValue id value => exact ih.setValue id value

private theorem value?_create_of_lt (content : Content) {id : NodeId} (hid : id < doc.size) :
    (doc.create content).1.value? id = doc.value? id := by
  rw [value?_eq, value?_eq, content?_create, if_neg (Nat.ne_of_lt hid)]

private theorem value?_appendChild {parent child : NodeId}
    (h : doc.appendChild parent child = .ok after)
    (id : NodeId) : after.value? id = doc.value? id := by
  rw [eq_of_appendChild h, value?_eq, value?_eq]
  simp

private theorem isSome_value?_setAttribute {node : NodeId} {name value : String}
    (h : doc.setAttribute node name value = .ok after) (id : NodeId) :
    (after.value? id).isSome = (doc.value? id).isSome := by
  rw [eq_of_setAttribute h, value?_eq, value?_eq, content?_modifyContent]
  split
  · rename_i hid
    subst hid
    rcases doc.content? node with _ | _ | ⟨tag, attributes, old⟩ | _ | _
    case some.element =>
      simp only [Option.map_some, contentWithAttribute, Option.bind_some, Content.value?]
      split <;> simp
    all_goals rfl
  · rfl

theorem lt_size_of_supportsValue {id : NodeId} (h : doc.supportsValue id = true) :
    id < doc.size := by
  obtain ⟨value, hvalue⟩ := Option.isSome_iff_exists.mp h
  obtain ⟨node, hnode, -⟩ := Option.bind_eq_some_iff.mp hvalue
  exact lt_size_of_node? hnode

private theorem Edit.supportsValue (h : doc.Edit after) {id : NodeId}
    (hid : doc.supportsValue id = true) : after.supportsValue id = true := by
  have hlt := lt_size_of_supportsValue hid
  cases h with
  | createElement tag => exact (congrArg Option.isSome (value?_create_of_lt _ hlt)).trans hid
  | createText data => exact (congrArg Option.isSome (value?_create_of_lt _ hlt)).trans hid
  | createComment data => exact (congrArg Option.isSome (value?_create_of_lt _ hlt)).trans hid
  | appendChild happend => exact (congrArg Option.isSome (value?_appendChild happend id)).trans hid
  | setAttribute hset => exact (isSome_value?_setAttribute hset id).trans hid
  | setTextContent node text => exact (supportsValue_perform doc (.setText node text) hlt).trans hid
  | setValue node value => exact (supportsValue_perform doc (.setValue node value) hlt).trans hid

/-- A node never loses its value. -/
theorem Edits.supportsValue (h : doc.Edits after) {id : NodeId}
    (hid : doc.supportsValue id = true) : after.supportsValue id = true := by
  induction h with
  | refl => exact hid
  | tail _ hedit ih => exact hedit.supportsValue ih

/-! ## What is made of edits -/

private theorem edits_setAttributes {id : NodeId} {attributes : List Attribute}
    (h : doc.setAttributes id attributes = .ok after) : doc.Edits after := by
  unfold Document.setAttributes at h
  induction attributes generalizing doc with
  | nil =>
    obtain rfl := Except.ok.inj h
    exact .refl
  | cons a rest ih =>
    rw [List.foldlM_cons] at h
    cases ha : doc.setAttribute id a.name a.value with
    | error e => simp [ha, bind, Except.bind] at h
    | ok named =>
      rw [ha] at h
      exact .head (.setAttribute ha) (ih h)

theorem edits_appendElement (doc : Document) (parent : NodeId) (tag : String)
    (attributes : List Attribute) : doc.Edits (doc.appendElement parent tag attributes).1 := by
  have hcreated : doc.Edits (doc.createElement tag).1 := .single (.createElement doc tag)
  unfold Document.appendElement
  cases hnamed : (doc.createElement tag).1.setAttributes (doc.createElement tag).2 attributes with
  | error e => simpa [hnamed] using hcreated
  | ok named =>
    have hn := hcreated.trans (edits_setAttributes hnamed)
    cases hattached : named.appendChild parent (doc.createElement tag).2 with
    | error e => simpa [hnamed, hattached] using hn
    | ok attached => simpa [hnamed, hattached] using hn.tail (.appendChild hattached)

theorem edits_appendText (doc : Document) (parent : NodeId) (data : String) :
    doc.Edits (doc.appendText parent data).1 := by
  have hcreated : doc.Edits (doc.createText data).1 := .single (.createText doc data)
  unfold Document.appendText
  cases hattached : (doc.createText data).1.appendChild parent (doc.createText data).2 with
  | error e => simpa [hattached] using hcreated
  | ok attached => simpa [hattached] using hcreated.tail (.appendChild hattached)

private theorem edits_attach (doc : Document) (parent child : NodeId) :
    doc.Edits (Markup.attach doc parent child) := by
  unfold Markup.attach
  split
  · rename_i attached hattached
    exact .single (.appendChild hattached)
  · exact .refl

private theorem edits_createTagged (doc : Document) (tag : String) (attributes : List Attribute) :
    doc.Edits (Markup.createTagged doc tag attributes).1 := by
  have hcreated : doc.Edits (doc.createElement tag).1 := .single (.createElement doc tag)
  unfold Markup.createTagged
  cases hnamed : (doc.createElement tag).1.setAttributes (doc.createElement tag).2 attributes with
  | error e => simpa [hnamed] using hcreated
  | ok named => simpa [hnamed] using hcreated.trans (edits_setAttributes hnamed)

private theorem edits_build (parent : NodeId) (tokens : List Markup.Token) (doc : Document)
    (opened : Markup.Opened) : doc.Edits (Markup.build parent tokens doc opened).1 := by
  induction tokens generalizing doc opened with
  | nil => exact .refl
  | cons token rest ih =>
    cases token with
    | comment data =>
      exact .head (.createComment doc data) ((edits_attach _ _ _).trans (ih _ opened))
    | text data => exact .head (.createText doc data) ((edits_attach _ _ _).trans (ih _ opened))
    | opening tag attributes selfClosing =>
      exact (edits_createTagged doc tag attributes).trans ((edits_attach _ _ _).trans (ih _ _))
    | closing tag offset =>
      simp only [Markup.build]
      split
      · exact ih doc _
      · exact .refl

private theorem edits_finish (doc : Document) (fault : Option Markup.Fault)
    (opened : Markup.Opened) : doc.Edits (Markup.finish doc fault opened).1 := by
  rcases fault with _ | fault
  · rcases opened with _ | ⟨⟨id, tag⟩, outer⟩ <;> exact .refl
  · simp only [Markup.finish, Markup.leaveElement]
    split
    · exact edits_createTagged doc _ _
    · exact .refl

theorem edits_parseInto (doc : Document) (parent : NodeId) (markup : String) :
    doc.Edits (doc.parseInto parent markup).1 := by
  have hbuilt := edits_build parent (Markup.tokens (.start markup.toList)).1 doc []
  unfold Document.parseInto
  rcases hb : Markup.build parent (Markup.tokens (.start markup.toList)).1 doc [] with
    ⟨built, e | opened⟩
  · simpa [hb] using hbuilt
  · rw [hb] at hbuilt
    simpa [hb] using hbuilt.trans (edits_finish built _ opened)

theorem edits_perform (doc : Document) (change : HostChange) : doc.Edits (doc.perform change) := by
  cases change with
  | setText node text => exact .single (.setTextContent doc node text)
  | setValue node text => exact .single (.setValue doc node text)
  | listen node => exact .refl

private theorem edits_foldl_showBinding (store : Store) (doc : Document) (found : List Binding) :
    doc.Edits (found.foldl (showBinding store) doc) := by
  induction found generalizing doc with
  | nil => exact .refl
  | cons b rest ih =>
    refine .trans ?_ (ih _)
    rcases showBinding_eq store doc b with h | ⟨change, -, h⟩
    · rw [h]
    · rw [h]
      exact edits_perform doc change

theorem WellFormed.edits_compile (hwf : doc.WellFormed) (store : Store) (settings : Settings)
    (root : NodeId) : doc.Edits (compile doc store settings root).doc := by
  obtain ⟨order, asked, -, -, hcompile⟩ := compile_eq_extended hwf store settings root
  rw [hcompile]
  exact edits_foldl_showBinding store doc _

/-- A document that was read was made by operations. -/
theorem reachable_parse {markup : String} (h : Document.parse markup = .ok doc) :
    doc.Reachable := by
  have hread := (edits_parseInto .empty root markup).reachable .empty
  simp only [Document.parse] at h
  split at h
  · rename_i built hbuilt
    rw [hbuilt] at hread
    rwa [← Except.ok.inj h]
  · cases h

end Document
end ViewBinding
