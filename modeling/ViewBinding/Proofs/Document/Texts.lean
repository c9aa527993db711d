import Mathlib
import ViewBinding.Proofs.Document.Bounds
import ViewBinding.Proofs.Document.PreOrder
import ViewBinding.Proofs.Document.Regions

/-!
# Texts of elements

The text of an element is put together from the texts under it, in document order. When the text of
a node is set, those of the elements above it change at its place in this order and nowhere else,
and all other elements keep theirs (`Document.setTextContent_rewords`).
-/

namespace ViewBinding

/-- What a node adds by itself to the texts of the elements above it. -/
def Content.textData? : Content → Option String
  | .text data => some data
  | .document | .element .. | .comment _ => none

namespace Document

def textData? (doc : Document) (id : NodeId) : Option String :=
  (doc.content? id).bind Content.textData?

/-- The texts among some nodes, put together. -/
def textsOf (doc : Document) (ids : List NodeId) : String :=
  String.join (ids.filterMap doc.textData?)

/-- An element whose children were replaced by a text. -/
structure Refilled (doc : Document) (id : NodeId) (text : String) (after : Document) : Prop where
  emptied : text = "" → after.children id = []
  filled : text ≠ "" → after.children id = [doc.size] ∧
    after.node? doc.size = some { content := .text text, parent := some id, children := [] }
  released : ∀ c ∈ doc.children id, after.parent? c = none
  subtrees : ∀ c ∈ doc.children id, ∀ x, after.Under x c ↔ doc.Under x c
  kept : ∀ c ∈ doc.children id, ∀ x, doc.Under x c →
    after.children x = doc.children x ∧ after.content? x = doc.content? x
  texts : ∀ c ∈ doc.children id, after.textContent? c = doc.textContent? c

/-- The text of an element is that of the nodes under it, in document order. -/
def ReadsInOrder (doc : Document) (id : NodeId) : Prop :=
  ∃ order, doc.PreOrder (doc.children id) order ∧
    (∀ x, x ∈ order ↔ doc.Under x id ∧ x ≠ id) ∧ doc.textContent? id = some (doc.textsOf order)

/-- What became of the text of an element when that of a node was set. -/
structure Reworded (doc : Document) (node : NodeId) (text : String) (after : Document)
    (id : NodeId) : Prop where
  before : doc.ReadsInOrder id
  now : after.ReadsInOrder id
  /-- Comments do not count for the elements above them. -/
  apart : ¬ (doc.Under node id ∧ (doc.kind node = .text ∨ doc.kind node = .element)) →
    after.textContent? id = doc.textContent? id
  within : doc.Under node id → doc.kind node = .text ∨ doc.kind node = .element →
    ∃ before below behind, doc.PreOrder (doc.children id) (before ++ node :: (below ++ behind)) ∧
      doc.PreOrder (doc.children node) below ∧
      doc.textContent? node = some (doc.textsOf (node :: below)) ∧
      doc.textContent? id =
        some (doc.textsOf before ++ doc.textsOf (node :: below) ++ doc.textsOf behind) ∧
      after.textContent? id = some (doc.textsOf before ++ text ++ doc.textsOf behind)

variable {doc after : Document} {id node : NodeId} {ids order below : List NodeId} {text : String}

/-! ## Reading -/

@[simp] theorem textsOf_nil (doc : Document) : doc.textsOf [] = "" := rfl

private theorem textsOf_append (doc : Document) (ids others : List NodeId) :
    doc.textsOf (ids ++ others) = doc.textsOf ids ++ doc.textsOf others := by
  rw [textsOf, List.filterMap_append, String.join_append]
  rfl

theorem textsOf_cons (doc : Document) (id : NodeId) (ids : List NodeId) :
    doc.textsOf (id :: ids) = doc.textsOf [id] ++ doc.textsOf ids :=
  textsOf_append doc [id] ids

theorem textsOf_congr (h : ∀ x ∈ ids, after.textData? x = doc.textData? x) :
    after.textsOf ids = doc.textsOf ids := by
  rw [textsOf, textsOf, List.filterMap_congr h]

private theorem textsOf_text {data : String} (h : doc.content? id = some (.text data)) :
    doc.textsOf [id] = data := by
  simp [textsOf, textData?, h, Content.textData?]

private theorem textData?_of_kind_ne (h : doc.kind id ≠ .text) : doc.textData? id = none := by
  rw [kind_eq] at h
  rw [textData?]
  rcases hcontent : doc.content? id with _ | _ | _ | _ | _
  case some.text data =>
    rw [hcontent] at h
    exact absurd rfl h
  all_goals rfl

private theorem textsOf_of_kind_ne (h : doc.kind id ≠ .text) : doc.textsOf [id] = "" := by
  simp [textsOf, textData?_of_kind_ne h]

theorem WellFormed.children_eq_nil (hwf : doc.WellFormed) (h : doc.isContainer id = false) :
    doc.children id = [] := by
  apply List.eq_nil_iff_forall_not_mem.mpr
  intro c hc
  rw [hwf.container id c hc] at h
  cases h

private theorem WellFormed.textWithin_size (hwf : doc.WellFormed) (id : NodeId) :
    doc.textWithin doc.size id =
      doc.textsOf [id] ++ String.join ((doc.children id).map (doc.textWithin doc.size)) := by
  have hleaf : doc.isContainer id = false → doc.children id = [] := hwf.children_eq_nil
  rw [isContainer_eq] at hleaf
  refine (hwf.textWithin_eq id le_rfl (Nat.le_succ _)).trans ?_
  rw [textWithin, textsOf]
  rcases hnode : doc.node? id with _ | ⟨_ | _ | _ | _, parent, children⟩ <;>
    simp_all [content?, children_eq, Content.isContainer, textData?, Content.textData?]

private theorem PreOrder.join_textWithin (hwf : doc.WellFormed) (h : doc.PreOrder ids order) :
    String.join (ids.map (doc.textWithin doc.size)) = doc.textsOf order := by
  induction h with
  | nil => rfl
  | @cons id ids below rest _ _ ihbelow ihrest =>
    calc String.join ((id :: ids).map (doc.textWithin doc.size))
        = doc.textWithin doc.size id ++ String.join (ids.map (doc.textWithin doc.size)) :=
          String.join_cons
      _ = doc.textsOf [id] ++ doc.textsOf below ++ doc.textsOf rest := by
          rw [hwf.textWithin_size, ihbelow, ihrest]
      _ = doc.textsOf (id :: (below ++ rest)) := by
          rw [textsOf_cons doc id (below ++ rest), textsOf_append, String.append_assoc]

private theorem textContent?_eq (doc : Document) (id : NodeId) :
    doc.textContent? id = (doc.content? id).bind fun
      | .text data | .comment data => some data
      | .element .. => some (doc.textWithin doc.size id)
      | .document => none := by
  unfold textContent? content?
  rcases doc.node? id with _ | ⟨_ | _ | _ | _, parent, children⟩ <;> rfl

private theorem PreOrder.textContent?_element (h : doc.PreOrder (doc.children id) order)
    (hwf : doc.WellFormed) (hkind : doc.kind id = .element) :
    doc.textContent? id = some (doc.textsOf order) := by
  have hwithin : doc.textWithin doc.size id = doc.textsOf order := by
    rw [hwf.textWithin_size, h.join_textWithin hwf, textsOf_of_kind_ne (by simp [hkind]),
      String.empty_append]
  obtain ⟨tag, attributes, value, hcontent⟩ := (kind_eq_element_iff doc id).mp hkind
  rw [textContent?_eq, hcontent, ← hwithin]
  rfl

/-- What a text or an element shows is what it adds to the texts of the elements above it. -/
theorem PreOrder.textContent?_eq_textsOf (h : doc.PreOrder (doc.children id) below)
    (hwf : doc.WellFormed) (hkind : doc.kind id = .text ∨ doc.kind id = .element) :
    doc.textContent? id = some (doc.textsOf (id :: below)) := by
  rw [textsOf_cons]
  rcases hkind with hkind | hkind
  · obtain ⟨data, hcontent⟩ := (kind_eq_text_iff doc id).mp hkind
    have hleaf : doc.children id = [] := by
      apply hwf.children_eq_nil
      rw [isContainer_eq, hcontent]
      rfl
    rw [hleaf] at h
    cases h
    rw [textContent?_text hcontent, textsOf_text hcontent, textsOf_nil, String.append_empty]
  · rw [h.textContent?_element hwf hkind, textsOf_of_kind_ne (by simp [hkind]),
      String.empty_append]

private theorem WellFormed.readsInOrder (hwf : doc.WellFormed) (hkind : doc.kind id = .element) :
    doc.ReadsInOrder id := by
  obtain ⟨order, horder⟩ := hwf.exists_preOrder (doc.children id)
  exact ⟨order, horder, horder.mem_children_iff hwf, horder.textContent?_element hwf hkind⟩

/-! ## Other documents -/

private theorem PreOrder.textContent?_congr (h : doc.PreOrder (doc.children id) order)
    (hwf : doc.WellFormed) (hafter : after.WellFormed)
    (hcontent : after.content? id = doc.content? id)
    (hchildren : ∀ x ∈ id :: order, after.children x = doc.children x)
    (hdata : ∀ x ∈ order, after.textData? x = doc.textData? x) :
    after.textContent? id = doc.textContent? id := by
  have hsame : after.PreOrder (after.children id) order := by
    rw [hchildren id (List.mem_cons_self ..)]
    exact h.congr fun x hx => hchildren x (List.mem_cons_of_mem _ hx)
  by_cases hkind : doc.kind id = .element
  · have hkind' : after.kind id = .element := (kind_congr hcontent).trans hkind
    rw [h.textContent?_element hwf hkind, hsame.textContent?_element hafter hkind',
      textsOf_congr hdata]
  · rw [kind_eq] at hkind
    rw [textContent?_eq, textContent?_eq, hcontent]
    rcases hsome : doc.content? id with _ | _ | _ | _ | _
    case some.element =>
      rw [hsome] at hkind
      exact absurd rfl hkind
    all_goals rfl

private theorem WellFormed.under_iff_of_kept (hwf : doc.WellFormed) (hafter : after.WellFormed)
    (hkept : ∀ x, doc.Under x id → after.children x = doc.children x) (x : NodeId) :
    after.Under x id ↔ doc.Under x id := by
  obtain ⟨order, horder⟩ := hwf.exists_preOrder [id]
  have hmem : ∀ x, x ∈ order ↔ doc.Under x id := by simpa using horder.mem_iff hwf
  have hsame : after.PreOrder [id] order := horder.congr fun x hx => hkept x ((hmem x).mp hx)
  have hmem' : x ∈ order ↔ after.Under x id := by simpa using hsame.mem_iff hafter x
  exact hmem'.symm.trans (hmem x)

private theorem WellFormed.textContent?_of_kept (hwf : doc.WellFormed) (hafter : after.WellFormed)
    (hkept : ∀ x, doc.Under x id →
      after.children x = doc.children x ∧ after.content? x = doc.content? x) :
    after.textContent? id = doc.textContent? id := by
  obtain ⟨below, hbelow⟩ := hwf.exists_preOrder (doc.children id)
  have hunder : ∀ x ∈ below, doc.Under x id :=
    fun x hx => ((hbelow.mem_children_iff hwf x).mp hx).1
  apply hbelow.textContent?_congr hwf hafter (hkept id .refl).2
  · intro x hx
    rcases List.mem_cons.mp hx with rfl | hx
    · exact (hkept x .refl).1
    · exact (hkept x (hunder x hx)).1
  · intro x hx
    rw [textData?, (hkept x (hunder x hx)).2]
    rfl

/-! ## Setting a text -/

private theorem setTextContent_eq_self (h : doc.size ≤ node ∨ doc.kind node = .document)
    (text : String) : doc.setTextContent node text = doc := by
  rcases h with h | h
  · obtain ⟨nodes⟩ := doc
    have hnone : nodes[node]? = none := Array.getElem?_eq_none h
    have hkind : kind ⟨nodes⟩ node = .comment := by simp [kind, node?, hnone]
    rw [setTextContent, hkind]
    refine congrArg Document.mk (Array.ext_getElem? fun id => ?_)
    rw [Array.getElem?_modify]
    split
    · rename_i hid
      rw [← hid, hnone]
      rfl
    · rfl
  · rw [setTextContent, h]

private theorem node?_eq_some {content : Content} (h : doc.content? id = some content) :
    doc.node? id = some { content, parent := doc.parent? id, children := doc.children id } := by
  obtain ⟨found, hfound, rfl⟩ := Option.map_eq_some_iff.mp h
  simp [parent?, children, hfound]

private theorem children_setTextContent_new (doc : Document) (hkind : doc.kind node = .element)
    (text : String) : (doc.setTextContent node text).children doc.size = [] := by
  have hne : doc.size ≠ node := Nat.ne_of_gt (lt_size_of_kind_eq_element hkind)
  rw [children_setTextContent_of_ne doc hne, children_size]

private theorem WellFormed.textContent?_setTextContent_element (hwf : doc.WellFormed)
    (hkind : doc.kind node = .element) (text : String) :
    (doc.setTextContent node text).textContent? node = some text := by
  have hkind' : (doc.setTextContent node text).kind node = .element :=
    (kind_setTextContent doc (lt_size_of_kind_eq_element hkind) node text).trans hkind
  have hchildren := children_setTextContent_element doc hkind text
  have hafter := hwf.setTextContent node text
  by_cases htext : text.isEmpty = true
  · rw [if_pos htext] at hchildren
    have horder : (doc.setTextContent node text).PreOrder
        ((doc.setTextContent node text).children node) [] := by
      rw [hchildren]
      exact .nil
    rw [horder.textContent?_element hafter hkind', textsOf_nil, String.isEmpty_iff.mp htext]
  · rw [if_neg htext] at hchildren
    have hleaf : (doc.setTextContent node text).PreOrder
        ((doc.setTextContent node text).children doc.size) [] := by
      rw [children_setTextContent_new doc hkind]
      exact .nil
    have horder : (doc.setTextContent node text).PreOrder
        ((doc.setTextContent node text).children node) [doc.size] := by
      rw [hchildren]
      exact .cons hleaf .nil
    rw [horder.textContent?_element hafter hkind',
      textsOf_text (content?_setTextContent_new doc hkind (by simpa using htext))]

private theorem WellFormed.textContent?_setTextContent (hwf : doc.WellFormed)
    (hnode : node < doc.size) (hkind : doc.kind node ≠ .document) (text : String) :
    (doc.setTextContent node text).textContent? node = some text := by
  obtain ⟨content, hcontent⟩ := content?_eq_some_of_lt hnode
  cases content with
  | document =>
    rw [kind_eq, hcontent] at hkind
    exact absurd rfl hkind
  | text => exact textContent?_text (content?_setTextContent_text doc hcontent text)
  | comment =>
    rw [textContent?_eq, content?_setTextContent_comment doc hcontent]
    rfl
  | element tag attributes value =>
    exact hwf.textContent?_setTextContent_element
      ((kind_eq_element_iff doc node).mpr ⟨_, _, _, hcontent⟩) text

private theorem WellFormed.parent?_setTextContent (hwf : doc.WellFormed)
    (hkind : doc.kind node = .element) (text : String) :
    ∀ c ∈ doc.children node, (doc.setTextContent node text).parent? c = none := by
  intro c hc
  have hne : c ≠ doc.size := Nat.ne_of_lt (lt_size_of_parent? ((hwf.linked node c).mp hc))
  simp only [Document.setTextContent, hkind, Document.createText]
  split
  · rw [parent?_removeChildren, if_pos hc]
  · rw [parent?_attachLast, if_neg fun h => hne h.1, parent?_removeChildren, children_create,
      if_pos hc]

private theorem WellFormed.refilled (hwf : doc.WellFormed) (hkind : doc.kind node = .element)
    (text : String) : doc.Refilled node text (doc.setTextContent node text) := by
  have hafter := hwf.setTextContent node text
  have hchildren := children_setTextContent_element doc hkind text
  have hkept : ∀ c ∈ doc.children node, ∀ x, doc.Under x c →
      (doc.setTextContent node text).children x = doc.children x ∧
        (doc.setTextContent node text).content? x = doc.content? x := by
    intro c hc x hx
    have hparent := (hwf.linked node c).mp hc
    have hne : x ≠ node := by
      rintro rfl
      exact hwf.not_under_of_parent? hparent hx
    exact ⟨children_setTextContent_of_ne doc hne text,
      content?_setTextContent_of_ne doc hne (hx.lt_size (lt_size_of_parent? hparent)) text⟩
  constructor
  case emptied =>
    rintro rfl
    exact hchildren
  case filled =>
    intro htext
    have hempty : text.isEmpty = false := by simpa using htext
    rw [hempty] at hchildren
    have hplaced : (doc.setTextContent node text).parent? doc.size = some node := by
      apply (hafter.linked node doc.size).mp
      rw [hchildren]
      exact List.mem_singleton.mpr rfl
    refine ⟨hchildren, ?_⟩
    rw [node?_eq_some (content?_setTextContent_new doc hkind hempty), hplaced,
      children_setTextContent_new doc hkind]
  case released => exact hwf.parent?_setTextContent hkind text
  case kept => exact hkept
  case subtrees =>
    intro c hc
    exact hwf.under_iff_of_kept hafter fun x hx => (hkept c hc x hx).1
  case texts =>
    intro c hc
    exact hwf.textContent?_of_kept hafter (hkept c hc)

/-! ## The texts above -/

private theorem textData?_setTextContent_of_ne (hne : id ≠ node) (hlt : id < doc.size)
    (text : String) : (doc.setTextContent node text).textData? id = doc.textData? id := by
  rw [textData?, content?_setTextContent_of_ne doc hne hlt]
  rfl

private theorem WellFormed.textContent?_setTextContent_of_apart (hwf : doc.WellFormed)
    (hne : id ≠ node) (hkind : doc.kind id = .element)
    (h : ¬ (doc.Under node id ∧ (doc.kind node = .text ∨ doc.kind node = .element))) :
    (doc.setTextContent node text).textContent? id = doc.textContent? id := by
  have hid := lt_size_of_kind_eq_element hkind
  obtain ⟨order, horder⟩ := hwf.exists_preOrder (doc.children id)
  have hunder : ∀ x ∈ order, doc.Under x id :=
    fun x hx => ((horder.mem_children_iff hwf x).mp hx).1
  have hplain : node ∈ order → doc.kind node ≠ .text ∧ doc.kind node ≠ .element :=
    fun hin => not_or.mp fun hnode => h ⟨hunder node hin, hnode⟩
  apply horder.textContent?_congr hwf (hwf.setTextContent node text)
    (content?_setTextContent_of_ne doc hne hid text)
  · intro x hx
    by_cases hx' : x = node
    · subst hx'
      rcases List.mem_cons.mp hx with he | hx
      · exact absurd he.symm hne
      · exact children_setTextContent_of_kind_ne doc (hplain hx).2 text x
    · exact children_setTextContent_of_ne doc hx' text
  · intro x hx
    have hlt := (hunder x hx).lt_size hid
    by_cases hx' : x = node
    · subst hx'
      rw [textData?_of_kind_ne (hplain hx).1, textData?_of_kind_ne]
      rw [kind_setTextContent doc hlt]
      exact (hplain hx).1
    · exact textData?_setTextContent_of_ne hx' hlt text

private theorem WellFormed.textsOf_setTextContent (hwf : doc.WellFormed) (hlt : node < doc.size)
    (hnode : doc.kind node = .text ∨ doc.kind node = .element) {new : List NodeId}
    (hnew : (doc.setTextContent node text).PreOrder
      ((doc.setTextContent node text).children node) new) :
    (doc.setTextContent node text).textsOf (node :: new) = text := by
  have hkind : doc.kind node ≠ .document := by
    intro hdocument
    simp [hdocument] at hnode
  rw [← kind_setTextContent doc hlt node text] at hnode
  have hshown := hnew.textContent?_eq_textsOf (hwf.setTextContent node text) hnode
  rw [hwf.textContent?_setTextContent hlt hkind text] at hshown
  exact (Option.some.inj hshown).symm

private theorem WellFormed.reworded (hwf : doc.WellFormed) (hne : id ≠ node)
    (hkind : doc.kind id = .element) (text : String) :
    doc.Reworded node text (doc.setTextContent node text) id := by
  have hafter := hwf.setTextContent node text
  have hid := lt_size_of_kind_eq_element hkind
  have hkind' : (doc.setTextContent node text).kind id = .element :=
    (kind_setTextContent doc hid node text).trans hkind
  constructor
  case before => exact hwf.readsInOrder hkind
  case now => exact hafter.readsInOrder hkind'
  case apart => exact hwf.textContent?_setTextContent_of_apart hne hkind
  case within =>
    intro hunder hnode
    obtain ⟨order, horder⟩ := hwf.exists_preOrder (doc.children id)
    obtain ⟨new, hnew⟩ := hafter.exists_preOrder ((doc.setTextContent node text).children node)
    have hnodup := horder.nodup_children hwf
    obtain ⟨before, below, behind, rfl, hbelow, hafterOrder⟩ := horder.replace hnodup
      (fun x _ hx => children_setTextContent_of_ne doc hx text) hnew
      ((horder.mem_children_iff hwf node).mpr ⟨hunder, hne.symm⟩)
    have hnew' := hwf.textsOf_setTextContent (hunder.lt_size hid) hnode hnew
    have hkept : ∀ ids ⊆ before ++ (below ++ behind),
        (doc.setTextContent node text).textsOf ids = doc.textsOf ids := by
      intro ids hids
      apply textsOf_congr
      intro x hx
      apply textData?_setTextContent_of_ne
      · rintro rfl
        exact (List.nodup_cons.mp (List.nodup_middle.mp hnodup)).1 (hids hx)
      · apply horder.lt_size_children hwf
        exact List.perm_middle.mem_iff.mpr (List.mem_cons_of_mem _ (hids hx))
    rw [← children_setTextContent_of_ne doc hne text] at hafterOrder
    refine ⟨before, below, behind, horder, hbelow, hbelow.textContent?_eq_textsOf hwf hnode, ?_, ?_⟩
    · rw [horder.textContent?_element hwf hkind, ← List.cons_append, textsOf_append, textsOf_append,
        String.append_assoc]
    · rw [hafterOrder.textContent?_element hafter hkind', ← List.cons_append, textsOf_append,
        textsOf_append, hnew', hkept before (by simp), hkept behind (by simp), String.append_assoc]

/-- Setting the text of a node changes what this node shows, and at its place what the elements
above it show. The children that an element had keep what they are and what is under them. -/
theorem setTextContent_rewords (hdoc : doc.Reachable) (node : NodeId) (text : String) :
    (doc.size ≤ node ∨ doc.kind node = .document → doc.setTextContent node text = doc) ∧
    (node < doc.size → doc.kind node ≠ .document →
      (doc.setTextContent node text).textContent? node = some text) ∧
    (doc.kind node = .element → doc.Refilled node text (doc.setTextContent node text)) ∧
    ∀ id, id ≠ node → doc.kind id = .element →
      doc.Reworded node text (doc.setTextContent node text) id := by
  have hwf := hdoc.wellFormed
  refine ⟨fun h => setTextContent_eq_self h text, ?_, fun h => hwf.refilled h text, ?_⟩
  · intro hnode hkind
    exact hwf.textContent?_setTextContent hnode hkind text
  · intro id hne hkind
    exact hwf.reworded hne hkind text

/-- A paragraph with a comment in it, between two texts. -/
def commentedParagraph : Document := (empty.parseInto root "<div>a<p>b<!--c-->d</p>e</div>").1

/-- The element around the paragraph shows the new text of it between the two others. Another
comment would make no difference to it, and an unknown node has no text to set. -/
theorem commentedParagraph_rewords :
    commentedParagraph.textContent? 1 = some "abde" ∧
    ((commentedParagraph.setTextContent 3 "x").textContent? 3 = some "x" ∧
      commentedParagraph.Refilled 3 "x" (commentedParagraph.setTextContent 3 "x") ∧
      commentedParagraph.Reworded 3 "x" (commentedParagraph.setTextContent 3 "x") 1) ∧
    (commentedParagraph.setTextContent 3 "x").textContent? 1 = some "axe" ∧
    (commentedParagraph.setTextContent 5 "x").textContent? 1 = some "abde" ∧
    commentedParagraph.setTextContent 9 "x" = commentedParagraph := by
  have hdoc : commentedParagraph.Reachable :=
    .parseInto root "<div>a<p>b<!--c-->d</p>e</div>" .empty
  have hsize : commentedParagraph.size = 8 := by decide +kernel
  have hdiv : commentedParagraph.kind 1 = .element := by decide +kernel
  have hparagraph : commentedParagraph.kind 3 = .element := by decide +kernel
  have hcomment : commentedParagraph.kind 5 = .comment := by decide +kernel
  obtain ⟨-, hshown, hrefilled, hreworded⟩ := setTextContent_rewords hdoc 3 "x"
  refine ⟨by decide +kernel, ⟨?_, hrefilled hparagraph, hreworded 1 (by decide) hdiv⟩, ?_, ?_, ?_⟩
  · exact hshown (by rw [hsize]; decide) (by rw [hparagraph]; decide)
  · decide +kernel
  · rw [((setTextContent_rewords hdoc 5 "x").2.2.2 1 (by decide) hdiv).apart (by simp [hcomment])]
    decide +kernel
  · exact (setTextContent_rewords hdoc 9 "x").1 (Or.inl (by rw [hsize]; decide))

end Document
end ViewBinding
