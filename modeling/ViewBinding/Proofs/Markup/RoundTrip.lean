import Mathlib
import ViewBinding.Proofs.Markup.Planting

/-!
# Reading what was written

Documents that were read are the same when they are written and read again
(`Document.parse_innerMarkup`). What stands under any node of a document is read back as the same
forest when markup can express it (`Document.exists_parse_innerMarkup`).
-/

namespace ViewBinding

open Markup

private theorem Forest.Writable.parse {forest : Forest} (h : forest.Writable) :
    Document.parse (String.ofList forest.markup) =
      .ok (Document.empty.plant Document.root forest) := by
  have hend : ∀ c ∈ ([] : List Char).head?, c = '<' := by simp
  obtain ⟨ts, next, hspells, htokens⟩ := h.exists_tokens hend 0
  have hempty : tokens ⟨next, []⟩ = ([], none) := by rw [tokens]; rfl
  have hread : tokens (.start (String.ofList forest.markup).toList) = (ts, none) := by
    rw [Cursor.start, String.toList_ofList, ← List.append_nil forest.markup, htokens, hempty,
      List.append_nil]
  have hproper : ∀ t ∈ ts, t.Proper := by
    have hall := tokens_proper (.start (String.ofList forest.markup).toList)
    rwa [hread] at hall
  have hbuild : build Document.root (ts ++ []) .empty [] =
      build Document.root [] (Document.empty.plant Document.root forest) [] :=
    hspells.build hproper .empty rfl []
  rw [List.append_nil, build] at hbuild
  simp only [Document.parse, Document.parseInto, hread, hbuild, finish]

private theorem finish_eq_ok {doc built : Document} {fault : Option Fault} {opened : Opened}
    (h : finish doc fault opened = (built, .ok ())) : opened = [] ∧ built = doc := by
  rcases fault with _ | fault
  · rcases opened with _ | ⟨⟨id, tag⟩, outer⟩
    · exact ⟨rfl, (Prod.mk.inj h).1.symm⟩
    · simp [finish] at h
  · simp [finish] at h

namespace Document

/-- Markup that is read plants a forest that markup can express. -/
theorem exists_forest_of_parse {markup : String} {doc : Document}
    (h : Document.parse markup = .ok doc) :
    ∃ forest : Forest, forest.Writable ∧ doc = Document.empty.plant root forest := by
  simp only [Document.parse, Document.parseInto] at h
  split at h
  · rename_i built hfinish
    obtain rfl := Except.ok.inj h
    split at hfinish
    · simp at hfinish
    · rename_i planted opened hbuild
      obtain ⟨rfl, rfl⟩ := finish_eq_ok hfinish
      have hproper := tokens_proper (.start markup.toList)
      obtain ⟨forest, hspells⟩ := exists_spells_of_build hbuild
      have hplant : build root ((tokens (.start markup.toList)).1 ++ []) empty [] =
          build root [] (empty.plant root forest) [] := hspells.build hproper .empty rfl []
      rw [List.append_nil, hbuild, build] at hplant
      exact ⟨forest, hspells.writable hproper (tokens_apart _), (Prod.mk.inj hplant).1⟩
  · cases h

/-- A planted forest stands under the document node. -/
theorem depicts_plant_empty (forest : Forest) :
    (empty.plant root forest).Depicts ((empty.plant root forest).children root) forest := by
  obtain ⟨ids, hchildren, hdepicts⟩ := exists_depicts_plant WellFormed.empty.root_lt_size forest
  rw [hchildren]
  exact hdepicts _ (AgreesOn.refl _ _ _)

/-- Markup that was read is read again as the same document, node by node, after it was written. -/
theorem parse_innerMarkup {markup : String} {doc : Document} (h : Document.parse markup = .ok doc) :
    Document.parse (doc.innerMarkup root) = .ok doc := by
  have hwf : doc.WellFormed := by
    have hbuilt := WellFormed.empty.parseInto root markup
    simp only [Document.parse] at h
    split at h
    · rename_i built hread
      rw [hread] at hbuilt
      rwa [← Except.ok.inj h]
    · cases h
  obtain ⟨forest, hwritable, rfl⟩ := exists_forest_of_parse h
  rw [innerMarkup, (depicts_plant_empty forest).flatMap_nodeMarkup hwf]
  exact hwritable.parse

/-- Markup with tags and names in capitals, a repeated attribute, every way of writing a value, an
entity that stands for the text of an entity, and elements that are closed in three ways. -/
def mixedMarkup : String :=
  "<DIV Class=a CLASS='b\"c' checked>a &amp;lt; b<!-- - --><BR><p/></div>x"

def mixedDocument : Document :=
  ⟨#[{ content := .document, children := [1, 6] },
    { content := .element "div" [⟨"class", "b\"c"⟩, ⟨"checked", ""⟩] none, parent := some 0,
      children := [2, 3, 4, 5] },
    { content := .text "a &lt; b", parent := some 1 },
    { content := .comment " - ", parent := some 1 },
    { content := .element "br" [] none, parent := some 1 },
    { content := .element "p" [] none, parent := some 1 },
    { content := .text "x", parent := some 0 }]⟩

theorem mixedMarkup_parsed_again :
    Document.parse mixedMarkup = .ok mixedDocument ∧
      Document.parse (mixedDocument.innerMarkup root) = .ok mixedDocument :=
  have hparse : Document.parse mixedMarkup = .ok mixedDocument := by decide +kernel
  ⟨hparse, parse_innerMarkup hparse⟩

/-! ## Parts of documents -/

end Document

/-- A node with these children can be expressed by markup: its names are names, it has no content if
its tag never has any, and its data is text that a reader would end where it ends. -/
def Content.Expressible (children : List NodeId) : Content → Prop
  | .document => True
  | .element tag attributes _ =>
    Text.isName tag.toList = true ∧ (∀ a ∈ attributes, IsAttributeName a.name) ∧
      (isVoid tag = true → children = [])
  | .text data => data ≠ ""
  | .comment data => ¬ ['-', '-', '>'] <:+: data.toList

instance (name : String) : Decidable (IsAttributeName name) :=
  decidable_of_iff (name.toList ≠ [] ∧ name.toList.all isAttributeNameChar = true)
    (by rw [List.all_eq_true, IsAttributeName])

instance (children : List NodeId) : (content : Content) → Decidable (content.Expressible children)
  | .document => inferInstanceAs (Decidable True)
  | .element .. => inferInstanceAs (Decidable (_ ∧ _ ∧ (_ → _)))
  | .text _ => inferInstanceAs (Decidable (_ ≠ _))
  | .comment _ => inferInstanceAs (Decidable (¬ _))

namespace Document

/-- What stands under a node, other than the node itself. -/
def Below (doc : Document) (id top : NodeId) : Prop :=
  ∃ c ∈ doc.children top, doc.Under id c

/-- Two texts among the nodes do not stand side by side. -/
def TextsApart (doc : Document) (ids : List NodeId) : Prop :=
  ids.IsChain fun a b => ¬ (doc.kind a = .text ∧ doc.kind b = .text)

instance (doc : Document) (ids : List NodeId) : Decidable (doc.TextsApart ids) :=
  inferInstanceAs (Decidable (List.IsChain _ _))

/-- What stands under a node can be expressed by markup. -/
structure Expressible (doc : Document) (top : NodeId) : Prop where
  nodes {id content} : doc.Below id top → doc.content? id = some content →
    content.Expressible (doc.children id)
  apart {id} : doc.Under id top → doc.TextsApart (doc.children id)

variable {doc : Document}

private theorem WellFormed.under_of_below (hwf : doc.WellFormed) {id top : NodeId}
    (h : doc.Below id top) : doc.Under id top := by
  obtain ⟨c, hc, hunder⟩ := h
  exact hunder.tail ((hwf.linked top c).mp hc)

private theorem WellFormed.below_of_mem_children (hwf : doc.WellFormed) {id c top : NodeId}
    (h : doc.Below id top) (hc : c ∈ doc.children id) : doc.Below c top := by
  obtain ⟨first, hfirst, hunder⟩ := h
  exact ⟨first, hfirst, .head ((hwf.linked id c).mp hc) hunder⟩

private theorem Depicts.kind_of_beginsWithText {ids : List NodeId} {forest : Forest}
    (h : doc.Depicts ids forest) (htext : forest.beginsWithText = true) :
    ∃ id ∈ ids.head?, doc.kind id = .text := by
  cases h with
  | text hcontent => exact ⟨_, rfl, (kind_eq_text_iff doc _).mpr ⟨_, hcontent⟩⟩
  | nil | comment | element => cases htext

private theorem Depicts.writable (hwf : doc.WellFormed) {top : NodeId} (htop : doc.Expressible top)
    {ids : List NodeId} {forest : Forest} (h : doc.Depicts ids forest)
    (hbelow : ∀ id ∈ ids, doc.Below id top)
    (hapart : doc.TextsApart ids) : forest.Writable := by
  induction h with
  | nil => trivial
  | @text id ids data rest hcontent hrest ih =>
    rw [List.forall_mem_cons] at hbelow
    rw [TextsApart, List.isChain_cons] at hapart
    refine ⟨htop.nodes hbelow.1 hcontent, eq_false_of_ne_true fun htext => ?_, ih hbelow.2 hapart.2⟩
    obtain ⟨next, hnext, hkind⟩ := hrest.kind_of_beginsWithText htext
    exact hapart.1 next hnext ⟨(kind_eq_text_iff doc id).mpr ⟨data, hcontent⟩, hkind⟩
  | comment hcontent _ ih =>
    rw [List.forall_mem_cons] at hbelow
    exact ⟨htop.nodes hbelow.1 hcontent, ih hbelow.2 (List.isChain_cons.mp hapart).2⟩
  | @element id ids tag attributes value inside rest hcontent hinside _ ihinside ih =>
    rw [List.forall_mem_cons] at hbelow
    obtain ⟨-, hnodup, hlower, htag⟩ := hwf.valid id _ hcontent
    obtain ⟨hname, hnames, hleaf⟩ := htop.nodes hbelow.1 hcontent
    refine ⟨⟨hname, htag⟩, fun a ha => ⟨hnames a ha, hlower a ha⟩, hnodup, ?_, ?_,
      ih hbelow.2 (List.isChain_cons.mp hapart).2⟩
    · intro hvoid
      rw [hleaf hvoid] at hinside
      cases hinside
      rfl
    · exact ihinside (fun c hc => hwf.below_of_mem_children hbelow.1 hc)
        (htop.apart (hwf.under_of_below hbelow.1))

/-- What stands under a node is read back as the same forest when markup can express it, whatever its
texts and the values of its attributes are. The elements that are read have the values that their
attributes give. -/
theorem exists_parse_innerMarkup (hdoc : doc.Reachable) {top : NodeId} (htop : doc.Expressible top) :
    ∃ read forest, Document.parse (doc.innerMarkup top) = .ok read ∧
      doc.Depicts (doc.children top) forest ∧ read.Depicts (read.children root) forest ∧
      ∀ id tag attributes value, read.content? id = some (.element tag attributes value) →
        value = settledValue tag attributes := by
  have hwf := hdoc.wellFormed
  obtain ⟨forest, hforest⟩ := hwf.exists_depicts top
  have hwritable : forest.Writable :=
    hforest.writable hwf htop (fun c hc => ⟨c, hc, .refl⟩) (htop.apart .refl)
  refine ⟨_, forest, ?_, hforest, depicts_plant_empty forest, ValuesSettled.empty.plant root forest⟩
  rw [innerMarkup, hforest.flatMap_nodeMarkup hwf]
  exact hwritable.parse

/-- A note that was taken out of a list and put back behind its sibling, a detached node, and data
that looks like markup everywhere. -/
def annotated : Document :=
  let doc := (empty.appendElement root "ul" []).1
  let doc := (doc.appendElement 1 "LI" [⟨"title", "a \"b\" --> &quot;"⟩, ⟨"Data-x", "<i>&amp;</i>"⟩]).1
  let doc := (doc.appendElement 1 "input" [⟨"value", "&#39;"⟩]).1
  let doc := (doc.appendText 2 "</li><!-- &lt; & --").1
  let doc := (doc.createComment " <b> -- > ").1
  let doc := (doc.createText "never shown").1
  let doc := ((doc.setValue 3 "typed").appendChild 2 5).toOption.getD empty
  (doc.appendChild 1 2).toOption.getD empty

theorem annotated_read_back :
    annotated.children 1 = [3, 2] ∧
    ∃ read forest, Document.parse (annotated.innerMarkup 1) = .ok read ∧
      annotated.Depicts (annotated.children 1) forest ∧ read.Depicts (read.children root) forest ∧
      ∀ id tag attributes value, read.content? id = some (.element tag attributes value) →
        value = settledValue tag attributes := by
  have happend : ∀ {doc : Document} parent child, doc.Reachable →
      ((doc.appendChild parent child).toOption.getD empty).Reachable := by
    intro doc parent child hdoc
    cases h : doc.appendChild parent child with
    | error e => exact .empty
    | ok after => exact hdoc.appendChild parent child h
  have hdoc : annotated.Reachable := by
    unfold annotated
    apply happend
    apply happend
    apply Reachable.setValue
    apply Reachable.createText
    apply Reachable.createComment
    apply Reachable.appendText
    iterate 3 apply Reachable.appendElement
    exact .empty
  have hnodes : ∀ id < annotated.size, annotated.TextsApart (annotated.children id) ∧
      ∀ content ∈ annotated.content? id, content.Expressible (annotated.children id) := by
    decide +kernel
  have htop : annotated.Expressible 1 := by
    refine ⟨fun _ hcontent => (hnodes _ (lt_size_of_content? hcontent)).2 _ hcontent, ?_⟩
    intro id hunder
    rcases Relation.ReflTransGen.cases_head hunder with rfl | ⟨parent, hparent, -⟩
    · exact (hnodes 1 (by decide +kernel)).1
    · exact (hnodes id (lt_size_of_parent? hparent)).1
  exact ⟨by decide +kernel, exists_parse_innerMarkup hdoc htop⟩

end Document
end ViewBinding
