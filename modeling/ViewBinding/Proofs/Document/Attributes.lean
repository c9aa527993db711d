import Mathlib
import ViewBinding.Proofs.Compile.Directives
import ViewBinding.Proofs.Document.Edits
import ViewBinding.Proofs.Markup.Appending

/-!
# Attributes

The attributes of an element are a map that keeps the order in which names were first set. Names are
held in small letters: setting turns them into these, and reading compares them as they are, so that
a name with a capital can be set and is never read. The attributes of an element that was read from
markup are those that setting them one after another leads to (`setAttribute_updates`).
-/

namespace ViewBinding

/-! ## Setting one attribute after another -/

/-- The last value that is given for a name, in small letters. -/
def lastGiven? (name : String) (given : List Attribute) : Option String :=
  ((given.filter fun a => Text.lowercase a.name == name).getLast?).map Attribute.value

private theorem eraseDups_concat (names : List String) (name : String) :
    (names ++ [name]).eraseDups =
      if name ∈ names then names.eraseDups else names.eraseDups ++ [name] := by
  rw [List.eraseDups_append]
  split
  · rename_i hmem
    simp [List.removeAll, hmem]
  · rename_i hmem
    simp [List.removeAll, hmem, List.eraseDups_cons]

private theorem map_name_settledAttributes (given : List Attribute) :
    (settledAttributes given).map Attribute.name =
      (given.map fun a => Text.lowercase a.name).eraseDups := by
  induction given using List.reverseRecOn with
  | nil => rfl
  | append_singleton given a ih =>
    rw [settledAttributes_concat, Document.map_name_setAttributeValue, ih, List.map_append,
      List.map_singleton, eraseDups_concat]
    simp only [List.mem_eraseDups]

private theorem attributeValue?_settledAttributes (name : String) (given : List Attribute) :
    attributeValue? name (settledAttributes given) = lastGiven? name given := by
  induction given using List.reverseRecOn with
  | nil => rfl
  | append_singleton given a ih =>
    rw [settledAttributes_concat, attributeValue?_setAttributeValue, ih, lastGiven?, lastGiven?,
      List.filter_append]
    by_cases h : Text.lowercase a.name = name <;> simp [h]

/-- What an element is after its attributes were set one after another, whatever document it was
created in: each name stands where it was first given, with the value that was given last. -/
structure SetInOrder (tag : String) (given : List Attribute) (content : Content) : Prop where
  set (doc : Document) : ∃ named,
    (doc.createElement tag).1.setAttributes (doc.createElement tag).2 given = .ok named ∧
      named.content? (doc.createElement tag).2 = some content
  names : content.attributes.map Attribute.name =
    (given.map fun a => Text.lowercase a.name).eraseDups
  values (name : String) : attributeValue? name content.attributes = lastGiven? name given

private theorem setInOrder_settledElement (tag : String) (given : List Attribute) :
    SetInOrder tag given (settledElement (Text.lowercase tag) (settledAttributes given)) where
  set doc := by
    refine ⟨_, Document.setAttributes_create doc (Text.lowercase tag) [] given, ?_⟩
    exact (Document.content?_create ..).trans (if_pos rfl)
  names := map_name_settledAttributes given
  values name := attributeValue?_settledAttributes name given

/-! ## Elements that are read -/

namespace Markup

open Document

def Token.element? : Token → Option (String × List Attribute)
  | .opening tag given _ => some (tag, given)
  | _ => none

/-- The elements that a markup names, each with its attributes as they are given, in order; last the
one among whose attributes reading stops. -/
def writtenElements (markup : String) : List (String × List Attribute) :=
  (tokens (.start markup.toList)).1.filterMap Token.element? ++
    ((tokens (.start markup.toList)).2.bind Fault.element).toList

/-- The elements among contents are those that setting the written attributes leads to. -/
def SetAsWritten (written : List (String × List Attribute)) (contents : List Content) : Prop :=
  List.Forall₂ (fun element content => SetInOrder element.1 element.2 content) written
    (contents.filter fun content => content.kind = .element)

theorem SetAsWritten.append {written more : List (String × List Attribute)}
    {contents others : List Content} (h : SetAsWritten written contents)
    (hmore : SetAsWritten more others) : SetAsWritten (written ++ more) (contents ++ others) := by
  rw [SetAsWritten, List.filter_append]
  exact List.rel_append h hmore

private theorem setAsWritten_element (tag : String) (given : List Attribute) :
    SetAsWritten [(tag, given)]
      [settledElement (Text.lowercase tag) (settledAttributes given)] :=
  .cons (setInOrder_settledElement tag given) .nil

private theorem contents_attach (doc : Document) (parent child : NodeId) :
    (attach doc parent child).contents = doc.contents := by
  rw [attach]
  split
  · rename_i attached hattached
    apply List.ext_getElem?
    intro id
    rw [getElem?_contents, getElem?_contents, eq_of_appendChild hattached]
    simp
  · rfl

private theorem exists_contents_build_cons {t : Token} {content : Content} (ht : t.Proper)
    (hcontent : t.content? = some content) (parent : NodeId) (ts : List Token) (doc : Document)
    (opened : Opened) : ∃ created opened',
      build parent (t :: ts) doc opened = build parent ts created opened' ∧
        created.contents = doc.contents ++ [content] := by
  cases t with
  | text data | comment data =>
    obtain rfl := Option.some.inj hcontent
    exact ⟨_, _, rfl, (contents_attach ..).trans (contents_create doc _)⟩
  | closing => cases hcontent
  | opening tag given selfClosing =>
    obtain rfl := Option.some.inj hcontent
    rw [build, createTagged_eq, ht.1.2]
    exact ⟨_, _, rfl, (contents_attach ..).trans (contents_create doc _)⟩

private theorem exists_contents_build {ts : List Token} (hproper : ∀ t ∈ ts, t.Proper)
    (parent : NodeId) (doc : Document) (opened : Opened) : ∃ placed, placed <+: ts ∧
      (build parent ts doc opened).1.contents = doc.contents ++ placed.filterMap Token.content? ∧
        ∀ outer, (build parent ts doc opened).2 = .ok outer → placed = ts := by
  induction ts generalizing doc opened with
  | nil => exact ⟨[], List.prefix_rfl, (List.append_nil _).symm, fun _ _ => rfl⟩
  | cons t ts ih =>
    rw [List.forall_mem_cons] at hproper
    cases hcontent : t.content? with
    | some content =>
      obtain ⟨created, opened', hbuild, hcreated⟩ :=
        exists_contents_build_cons hproper.1 hcontent parent ts doc opened
      obtain ⟨placed, hpre, hcontents, hall⟩ := ih hproper.2 created opened'
      rw [hbuild]
      refine ⟨t :: placed, List.cons_prefix_cons.mpr ⟨rfl, hpre⟩, ?_,
        fun outer hok => by rw [hall outer hok]⟩
      rw [hcontents, hcreated, List.filterMap_cons, hcontent, List.append_assoc]
      rfl
    | none =>
      obtain ⟨tag, offset, rfl⟩ : ∃ tag offset, t = .closing tag offset := by
        cases t with
        | closing tag offset => exact ⟨tag, offset, rfl⟩
        | text | comment | opening => cases hcontent
      rw [build]
      cases close tag offset opened with
      | ok outer =>
        obtain ⟨placed, hpre, hcontents, hall⟩ := ih hproper.2 doc outer
        exact ⟨.closing tag offset :: placed, List.cons_prefix_cons.mpr ⟨rfl, hpre⟩, hcontents,
          fun last hok => by rw [hall last hok]⟩
      | error e => exact ⟨[], List.nil_prefix, (List.append_nil _).symm, fun _ hok => by cases hok⟩

private theorem setAsWritten_filterMap {ts : List Token} (hproper : ∀ t ∈ ts, t.Proper) :
    SetAsWritten (ts.filterMap Token.element?) (ts.filterMap Token.content?) := by
  induction ts with
  | nil => exact .nil
  | cons t ts ih =>
    rw [List.forall_mem_cons] at hproper
    have hrest := ih hproper.2
    cases t with
    | text | comment | closing => exact hrest
    | opening tag given selfClosing =>
      have helement := setAsWritten_element tag given
      rw [hproper.1.1.2] at helement
      exact helement.append hrest

end Markup

namespace Document

open Markup

variable {doc : Document}

private theorem exists_contents_finish (doc : Document) (fault : Option Fault) (opened : Opened) :
    ∃ added, (finish doc fault opened).1.contents = doc.contents ++ added ∧
      SetAsWritten (fault.bind Fault.element).toList added := by
  rcases fault with _ | stopped
  · rcases opened with _ | ⟨⟨element, tag⟩, outer⟩
    · exact ⟨[], (List.append_nil _).symm, .nil⟩
    · exact ⟨[], (List.append_nil _).symm, .nil⟩
  · simp only [finish, leaveElement, Option.bind_some]
    cases stopped.element with
    | none => exact ⟨[], (List.append_nil _).symm, .nil⟩
    | some element =>
      refine ⟨_, ?_, setAsWritten_element element.1 element.2⟩
      simp only [createTagged_eq]
      exact contents_create doc _

/-- Reading adds the elements that the markup names, in order: all of them, unless a closing tag
does not fit. -/
theorem exists_contents_parseInto (doc : Document) (parent : NodeId) (markup : String) :
    ∃ written added, written <+: writtenElements markup ∧
      ((doc.parseInto parent markup).2 = .ok () → written = writtenElements markup) ∧
        (doc.parseInto parent markup).1.contents = doc.contents ++ added ∧
          SetAsWritten written added := by
  have hproper := tokens_proper (.start markup.toList)
  rcases hread : tokens (.start markup.toList) with ⟨ts, fault⟩
  rw [hread] at hproper
  obtain ⟨placed, hpre, hcontents, hall⟩ := exists_contents_build hproper parent doc []
  have hplaced := setAsWritten_filterMap fun t ht => hproper t (hpre.subset ht)
  rw [Document.parseInto, writtenElements, hread]
  rcases hbuild : build parent ts doc [] with ⟨built, e | opened⟩
  · rw [hbuild] at hcontents
    refine ⟨_, _, (hpre.filterMap _).trans (List.prefix_append ..), fun hok => ?_, ?_, hplaced⟩
    · simp [hbuild] at hok
    · simpa only [hbuild] using hcontents
  · rw [hbuild] at hcontents hall
    obtain rfl := hall opened rfl
    obtain ⟨left, hleft, hset⟩ := exists_contents_finish built fault opened
    refine ⟨_, _, List.prefix_rfl, fun _ => rfl, ?_, hplaced.append hset⟩
    simp only [hbuild]
    rw [hleft, hcontents, List.append_assoc]

/-! ## Setting an attribute -/

/-- A document after an attribute of an element was set: the name, in small letters, has the value,
in its old place or behind the others, and of the rest only the value of an input-like element may
have changed. -/
structure AttributeSet (doc : Document) (id : NodeId) (name value : String) (after : Document) :
    Prop where
  reads (other : String) : after.attribute? id other =
    if other = Text.lowercase name then some value else doc.attribute? id other
  kept {other : String} : Text.lowercase other ≠ Text.lowercase name →
    after.attribute? id other = doc.attribute? id other
  names : (after.attributes id).map Attribute.name =
    if Text.lowercase name ∈ (doc.attributes id).map Attribute.name then
      (doc.attributes id).map Attribute.name
    else (doc.attributes id).map Attribute.name ++ [Text.lowercase name]
  once : ((after.attributes id).map Attribute.name).Nodup
  value : after.value? id =
    if Text.lowercase name = "value" then (doc.value? id).map fun _ => value else doc.value? id
  valued : doc.supportsValue id = true ↔ ∃ tag ∈ valueTags, doc.tag? id = some tag
  tag : after.tag? id = doc.tag? id
  parent : after.parent? id = doc.parent? id
  children : after.children id = doc.children id
  size : after.size = doc.size
  others {other : NodeId} : other ≠ id → after.node? other = doc.node? other

private theorem WellFormed.exists_attributeSet (hwf : doc.WellFormed) {id : NodeId}
    (hkind : doc.kind id = .element) (name value : String) :
    ∃ after, doc.setAttribute id name value = .ok after ∧
      doc.AttributeSet id name value after := by
  obtain ⟨tag, attributes, old, hcontent⟩ := (kind_eq_element_iff doc id).mp hkind
  have hafter : (doc.modifyContent id (contentWithAttribute (Text.lowercase name) value)).content?
      id = some (contentWithAttribute (Text.lowercase name) value
        (.element tag attributes old)) := by
    rw [content?_modifyContent, if_pos rfl, hcontent, Option.map_some]
  have hvalid := hwf.valid id _ hcontent
  have hreads : ∀ other, (doc.modifyContent id
      (contentWithAttribute (Text.lowercase name) value)).attribute? id other =
        if other = Text.lowercase name then some value else doc.attribute? id other := by
    intro other
    rw [attribute?, attribute?, attributes_eq, attributes_eq, hafter, hcontent]
    simp [contentWithAttribute, Content.attributes, attributeValue?_setAttributeValue, eq_comm]
  refine ⟨_, if_pos hkind, ?_⟩
  exact {
    reads := hreads
    kept := fun hne => by
      rw [hreads, if_neg fun he => hne (by rw [he, Text.lowercase_lowercase])]
    names := by
      rw [attributes_eq, attributes_eq, hafter, hcontent]
      exact map_name_setAttributeValue ..
    once := by
      rw [attributes_eq, hafter]
      exact (Content.valid_withAttribute hvalid name value).2.1
    value := by
      rw [value?_eq, value?_eq, hafter, hcontent]
      rfl
    valued := by
      rw [supportsValue, value?_eq, tag?_eq, hcontent]
      simp [Content.value?, Content.tag?, hvalid.1]
    tag := by
      rw [tag?_eq, tag?_eq, hafter, hcontent]
      rfl
    parent := parent?_modifyContent ..
    children := children_modifyContent ..
    size := size_modifyContent ..
    others := fun hne => by rw [Document.modifyContent, node?_modify, if_neg hne.symm] }

private theorem WellFormed.attribute?_eq_none (hwf : doc.WellFormed) (id : NodeId) {name : String}
    (h : Text.lowercase name ≠ name) : doc.attribute? id name = none := by
  refine Option.eq_none_iff_forall_ne_some.mpr fun value hvalue => h ?_
  exact (hwf.isForest.named id).2 _ (mem_attributes_of_attribute? hvalue)

/-- Attributes are a map that keeps the order in which names were first set. An element takes every
attribute, and one that was just set is read under its name in small letters, so under the name that
was given only when this has no capitals; reading a name with a capital never gives a value. What
is read from markup are the elements that it names, each with the attributes that setting the given
ones in order leads to. -/
theorem setAttribute_updates (hdoc : doc.Reachable) (id : NodeId) (name value : String) :
    (doc.kind id = .element → ∃ after, doc.setAttribute id name value = .ok after ∧
      doc.AttributeSet id name value after ∧
        (after.attribute? id name = some value ↔ Text.lowercase name = name) ∧
          ∀ other, Text.lowercase other ≠ other → after.attribute? id other = none) ∧
      (doc.kind id ≠ .element → doc.setAttribute id name value = .error (.unknownNode id)) ∧
        ∀ parent markup, ∃ written added, written <+: writtenElements markup ∧
          ((doc.parseInto parent markup).2 = .ok () → written = writtenElements markup) ∧
            (doc.parseInto parent markup).1.contents = doc.contents ++ added ∧
              SetAsWritten written added := by
  refine ⟨fun hkind => ?_, fun hkind => if_neg hkind, exists_contents_parseInto doc⟩
  obtain ⟨after, hset, hupdate⟩ := hdoc.wellFormed.exists_attributeSet hkind name value
  have hunread : ∀ other, Text.lowercase other ≠ other → after.attribute? id other = none :=
    fun _ => (hdoc.setAttribute id name value hset).wellFormed.attribute?_eq_none id
  refine ⟨after, hset, hupdate, ⟨fun hread => ?_, fun hlower => ?_⟩, hunread⟩
  · by_contra hcapital
    rw [hunread name hcapital] at hread
    cases hread
  · rw [hupdate.reads, if_pos hlower.symm]

/-- A paragraph with an attribute. -/
def titledParagraph : Document := (empty.appendElement root "p" [⟨"Title", "a"⟩]).1

private theorem titledParagraph_reachable : titledParagraph.Reachable :=
  Reachable.empty.appendElement root "p" _

/-- An attribute that is set under a name with capitals is not read under it. -/
theorem capitalName_not_read : titledParagraph.Reachable ∧ titledParagraph.kind 1 = .element ∧
    ∃ after, titledParagraph.setAttribute 1 "ID" "x" = .ok after ∧
      after.attribute? 1 "ID" = none :=
  ⟨titledParagraph_reachable, by decide +kernel, _, if_pos (by decide +kernel), by decide +kernel⟩

/-- It is read under the name in small letters, behind the attribute that was there. -/
theorem capitalName_updates : titledParagraph.kind 1 = .element ∧
    ∃ after, titledParagraph.setAttribute 1 "ID" "x" = .ok after ∧
      titledParagraph.AttributeSet 1 "ID" "x" after ∧ after.attribute? 1 "ID" ≠ some "x" ∧
        (after.attributes 1).map Attribute.name = ["title", "id"] := by
  have hkind : titledParagraph.kind 1 = .element := by decide +kernel
  obtain ⟨after, hset, hupdate, hread, -⟩ :=
    (setAttribute_updates titledParagraph_reachable 1 "ID" "x").1 hkind
  refine ⟨hkind, after, hset, hupdate, fun h => absurd (hread.mp h) (by decide +kernel), ?_⟩
  rw [hupdate.names]
  decide +kernel

end Document
end ViewBinding
