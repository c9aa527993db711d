import Mathlib
import ViewBinding.Proofs.Markup.Spelling

/-!
# Building a forest

`plant` makes the nodes of a forest under a node, in document order. Building from tokens that spell
a forest plants it (`Spells.build`). What was planted is the forest (`exists_depicts_plant`), and
elements that were planted carry the value that their attributes give (`ValuesSettled.plant`).
-/

namespace ViewBinding

/-- The value that an element begins with. -/
def settledValue (tag : String) (attributes : List Attribute) : Option String :=
  if Document.valueTags.contains tag then some ((attributeValue? "value" attributes).getD "")
  else none

/-- An element as it is made from a tag. -/
abbrev settledElement (tag : String) (attributes : List Attribute) : Content :=
  .element tag attributes (settledValue tag attributes)

theorem attributeValue?_cons (other : String) (a : Attribute) (rest : List Attribute) :
    attributeValue? other (a :: rest) =
      if a.name = other then some a.value else attributeValue? other rest := by
  by_cases h : a.name = other <;> simp [attributeValue?, h]

theorem attributeValue?_setAttributeValue (other name value : String) (attributes : List Attribute) :
    attributeValue? other (setAttributeValue name value attributes) =
      if name = other then some value else attributeValue? other attributes := by
  induction attributes with
  | nil => rw [setAttributeValue, attributeValue?_cons]
  | cons a rest ih =>
    rw [setAttributeValue]
    split
    · rename_i ha
      subst ha
      rw [attributeValue?_cons, attributeValue?_cons]
      split <;> rfl
    · rename_i ha
      rw [attributeValue?_cons, attributeValue?_cons, ih]
      split
      · rename_i h
        rw [if_neg fun he => ha (h.trans he.symm)]
      · rfl

namespace Document

variable {doc : Document}

/-! ## Planting -/

/-- Creates a node behind the children of another. -/
def put (doc : Document) (parent : NodeId) (content : Content) : Document :=
  (doc.create content).1.attachLast parent doc.size

/-- Makes the nodes of a forest behind the children of a node. -/
def plant (doc : Document) (parent : NodeId) : Forest → Document
  | .nil => doc
  | .text data rest => (doc.put parent (.text data)).plant parent rest
  | .comment data rest => (doc.put parent (.comment data)).plant parent rest
  | .element tag attributes inside rest =>
    ((doc.put parent (settledElement tag attributes)).plant doc.size inside).plant parent rest

@[simp] theorem size_put (doc : Document) (parent : NodeId) (content : Content) :
    (doc.put parent content).size = doc.size + 1 := by
  simp [put]

theorem content?_put (doc : Document) (parent : NodeId) (content : Content) (id : NodeId) :
    (doc.put parent content).content? id =
      if id = doc.size then some content else doc.content? id := by
  simp [put]

private theorem children_put {parent : NodeId} (h : parent < doc.size) (content : Content)
    (id : NodeId) : (doc.put parent content).children id =
      if id = parent then doc.children id ++ [doc.size] else doc.children id := by
  simp [put, children_attachLast, Nat.lt_succ_of_lt h]

private theorem lt_size_put {id : NodeId} (h : id < doc.size) (parent : NodeId)
    (content : Content) : id < (doc.put parent content).size := by
  rw [size_put]
  exact Nat.lt_succ_of_lt h

private theorem size_lt_size_put (doc : Document) (parent : NodeId) (content : Content) :
    doc.size < (doc.put parent content).size := by
  simp

private theorem size_le_plant (doc : Document) (parent : NodeId) (forest : Forest) :
    doc.size ≤ (doc.plant parent forest).size := by
  induction forest generalizing doc parent with
  | nil => exact Nat.le_refl _
  | text data rest ih | comment data rest ih => exact (size_lt_size_put doc _ _).le.trans (ih _ _)
  | element tag attributes inside rest ihinside ih =>
    exact (size_lt_size_put doc _ _).le.trans ((ihinside _ _).trans (ih _ _))

private theorem content?_plant {id : NodeId} (hid : id < doc.size) (parent : NodeId)
    (forest : Forest) : (doc.plant parent forest).content? id = doc.content? id := by
  induction forest generalizing doc parent with
  | nil => rfl
  | text data rest ih | comment data rest ih =>
    rw [plant, ih (lt_size_put hid _ _), content?_put, if_neg (Nat.ne_of_lt hid)]
  | element tag attributes inside rest ihinside ih =>
    have hput := lt_size_put hid parent (settledElement tag attributes)
    rw [plant, ih (hput.trans_le (size_le_plant _ _ _)), ihinside hput, content?_put,
      if_neg (Nat.ne_of_lt hid)]

private theorem children_plant {id parent : NodeId} (hid : id < doc.size)
    (hparent : parent < doc.size) (hne : id ≠ parent) (forest : Forest) :
    (doc.plant parent forest).children id = doc.children id := by
  induction forest generalizing doc parent with
  | nil => rfl
  | text data rest ih | comment data rest ih =>
    rw [plant, ih (lt_size_put hid _ _) (lt_size_put hparent _ _) hne, children_put hparent,
      if_neg hne]
  | element tag attributes inside rest ihinside ih =>
    have hle := size_le_plant (doc.put parent (settledElement tag attributes)) doc.size inside
    rw [plant, ih ((lt_size_put hid _ _).trans_le hle) ((lt_size_put hparent _ _).trans_le hle) hne,
      ihinside (lt_size_put hid _ _) (size_lt_size_put doc _ _) (Nat.ne_of_lt hid),
      children_put hparent, if_neg hne]

/-- The document holds at these nodes what another one does. -/
def AgreesOn (doc other : Document) (low high : NodeId) : Prop :=
  ∀ id, low ≤ id → id < high →
    other.content? id = doc.content? id ∧ other.children id = doc.children id

theorem AgreesOn.refl (doc : Document) (low high : NodeId) : doc.AgreesOn doc low high :=
  fun _ _ _ => ⟨rfl, rfl⟩

theorem AgreesOn.trans {middle later : Document} {low high low' high' : NodeId}
    (h : doc.AgreesOn middle low' high') (hlater : middle.AgreesOn later low high)
    (hlow : low ≤ low') (hhigh : high' ≤ high) : doc.AgreesOn later low' high' := by
  intro id hid hlt
  obtain ⟨hcontent, hchildren⟩ := hlater id (hlow.trans hid) (hlt.trans_le hhigh)
  obtain ⟨hcontent', hchildren'⟩ := h id hid hlt
  exact ⟨hcontent.trans hcontent', hchildren.trans hchildren'⟩

private theorem agreesOn_plant {parent low : NodeId} (hparent : parent < low)
    (hlow : low ≤ doc.size) (forest : Forest) :
    doc.AgreesOn (doc.plant parent forest) low doc.size := fun _ hid hlt =>
  ⟨content?_plant hlt parent forest,
    children_plant hlt (hparent.trans_le hlow) (Nat.ne_of_gt (hparent.trans_le hid)) forest⟩

private theorem depicts_put {parent : NodeId} {content : Content} {rest : Forest} {ids : List NodeId}
    (hparent : parent < doc.size)
    (hchildren : ((doc.put parent content).plant parent rest).children parent =
      (doc.put parent content).children parent ++ ids)
    (hdepicts : ∀ later, ((doc.put parent content).plant parent rest).AgreesOn later
      (doc.put parent content).size ((doc.put parent content).plant parent rest).size →
        later.Depicts ids rest) :
    ((doc.put parent content).plant parent rest).children parent =
        doc.children parent ++ doc.size :: ids ∧
      ∀ later, ((doc.put parent content).plant parent rest).AgreesOn later doc.size
        ((doc.put parent content).plant parent rest).size →
          later.content? doc.size = some content ∧ later.Depicts ids rest := by
  have hnew := size_lt_size_put doc parent content
  refine ⟨?_, fun later hlater => ⟨?_, ?_⟩⟩
  · rw [hchildren, children_put hparent, if_pos rfl, List.append_assoc]
    rfl
  · rw [(hlater doc.size le_rfl (hnew.trans_le (size_le_plant _ _ _))).1, content?_plant hnew,
      content?_put, if_pos rfl]
  · exact hdepicts later ((AgreesOn.refl _ _ _).trans hlater hnew.le le_rfl)

/-- What was planted is the forest, also after changes to other nodes. -/
theorem exists_depicts_plant {parent : NodeId} (hparent : parent < doc.size) (forest : Forest) :
    ∃ ids, (doc.plant parent forest).children parent = doc.children parent ++ ids ∧
      ∀ later, (doc.plant parent forest).AgreesOn later doc.size (doc.plant parent forest).size →
        later.Depicts ids forest := by
  induction forest generalizing doc parent with
  | nil => exact ⟨[], (List.append_nil _).symm, fun _ _ => .nil⟩
  | text data rest ih =>
    obtain ⟨ids, hchildren, hdepicts⟩ := ih (lt_size_put hparent parent (.text data))
    obtain ⟨hall, hlater⟩ := depicts_put hparent hchildren hdepicts
    exact ⟨doc.size :: ids, hall, fun later h => .text (hlater later h).1 (hlater later h).2⟩
  | comment data rest ih =>
    obtain ⟨ids, hchildren, hdepicts⟩ := ih (lt_size_put hparent parent (.comment data))
    obtain ⟨hall, hlater⟩ := depicts_put hparent hchildren hdepicts
    exact ⟨doc.size :: ids, hall, fun later h => .comment (hlater later h).1 (hlater later h).2⟩
  | element tag attributes inside rest ihinside ih =>
    have hnew := size_lt_size_put doc parent (settledElement tag attributes)
    have hle := size_le_plant (doc.put parent (settledElement tag attributes)) doc.size inside
    have hbefore := (lt_size_put hparent parent (settledElement tag attributes)).trans_le hle
    obtain ⟨us, hinside, hdepictsInside⟩ := ihinside hnew
    obtain ⟨ids, hrest, hdepictsRest⟩ := ih hbefore
    have hleaf : (doc.put parent (settledElement tag attributes)).children doc.size = [] := by
      rw [children_put hparent, if_neg (Nat.ne_of_gt hparent), children_size]
    rw [hleaf, List.nil_append] at hinside
    refine ⟨doc.size :: ids, ?_, fun later hlater => ?_⟩
    · rw [plant, hrest, children_plant (lt_size_put hparent _ _) hnew (Nat.ne_of_lt hparent),
        children_put hparent, if_pos rfl, List.append_assoc]
      rfl
    · -- The nodes of the element, and then those behind it, are left as they were.
      have helement := agreesOn_plant hparent (hnew.le.trans hle) rest
      have hkept := helement.trans hlater le_rfl (size_le_plant _ _ _)
      obtain ⟨hcontent, hchildren⟩ := hkept doc.size le_rfl (hnew.trans_le hle)
      rw [content?_plant hnew, content?_put, if_pos rfl] at hcontent
      rw [hinside] at hchildren
      refine .element hcontent ?_ ?_
      · rw [hchildren]
        exact hdepictsInside later ((AgreesOn.refl _ _ _).trans hkept hnew.le le_rfl)
      · exact hdepictsRest later ((AgreesOn.refl _ _ _).trans hlater (hnew.le.trans hle) le_rfl)

/-! ## Values -/

/-- Every element has the value that its attributes give. -/
def ValuesSettled (doc : Document) : Prop :=
  ∀ id tag attributes value, doc.content? id = some (.element tag attributes value) →
    value = settledValue tag attributes

theorem ValuesSettled.empty : Document.empty.ValuesSettled := by
  intro id tag attributes value h
  rcases id with _ | id <;> simp [content?, node?, Document.empty] at h

private theorem ValuesSettled.put (h : doc.ValuesSettled) (parent : NodeId) {content : Content}
    (hcontent : ∀ tag attributes value, content = .element tag attributes value →
      value = settledValue tag attributes) : (doc.put parent content).ValuesSettled := by
  intro id tag attributes value hid
  rw [content?_put] at hid
  split at hid
  · exact hcontent tag attributes value (Option.some.inj hid)
  · exact h id tag attributes value hid

theorem ValuesSettled.plant (h : doc.ValuesSettled) (parent : NodeId) (forest : Forest) :
    (doc.plant parent forest).ValuesSettled := by
  induction forest generalizing doc parent with
  | nil => exact h
  | text data rest ih => exact ih (h.put parent (by simp)) parent
  | comment data rest ih => exact ih (h.put parent (by simp)) parent
  | element tag attributes inside rest ihinside ih =>
    exact ih (ihinside (h.put parent (by rintro _ _ _ ⟨⟩; rfl)) doc.size) parent

/-! ## Building -/

private theorem WellFormed.meetsAbove_create (hwf : doc.WellFormed) (content : Content)
    {id : NodeId} (hid : id < doc.size) (steps : Nat) :
    (doc.create content).1.meetsAbove doc.size steps id = false := by
  induction steps generalizing id with
  | zero => rfl
  | succ steps ih =>
    rw [meetsAbove, beq_false_of_ne (Nat.ne_of_lt hid), Bool.false_or, parent?_create]
    cases hp : doc.parent? id with
    | none => rfl
    | some parent => exact ih (hwf.lt_size_of_parent?_eq hp)

theorem lt_size_of_isContainer {id : NodeId} (h : doc.isContainer id = true) : id < doc.size := by
  rw [isContainer_eq] at h
  cases hc : doc.content? id with
  | none => simp [hc] at h
  | some content => exact lt_size_of_content? hc

theorem isContainer_create {id : NodeId} (hid : id < doc.size) (content : Content) :
    (doc.create content).1.isContainer id = doc.isContainer id := by
  rw [isContainer_congr (b := doc)]
  rw [content?_create, if_neg (Nat.ne_of_lt hid)]

/-- A node that can hold children takes every new node. -/
theorem WellFormed.attach_create (hwf : doc.WellFormed) {parent : NodeId}
    (hparent : doc.isContainer parent = true) (content : Content) :
    Markup.attach (doc.create content).1 parent doc.size = doc.put parent content := by
  have hlt := lt_size_of_isContainer hparent
  have hfree : (doc.create content).1.parent? doc.size = none := by
    rw [parent?_create, parent?_size]
  have hdetach : (doc.create content).1.detach doc.size = (doc.create content).1 := by
    rw [Document.detach, hfree]
  have hroot : (doc.size == root) = false := beq_false_of_ne (Nat.ne_of_gt hwf.root_lt_size)
  have hcontains : (doc.create content).1.contains parent = true ∧
      (doc.create content).1.contains doc.size = true := by
    rw [contains_iff, contains_iff, size_create]
    exact ⟨Nat.lt_succ_of_lt hlt, Nat.lt_succ_self _⟩
  rw [Markup.attach, Document.appendChild, isAncestorOrSelf, hcontains.1, hcontains.2,
    isContainer_create hlt, hparent, hroot, hwf.meetsAbove_create content hlt, hdetach]
  rfl

theorem WellFormed.put (hwf : doc.WellFormed) {parent : NodeId}
    (hparent : doc.isContainer parent = true) {content : Content} (hvalid : content.Valid)
    (hcontent : content ≠ .document) : (doc.put parent content).WellFormed := by
  rw [← hwf.attach_create hparent]
  exact (hwf.create hvalid hcontent).attach _ _

theorem isContainer_put {id : NodeId} (h : doc.isContainer id = true) (parent : NodeId)
    (content : Content) : (doc.put parent content).isContainer id = true := by
  rw [isContainer_congr (b := doc), h]
  rw [content?_put, if_neg (Nat.ne_of_lt (lt_size_of_isContainer h))]

private theorem isContainer_plant {id : NodeId} (h : doc.isContainer id = true) (parent : NodeId)
    (forest : Forest) : (doc.plant parent forest).isContainer id = true := by
  rw [isContainer_congr (content?_plant (lt_size_of_isContainer h) parent forest), h]

private theorem modifyContent_create (doc : Document) (content : Content) (f : Content → Content) :
    (doc.create content).1.modifyContent doc.size f = (doc.create (f content)).1 := by
  have hnodes : (doc.nodes.push { content }).modify doc.nodes.size
      (fun node => { node with content := f node.content }) =
        doc.nodes.push { content := f content } := by
    apply Array.ext_getElem?
    intro id
    rw [Array.getElem?_modify, Array.getElem?_push, Array.getElem?_push]
    by_cases h : id = doc.nodes.size
    · simp [h]
    · simp [h, Ne.symm h]
  rw [modifyContent, modify, create, size, hnodes, create]

private theorem contentWithAttribute_settledElement (name value tag : String)
    (attributes : List Attribute) : contentWithAttribute name value (settledElement tag attributes) =
      settledElement tag (setAttributeValue name value attributes) := by
  rw [contentWithAttribute, settledElement, settledValue, settledValue,
    attributeValue?_setAttributeValue]
  split <;> split <;> rfl

theorem setAttributes_create (doc : Document) (tag : String) (before attributes : List Attribute) :
    (doc.create (settledElement tag before)).1.setAttributes doc.size attributes =
      .ok (doc.create (settledElement tag (attributes.foldl
        (fun settled a => setAttributeValue (Text.lowercase a.name) a.value settled) before))).1 := by
  induction attributes generalizing before with
  | nil => rfl
  | cons a rest ih =>
    have hkind : (doc.create (settledElement tag before)).1.kind doc.size = .element := by
      rw [kind_eq, content?_create, if_pos rfl]
      rfl
    have hset : (doc.create (settledElement tag before)).1.setAttribute doc.size a.name a.value =
        .ok (doc.create (settledElement tag
          (setAttributeValue (Text.lowercase a.name) a.value before))).1 := by
      rw [Document.setAttribute, if_pos hkind, modifyContent_create,
        contentWithAttribute_settledElement]
    rw [Document.setAttributes, List.foldlM_cons, hset]
    exact ih _

/-- An element that is made from a tag has the settled attributes and the value they give. -/
theorem createTagged_eq (doc : Document) (tag : String) (attributes : List Attribute) :
    Markup.createTagged doc tag attributes =
      doc.create (settledElement (Text.lowercase tag) (settledAttributes attributes)) := by
  have hcreate : doc.createElement tag = doc.create (settledElement (Text.lowercase tag) []) := rfl
  rw [Markup.createTagged, hcreate]
  simp only [create_snd, setAttributes_create]
  rfl

private theorem settledElement_valid {tag : String} {attributes : List Attribute}
    (hnodup : (attributes.map Attribute.name).Nodup)
    (hlower : ∀ a ∈ attributes, Text.lowercase a.name = a.name) (htag : Text.lowercase tag = tag) :
    (settledElement tag attributes).Valid := by
  refine ⟨?_, hnodup, hlower, htag⟩
  rw [settledValue]
  split
  · rename_i h
    rw [h]
    rfl
  · rename_i h
    rw [eq_false_of_ne_true h]
    rfl

end Document

namespace Markup

theorem build_opening {tag : String} {attributes : List Attribute} {selfClosing : Bool}
    (hproper : (Token.opening tag attributes selfClosing).Proper) {doc : Document}
    (hwf : doc.WellFormed) {parent : NodeId} {opened : Opened}
    (hparent : doc.isContainer (place parent opened) = true) (more : List Token) :
    build parent (.opening tag attributes selfClosing :: more) doc opened =
        build parent more
          (doc.put (place parent opened) (settledElement tag (settledAttributes attributes)))
          (if selfClosing || isVoid tag then opened else (doc.size, tag) :: opened) ∧
      (doc.put (place parent opened)
        (settledElement tag (settledAttributes attributes))).WellFormed := by
  obtain ⟨⟨-, hlower⟩, hnames⟩ := hproper
  obtain ⟨hsettled, hnodup⟩ := settledAttributes_writable hnames
  have hvalid := Document.settledElement_valid hnodup (fun a ha => (hsettled a ha).2) hlower
  refine ⟨?_, hwf.put hparent hvalid (by simp)⟩
  rw [Markup.build, Document.createTagged_eq, hlower]
  simp only [Document.create_snd, hwf.attach_create hparent]

/-- Building from tokens that spell a forest plants it. -/
theorem Spells.build {forest : Forest} {ts : List Token} (h : Spells forest ts)
    (hproper : ∀ t ∈ ts, t.Proper) {doc : Document} (hwf : doc.WellFormed) {parent : NodeId}
    {opened : Opened} (hparent : doc.isContainer (place parent opened) = true) (more : List Token) :
    build parent (ts ++ more) doc opened =
      build parent more (doc.plant (place parent opened) forest) opened := by
  induction h generalizing doc opened more with
  | nil => rfl
  | @text data _ _ _ ih =>
    have hput := hwf.put hparent (show (Content.text data).Valid from trivial) (by simp)
    rw [List.forall_mem_cons] at hproper
    rw [List.cons_append, Markup.build, Document.createText]
    simp only [Document.create_snd, hwf.attach_create hparent]
    exact ih hproper.2 hput (Document.isContainer_put hparent _ _) more
  | @comment data _ _ _ ih =>
    have hput := hwf.put hparent (show (Content.comment data).Valid from trivial) (by simp)
    rw [List.forall_mem_cons] at hproper
    rw [List.cons_append, Markup.build, Document.createComment]
    simp only [Document.create_snd, hwf.attach_create hparent]
    exact ih hproper.2 hput (Document.isContainer_put hparent _ _) more
  | alone halone _ ih =>
    rw [List.forall_mem_cons] at hproper
    obtain ⟨hbuild, hput⟩ := build_opening hproper.1 hwf hparent (_ ++ more)
    rw [List.cons_append, hbuild, if_pos halone]
    exact ih hproper.2 hput (Document.isContainer_put hparent _ _) more
  | @paired tag attributes offset inside us rest ts hvoid _ _ ihinside ih =>
    rw [List.forall_mem_cons, List.forall_mem_append, List.forall_mem_cons] at hproper
    obtain ⟨hopening, hus, -, hts⟩ := hproper
    obtain ⟨hbuild, hput⟩ := build_opening hopening hwf hparent
      (us ++ .closing tag offset :: (ts ++ more))
    have hsize : (doc.put (place parent opened) (settledElement tag
        (settledAttributes attributes))).isContainer doc.size = true := by
      rw [Document.isContainer_eq, Document.content?_put, if_pos rfl]
      rfl
    have hinside : ∀ more, Markup.build parent (us ++ more) _ ((doc.size, tag) :: opened) =
        Markup.build parent more _ ((doc.size, tag) :: opened) := ihinside hus hput hsize
    -- What is planted inside is a forest, since building leads to one.
    have hplanted := hput.build parent us ((doc.size, tag) :: opened)
    have hends := hinside []
    rw [List.append_nil, Markup.build] at hends
    rw [hends] at hplanted
    have hclose : close tag offset ((doc.size, tag) :: opened) = .ok opened := if_pos rfl
    rw [List.cons_append, List.append_assoc, List.cons_append, hbuild, hvoid]
    simp only [Bool.or_false, Bool.false_eq_true, if_false]
    rw [hinside, Markup.build, hclose]
    exact ih hts hplanted (Document.isContainer_plant (Document.isContainer_put hparent _ _) _ _) more

end Markup
end ViewBinding
