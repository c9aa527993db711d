import Mathlib
import ViewBinding.Markup.Build
import ViewBinding.Proofs.Document.Access
import ViewBinding.Proofs.Text.Words

/-!
# Documents are forests

The links of a document agree with each other, and following parents from any node ends. This is
kept by every operation (`Reachable.wellFormed`), whether it succeeds or is refused.
-/

namespace ViewBinding

/-- A content as elements are made: input-like ones and no others carry a value, and attributes have
different names; these and the tag are in small letters. -/
def Content.Valid : Content → Prop
  | .element tag attributes value =>
    (value.isSome = Document.valueTags.contains tag) ∧ (attributes.map Attribute.name).Nodup ∧
      (∀ a ∈ attributes, Text.lowercase a.name = a.name) ∧ Text.lowercase tag = tag
  | _ => True

namespace Document

/-- A node is another one or stands under it. -/
def Under (doc : Document) (id top : NodeId) : Prop :=
  Relation.ReflTransGen (fun c p => doc.parent? c = some p) id top

/-- The nodes form trees, one of them under the document node. -/
structure WellFormed (doc : Document) : Prop where
  rootContent : doc.content? root = some .document
  rootOnly : ∀ id, doc.content? id = some .document → id = root
  rootParent : doc.parent? root = none
  linked : ∀ p c, c ∈ doc.children p ↔ doc.parent? c = some p
  nodup : ∀ p, (doc.children p).Nodup
  container : ∀ p c, c ∈ doc.children p → doc.isContainer p = true
  acyclic : WellFounded fun p c => doc.parent? c = some p
  valid : ∀ id content, doc.content? id = some content → content.Valid

/-- The documents that operations lead to. -/
inductive Reachable : Document → Prop
  | empty : Reachable .empty
  | createElement {doc} (tag : String) : Reachable doc → Reachable (doc.createElement tag).1
  | createText {doc} (data : String) : Reachable doc → Reachable (doc.createText data).1
  | createComment {doc} (data : String) : Reachable doc → Reachable (doc.createComment data).1
  | appendChild {doc after} (parent child : NodeId) :
      Reachable doc → doc.appendChild parent child = .ok after → Reachable after
  | appendElement {doc} (parent : NodeId) (tag : String) (attributes : List Attribute) :
      Reachable doc → Reachable (doc.appendElement parent tag attributes).1
  | appendText {doc} (parent : NodeId) (data : String) :
      Reachable doc → Reachable (doc.appendText parent data).1
  | setAttribute {doc after} (id : NodeId) (name value : String) :
      Reachable doc → doc.setAttribute id name value = .ok after → Reachable after
  | parseInto {doc} (parent : NodeId) (markup : String) :
      Reachable doc → Reachable (doc.parseInto parent markup).1
  | setTextContent {doc} (id : NodeId) (text : String) :
      Reachable doc → Reachable (doc.setTextContent id text)
  | setValue {doc} (id : NodeId) (value : String) :
      Reachable doc → Reachable (doc.setValue id value)

/-! ## Ancestors -/

theorem WellFormed.lt_size_of_parent?_eq {doc : Document} (h : doc.WellFormed) {c p : NodeId}
    (hp : doc.parent? c = some p) : p < doc.size :=
  lt_size_of_mem_children ((h.linked p c).mpr hp)

theorem WellFormed.not_under_of_parent? {doc : Document} (h : doc.WellFormed) {c p : NodeId}
    (hp : doc.parent? c = some p) : ¬ doc.Under p c := by
  intro hunder
  have hcycle : Relation.TransGen (fun c p => doc.parent? c = some p) c c :=
    Relation.TransGen.head' hp hunder
  have hswap := Relation.transGen_swap.mpr hcycle
  exact h.acyclic.transGen.irrefl.irrefl c hswap

theorem Under.total {doc : Document} {id a b : NodeId} (ha : doc.Under id a) (hb : doc.Under id b) :
    doc.Under a b ∨ doc.Under b a := by
  apply Relation.ReflTransGen.total_of_right_unique _ ha hb
  intro c p q hp hq
  exact Option.some.inj (hp.symm.trans hq)

theorem Under.lt_size {doc : Document} {id top : NodeId} (h : doc.Under id top)
    (htop : top < doc.size) : id < doc.size := by
  rcases Relation.ReflTransGen.cases_head h with rfl | ⟨_, hparent, -⟩
  · exact htop
  · exact lt_size_of_parent? hparent

/-- What is met on the way up from a node: the node itself, its parent, and so on. -/
inductive Lineage (doc : Document) : NodeId → List NodeId → Prop
  | top {id} : doc.parent? id = none → Lineage doc id [id]
  | up {id parent above} :
      doc.parent? id = some parent → Lineage doc parent above → Lineage doc id (id :: above)

theorem WellFormed.exists_lineage {doc : Document} (h : doc.WellFormed) (id : NodeId) :
    ∃ above, doc.Lineage id above := by
  induction id using h.acyclic.induction with
  | _ id ih =>
    cases hp : doc.parent? id with
    | none => exact ⟨[id], .top hp⟩
    | some parent =>
      obtain ⟨above, habove⟩ := ih parent hp
      exact ⟨id :: above, .up hp habove⟩

theorem Lineage.mem_iff {doc : Document} {id : NodeId} {above : List NodeId}
    (h : doc.Lineage id above) (a : NodeId) : a ∈ above ↔ doc.Under id a := by
  induction h with
  | top hp =>
    rw [Under, Relation.ReflTransGen.cases_head_iff]
    simp [hp, eq_comm]
  | up hp _ ih =>
    rw [Under, Relation.ReflTransGen.cases_head_iff, List.mem_cons, ih, eq_comm]
    simp [hp, Under]

theorem Lineage.nodup {doc : Document} (hwf : doc.WellFormed) {id : NodeId} {above : List NodeId}
    (h : doc.Lineage id above) : above.Nodup := by
  induction h with
  | top => simp
  | up hp hrest ih =>
    refine List.nodup_cons.mpr ⟨?_, ih⟩
    rw [hrest.mem_iff]
    exact hwf.not_under_of_parent? hp

theorem Lineage.lt_size {doc : Document} (hwf : doc.WellFormed) {id : NodeId}
    {above : List NodeId} (h : doc.Lineage id above) (hid : id < doc.size) :
    ∀ a ∈ above, a < doc.size := by
  induction h with
  | top => simpa using hid
  | up hp _ ih =>
    intro a ha
    rcases List.mem_cons.mp ha with rfl | ha
    · exact hid
    · exact ih (hwf.lt_size_of_parent?_eq hp) a ha

private theorem Lineage.meetsAbove {doc : Document} {id : NodeId} {above : List NodeId}
    (h : doc.Lineage id above) {a : NodeId} (ha : a ∈ above) {steps : Nat}
    (hsteps : above.length ≤ steps) : doc.meetsAbove a steps id = true := by
  induction h generalizing steps with
  | top =>
    cases steps with
    | zero => simp at hsteps
    | succ steps => simp [Document.meetsAbove, List.mem_singleton.mp ha]
  | up hp _ ih =>
    cases steps with
    | zero => simp at hsteps
    | succ steps =>
      simp only [Document.meetsAbove, hp, Bool.or_eq_true, beq_iff_eq]
      rcases List.mem_cons.mp ha with rfl | ha
      · exact Or.inl rfl
      · exact Or.inr (ih ha (by simpa using hsteps))

theorem length_le_size_of_nodup {doc : Document} {ids : List NodeId} (hnodup : ids.Nodup)
    (hlt : ∀ id ∈ ids, id < doc.size) : ids.length ≤ doc.size := by
  have hsub : ids ⊆ List.range doc.size := fun id hid => List.mem_range.mpr (hlt id hid)
  simpa using (List.subperm_of_subset hnodup hsub).length_le

/-- A refused ancestor test is right: the way up is never longer than the document. -/
theorem WellFormed.not_under_of_isAncestorOrSelf {doc : Document} (hwf : doc.WellFormed)
    {candidate id : NodeId} (hid : id < doc.size) (h : doc.isAncestorOrSelf candidate id = false) :
    ¬ doc.Under id candidate := by
  intro hunder
  obtain ⟨above, habove⟩ := hwf.exists_lineage id
  have hlen := length_le_size_of_nodup (habove.nodup hwf) (habove.lt_size hwf hid)
  have hmeets := habove.meetsAbove ((habove.mem_iff candidate).mpr hunder) hlen
  rw [isAncestorOrSelf, hmeets] at h
  exact Bool.noConfusion h

/-! ## Contents -/

theorem map_name_setAttributeValue (name value : String) (attributes : List Attribute) :
    (setAttributeValue name value attributes).map Attribute.name =
      if name ∈ attributes.map Attribute.name then attributes.map Attribute.name
      else attributes.map Attribute.name ++ [name] := by
  induction attributes with
  | nil => simp [setAttributeValue]
  | cons a rest ih =>
    by_cases h : a.name = name
    · simp [setAttributeValue, h]
    · simp only [setAttributeValue, if_neg h, List.map_cons, ih, List.mem_cons, Ne.symm h, false_or]
      split <;> simp

theorem nodup_setAttributeValue {name : String} {attributes : List Attribute}
    (h : (attributes.map Attribute.name).Nodup) (value : String) :
    ((setAttributeValue name value attributes).map Attribute.name).Nodup := by
  rw [map_name_setAttributeValue]
  split
  · exact h
  · rename_i hnew
    simpa using h.concat hnew

theorem mem_setAttributeValue {name value : String} {attributes : List Attribute} {a : Attribute}
    (h : a ∈ setAttributeValue name value attributes) : a ∈ attributes ∨ a = ⟨name, value⟩ := by
  induction attributes with
  | nil => exact Or.inr (List.mem_singleton.mp h)
  | cons b rest ih =>
    rw [setAttributeValue] at h
    split at h
    · rcases List.mem_cons.mp h with h | h
      · exact Or.inr h
      · exact Or.inl (List.mem_cons_of_mem _ h)
    · rcases List.mem_cons.mp h with rfl | h
      · exact Or.inl List.mem_cons_self
      · exact (ih h).imp_left (List.mem_cons_of_mem _)

theorem Content.eq_document_iff (content : Content) :
    content = .document ↔ content.kind = .document := by
  cases content <;> simp [Content.kind]

theorem Content.valid_withAttribute {content : Content} (h : content.Valid) (name value : String) :
    (contentWithAttribute (Text.lowercase name) value content).Valid := by
  cases content with
  | element tag attributes old =>
    obtain ⟨hvalue, hnodup, hlower, htag⟩ := h
    refine ⟨?_, nodup_setAttributeValue hnodup value, ?_, htag⟩
    · split
      · simpa using hvalue
      · exact hvalue
    · intro a ha
      rcases mem_setAttributeValue ha with hold | rfl
      · exact hlower a hold
      · exact Text.lowercase_lowercase name
  | document | text | comment => trivial

/-! ## Each operation keeps a forest -/

theorem WellFormed.empty : Document.empty.WellFormed := by
  have hchildren : ∀ id, Document.empty.children id = [] := by
    intro id
    rw [children_eq]
    rcases id with _ | id <;> simp [node?, Document.empty]
  have hparent : ∀ id, Document.empty.parent? id = none := by
    intro id
    rcases id with _ | id <;> simp [parent?, node?, Document.empty]
  have hcontent : ∀ id content, Document.empty.content? id = some content →
      id = root ∧ content = .document := by
    intro id content h
    rcases id with _ | id <;> simp_all [content?, node?, Document.empty, root]
  exact {
    rootContent := rfl
    rootOnly := fun id h => (hcontent id _ h).1
    rootParent := hparent root
    linked := by simp [hchildren, hparent]
    nodup := by simp [hchildren]
    container := by simp [hchildren]
    acyclic := ⟨fun id => ⟨id, by simp [hparent]⟩⟩
    valid := by
      intro id content h
      rw [(hcontent id content h).2]
      trivial }

theorem WellFormed.root_lt_size {doc : Document} (h : doc.WellFormed) : root < doc.size :=
  lt_size_of_content? h.rootContent

private theorem isContainer_congr_kind {a b : Document} {id : NodeId}
    (h : (a.content? id).map Content.kind = (b.content? id).map Content.kind) :
    a.isContainer id = b.isContainer id := by
  have hkind : ∀ content : Content,
      content.isContainer = (content.kind == .document || content.kind == .element) := by
    intro content
    cases content <;> rfl
  have hmap : ∀ content : Option Content, (content.map Content.isContainer).getD false =
      ((content.map Content.kind).map fun k => k == .document || k == .element).getD false := by
    intro content
    cases content <;> simp [hkind]
  rw [isContainer_eq, isContainer_eq, hmap, hmap, h]

theorem isContainer_congr {a b : Document} {id : NodeId} (h : a.content? id = b.content? id) :
    a.isContainer id = b.isContainer id :=
  isContainer_congr_kind (by rw [h])

theorem WellFormed.create {doc : Document} (h : doc.WellFormed) {content : Content}
    (hvalid : content.Valid) (hkind : content ≠ .document) : (doc.create content).1.WellFormed where
  rootContent := by
    rw [content?_create, if_neg (Nat.ne_of_lt h.root_lt_size), h.rootContent]
  rootOnly := by
    intro id hid
    rw [content?_create] at hid
    split at hid
    · exact absurd (Option.some.inj hid) hkind
    · exact h.rootOnly id hid
  rootParent := by simpa using h.rootParent
  linked := by simpa using h.linked
  nodup := by simpa using h.nodup
  container := by
    intro p c hc
    rw [children_create] at hc
    rw [isContainer_congr (b := doc), h.container p c hc]
    rw [content?_create, if_neg (Nat.ne_of_lt (lt_size_of_mem_children hc))]
  acyclic := by simpa using h.acyclic
  valid := by
    intro id other hid
    rw [content?_create] at hid
    split at hid
    · rw [← Option.some.inj hid]
      exact hvalid
    · exact h.valid id other hid

private theorem WellFormed.modifyContent {doc : Document} (h : doc.WellFormed) (id : NodeId)
    {f : Content → Content}
    (hkind : ∀ content, doc.content? id = some content → (f content).kind = content.kind)
    (hvalid : ∀ content, doc.content? id = some content → (f content).Valid) :
    (doc.modifyContent id f).WellFormed :=
  have hkinds : ∀ other, ((doc.modifyContent id f).content? other).map Content.kind =
      (doc.content? other).map Content.kind := by
    intro other
    rw [content?_modifyContent]
    split
    · rename_i he
      subst he
      rw [Option.map_map]
      exact Option.map_congr fun content hcontent => hkind content hcontent
    · rfl
  have hdocument : ∀ other, (doc.modifyContent id f).content? other = some .document ↔
      doc.content? other = some .document := by
    intro other
    have hiff : ∀ content : Option Content,
        content = some .document ↔ content.map Content.kind = some .document := by
      intro content
      cases content <;> simp [Content.eq_document_iff]
    rw [hiff, hiff, hkinds]
  { rootContent := (hdocument root).mpr h.rootContent
    rootOnly := fun other hother => h.rootOnly other ((hdocument other).mp hother)
    rootParent := by simpa using h.rootParent
    linked := by simpa using h.linked
    nodup := by simpa using h.nodup
    container := by
      intro p c hc
      rw [children_modifyContent] at hc
      rw [isContainer_congr_kind (hkinds p), h.container p c hc]
    acyclic := by simpa using h.acyclic
    valid := by
      intro other content hother
      rw [content?_modifyContent] at hother
      split at hother
      · rename_i he
        subst he
        obtain ⟨before, hbefore, rfl⟩ := Option.map_eq_some_iff.mp hother
        exact hvalid before hbefore
      · exact h.valid other content hother }

private theorem WellFormed.detach {doc : Document} (h : doc.WellFormed) (child : NodeId) :
    (doc.detach child).WellFormed where
  rootContent := by simpa using h.rootContent
  rootOnly := by simpa using h.rootOnly
  rootParent := by
    rw [parent?_detach, h.rootParent]
    simp
  linked := by
    intro p c
    rw [children_detach, parent?_detach]
    by_cases hc : c = child
    · subst hc
      by_cases hp : doc.parent? c = some p
      · simp [hp]
      · simp [hp, h.linked]
    · split <;> simp [hc, h.linked]
  nodup := by
    intro p
    rw [children_detach]
    split
    · exact (h.nodup p).filter _
    · exact h.nodup p
  container := by
    intro p c hc
    rw [isContainer_congr (content?_detach doc child p)]
    apply h.container p c
    rw [children_detach] at hc
    split at hc
    · exact (List.mem_filter.mp hc).1
    · exact hc
  acyclic := by
    apply Subrelation.wf _ h.acyclic
    intro p c hpc
    rw [parent?_detach] at hpc
    split at hpc
    · exact absurd hpc (by simp)
    · exact hpc
  valid := by simpa using h.valid

private theorem WellFormed.attachLast {doc : Document} (h : doc.WellFormed) {parent child : NodeId}
    (hcontainer : doc.isContainer parent = true) (hchild : child < doc.size)
    (hroot : child ≠ root) (hfree : doc.parent? child = none)
    (hunder : ¬ doc.Under parent child) : (doc.attachLast parent child).WellFormed := by
  have hparent : parent < doc.size := by
    rw [isContainer_eq] at hcontainer
    cases hc : doc.content? parent with
    | none => simp [hc] at hcontainer
    | some content => exact lt_size_of_content? hc
  have hup : ∀ c, (doc.attachLast parent child).parent? c =
      if c = child then some parent else doc.parent? c := by
    intro c
    rw [parent?_attachLast]
    simp [hchild]
  have hdown : ∀ p, (doc.attachLast parent child).children p =
      if p = parent then doc.children p ++ [child] else doc.children p := by
    intro p
    rw [children_attachLast]
    simp [hparent]
  have hnew : ∀ p, child ∉ doc.children p := by
    intro p hc
    rw [h.linked, hfree] at hc
    simp at hc
  -- A node that is not under the child keeps its way up, so the new link closes no cycle.
  have hkept : ∀ id, ¬ doc.Under id child →
      Acc (fun p c => (doc.attachLast parent child).parent? c = some p) id := by
    intro id
    induction id using h.acyclic.induction with
    | _ id ih =>
      intro hid
      have hne : id ≠ child := by
        intro he
        exact hid (he ▸ .refl)
      refine ⟨id, fun p hp => ?_⟩
      rw [hup, if_neg hne] at hp
      exact ih p hp fun hpc => hid (.head hp hpc)
  refine ⟨?_, ?_, ?_, ?_, ?_, ?_, ⟨fun id => ?_⟩, ?_⟩
  · simpa using h.rootContent
  · simpa using h.rootOnly
  · rw [hup, if_neg (Ne.symm hroot), h.rootParent]
  · intro p c
    rw [hup, hdown]
    by_cases hc : c = child
    · subst hc
      by_cases hp : p = parent
      · simp [hp]
      · simp [hp, Ne.symm hp, hnew]
    · split <;> simp [hc, h.linked]
  · intro p
    rw [hdown]
    split
    · exact List.nodup_append.mpr ⟨h.nodup p, by simp, by
        intro c hc d hd
        rw [List.mem_singleton.mp hd]
        exact fun he => hnew p (he ▸ hc)⟩
    · exact h.nodup p
  · intro p c hc
    rw [isContainer_congr (content?_attachLast doc parent child p)]
    rw [hdown] at hc
    split at hc
    · rename_i hp
      rw [hp, hcontainer]
    · exact h.container p c hc
  · induction id using h.acyclic.induction with
    | _ id ih =>
      refine ⟨id, fun p hp => ?_⟩
      rw [hup] at hp
      split at hp
      · rw [← Option.some.inj hp]
        exact hkept parent hunder
      · exact ih p hp
  · simpa using h.valid

private theorem WellFormed.removeChildren {doc : Document} (h : doc.WellFormed) (id : NodeId) :
    (doc.removeChildren id).WellFormed where
  rootContent := by simpa using h.rootContent
  rootOnly := by simpa using h.rootOnly
  rootParent := by
    rw [parent?_removeChildren, h.rootParent]
    simp
  linked := by
    intro p c
    rw [children_removeChildren, parent?_removeChildren]
    by_cases hp : p = id
    · subst hp
      simp only [if_pos, List.not_mem_nil, false_iff, h.linked]
      split <;> simp_all
    · rw [if_neg hp]
      split
      · rename_i hc
        rw [h.linked] at hc ⊢
        simp [hc, Ne.symm hp]
      · exact h.linked p c
  nodup := by
    intro p
    rw [children_removeChildren]
    split
    · exact List.nodup_nil
    · exact h.nodup p
  container := by
    intro p c hc
    rw [isContainer_congr (content?_removeChildren doc id p)]
    rw [children_removeChildren] at hc
    split at hc
    · simp at hc
    · exact h.container p c hc
  acyclic := by
    apply Subrelation.wf _ h.acyclic
    intro p c hpc
    rw [parent?_removeChildren] at hpc
    split at hpc
    · exact absurd hpc (by simp)
    · exact hpc
  valid := by simpa using h.valid

theorem WellFormed.createElement {doc : Document} (h : doc.WellFormed) (tag : String) :
    (doc.createElement tag).1.WellFormed := by
  apply h.create
  · refine ⟨?_, by simp, by simp, Text.lowercase_lowercase tag⟩
    split <;> simp_all
  · simp

theorem WellFormed.createText {doc : Document} (h : doc.WellFormed) (data : String) :
    (doc.createText data).1.WellFormed :=
  h.create trivial (by simp)

private theorem WellFormed.createComment {doc : Document} (h : doc.WellFormed) (data : String) :
    (doc.createComment data).1.WellFormed :=
  h.create trivial (by simp)

theorem WellFormed.setValue {doc : Document} (h : doc.WellFormed) (id : NodeId) (value : String) :
    (doc.setValue id value).WellFormed := by
  apply h.modifyContent
  · intro content _
    rcases content with _ | ⟨tag, attributes, _ | old⟩ | _ | _ <;> rfl
  · intro content hcontent
    have hvalid := h.valid id content hcontent
    rcases content with _ | ⟨tag, attributes, _ | old⟩ | _ | _
    all_goals exact hvalid

private theorem WellFormed.setAttribute {doc after : Document} (h : doc.WellFormed) {id : NodeId}
    {name value : String} (hset : doc.setAttribute id name value = .ok after) :
    after.WellFormed := by
  unfold Document.setAttribute at hset
  split at hset
  · rw [← Except.ok.inj hset]
    apply h.modifyContent
    · intro content _
      cases content <;> rfl
    · intro content hcontent
      exact Content.valid_withAttribute (h.valid id content hcontent) name value
  · exact absurd hset (by simp)

theorem WellFormed.setAttributes {doc after : Document} (h : doc.WellFormed) {id : NodeId}
    {attributes : List Attribute} (hset : doc.setAttributes id attributes = .ok after) :
    after.WellFormed := by
  unfold Document.setAttributes at hset
  induction attributes generalizing doc with
  | nil =>
    rw [← Except.ok.inj hset]
    exact h
  | cons a rest ih =>
    rw [List.foldlM_cons] at hset
    cases ha : doc.setAttribute id a.name a.value with
    | error e => simp [ha, bind, Except.bind] at hset
    | ok named =>
      rw [ha] at hset
      exact ih (h.setAttribute ha) hset

private theorem WellFormed.appendChild {doc after : Document} (h : doc.WellFormed)
    {parent child : NodeId} (happend : doc.appendChild parent child = .ok after) :
    after.WellFormed := by
  unfold Document.appendChild at happend
  split at happend
  · exact absurd happend (by simp)
  split at happend
  · exact absurd happend (by simp)
  split at happend
  · exact absurd happend (by simp)
  rename_i hparent hchild hfit
  rw [← Except.ok.inj happend]
  simp only [Bool.not_eq_true', Bool.not_eq_false, contains_iff] at hparent hchild
  simp only [Bool.or_eq_true, Bool.not_eq_true', beq_iff_eq, not_or, Bool.not_eq_false,
    Bool.not_eq_true] at hfit
  obtain ⟨⟨hcontainer, hroot⟩, hancestor⟩ := hfit
  have hunder := h.not_under_of_isAncestorOrSelf hparent hancestor
  apply (h.detach child).attachLast
  · rw [isContainer_congr (content?_detach doc child parent), hcontainer]
  · simpa using hchild
  · exact hroot
  · simp [parent?_detach]
  · intro hd
    apply hunder
    have hmono : ∀ c p, (doc.detach child).parent? c = some p → doc.parent? c = some p := by
      intro c p hp
      rw [parent?_detach] at hp
      split at hp
      · exact absurd hp (by simp)
      · exact hp
    exact Relation.ReflTransGen.mono hmono _ _ hd

private theorem WellFormed.appendElement {doc : Document} (h : doc.WellFormed) (parent : NodeId)
    (tag : String) (attributes : List Attribute) :
    (doc.appendElement parent tag attributes).1.WellFormed := by
  have hcreated := h.createElement tag
  unfold Document.appendElement
  cases hnamed : (doc.createElement tag).1.setAttributes (doc.createElement tag).2 attributes with
  | error e => simpa [hnamed] using hcreated
  | ok named =>
    have hn := hcreated.setAttributes hnamed
    cases hattached : named.appendChild parent (doc.createElement tag).2 with
    | error e => simpa [hnamed, hattached] using hn
    | ok attached => simpa [hnamed, hattached] using hn.appendChild hattached

private theorem WellFormed.appendText {doc : Document} (h : doc.WellFormed) (parent : NodeId)
    (data : String) : (doc.appendText parent data).1.WellFormed := by
  have hcreated := h.createText data
  unfold Document.appendText
  cases hattached : (doc.createText data).1.appendChild parent (doc.createText data).2 with
  | error e => simpa [hattached] using hcreated
  | ok attached => simpa [hattached] using hcreated.appendChild hattached

theorem kind_eq_element_iff (doc : Document) (id : NodeId) : doc.kind id = .element ↔
    ∃ tag attributes value, doc.content? id = some (.element tag attributes value) := by
  rw [kind_eq]
  rcases doc.content? id with _ | content
  · simp
  · cases content <;> simp [Content.kind]

theorem kind_eq_text_iff (doc : Document) (id : NodeId) :
    doc.kind id = .text ↔ ∃ data, doc.content? id = some (.text data) := by
  rw [kind_eq]
  rcases doc.content? id with _ | content
  · simp
  · cases content <;> simp [Content.kind]

private theorem isContainer_of_kind_eq_element {doc : Document} {id : NodeId}
    (h : doc.kind id = .element) : doc.isContainer id = true := by
  obtain ⟨tag, attributes, value, hcontent⟩ := (kind_eq_element_iff doc id).mp h
  simp [isContainer_eq, hcontent, Content.isContainer]

theorem lt_size_of_kind_eq_element {doc : Document} {id : NodeId} (h : doc.kind id = .element) :
    id < doc.size := by
  obtain ⟨tag, attributes, value, hcontent⟩ := (kind_eq_element_iff doc id).mp h
  exact lt_size_of_content? hcontent

/-- Nothing stands under a node without children. -/
theorem WellFormed.not_under_of_children_eq_nil {doc : Document} (h : doc.WellFormed)
    {id top : NodeId} (hne : id ≠ top) (hleaf : doc.children top = []) : ¬ doc.Under id top := by
  intro hunder
  rcases Relation.ReflTransGen.cases_tail hunder with rfl | ⟨c, -, hc⟩
  · exact hne rfl
  · have hmem := (h.linked top c).mpr hc
    rw [hleaf] at hmem
    simp at hmem

theorem children_size (doc : Document) : doc.children doc.size = [] := by
  apply List.eq_nil_iff_forall_not_mem.mpr
  intro c hc
  exact Nat.lt_irrefl _ (lt_size_of_mem_children hc)

theorem parent?_size (doc : Document) : doc.parent? doc.size = none := by
  cases hp : doc.parent? doc.size with
  | none => rfl
  | some p => exact absurd (lt_size_of_parent? hp) (Nat.lt_irrefl _)

theorem WellFormed.setTextContent {doc : Document} (h : doc.WellFormed) (id : NodeId)
    (text : String) : (doc.setTextContent id text).WellFormed := by
  unfold Document.setTextContent
  cases hkind : doc.kind id with
  | text =>
    apply h.modifyContent
    · intro content hcontent
      rw [kind_eq, hcontent] at hkind
      exact hkind.symm
    · intro content _
      trivial
  | comment =>
    apply h.modifyContent
    · intro content hcontent
      rw [kind_eq, hcontent] at hkind
      exact hkind.symm
    · intro content _
      trivial
  | document => exact h
  | element =>
    obtain ⟨tag, attributes, value, hcontent⟩ := (kind_eq_element_iff doc id).mp hkind
    have hid := lt_size_of_content? hcontent
    have hcreated := h.createText text
    dsimp only
    split
    · exact h.removeChildren id
    · apply (hcreated.removeChildren id).attachLast
      · rw [isContainer_congr (content?_removeChildren _ _ _), isContainer_congr (b := doc)]
        · exact isContainer_of_kind_eq_element hkind
        · simp [Document.createText, Nat.ne_of_lt hid]
      · simp [Document.createText]
      · exact Nat.ne_of_gt h.root_lt_size
      · simp [Document.createText, parent?_removeChildren, parent?_size]
      · apply (hcreated.removeChildren id).not_under_of_children_eq_nil (Nat.ne_of_lt hid)
        simp [Document.createText, children_removeChildren, children_size]

/-! ## Markup -/

theorem WellFormed.attach {doc : Document} (h : doc.WellFormed) (parent child : NodeId) :
    (Markup.attach doc parent child).WellFormed := by
  unfold Markup.attach
  split
  · rename_i attached hattached
    exact h.appendChild hattached
  · exact h

private theorem WellFormed.createTagged {doc : Document} (h : doc.WellFormed) (tag : String)
    (attributes : List Attribute) : (Markup.createTagged doc tag attributes).1.WellFormed := by
  have hcreated := h.createElement tag
  unfold Markup.createTagged
  cases hnamed : (doc.createElement tag).1.setAttributes (doc.createElement tag).2 attributes with
  | error e => simpa [hnamed] using hcreated
  | ok named => simpa [hnamed] using hcreated.setAttributes hnamed

theorem WellFormed.build {doc : Document} (h : doc.WellFormed) (parent : NodeId)
    (tokens : List Markup.Token) (opened : Markup.Opened) :
    (Markup.build parent tokens doc opened).1.WellFormed := by
  induction tokens generalizing doc opened with
  | nil => exact h
  | cons token rest ih =>
    cases token with
    | comment data => exact ih ((h.createComment data).attach _ _) opened
    | text data => exact ih ((h.createText data).attach _ _) opened
    | opening tag attributes selfClosing => exact ih ((h.createTagged tag attributes).attach _ _) _
    | closing tag offset =>
      simp only [Markup.build]
      split
      · exact ih h _
      · exact h

private theorem WellFormed.finish {doc : Document} (h : doc.WellFormed)
    (fault : Option Markup.Fault) (opened : Markup.Opened) :
    (Markup.finish doc fault opened).1.WellFormed := by
  rcases fault with _ | fault
  · rcases opened with _ | ⟨⟨id, tag⟩, outer⟩ <;> exact h
  · simp only [Markup.finish, Markup.leaveElement]
    split
    · exact h.createTagged _ _
    · exact h

theorem WellFormed.parseInto {doc : Document} (h : doc.WellFormed) (parent : NodeId)
    (markup : String) : (doc.parseInto parent markup).1.WellFormed := by
  have hbuilt := h.build parent (Markup.tokens (.start markup.toList)).1 []
  unfold Document.parseInto
  rcases hb : Markup.build parent (Markup.tokens (.start markup.toList)).1 doc [] with
    ⟨built, e | opened⟩
  · simpa [hb] using hbuilt
  · rw [hb] at hbuilt
    simpa [hb] using hbuilt.finish _ opened

/-- Every document that operations lead to is a forest. -/
theorem Reachable.wellFormed {doc : Document} (h : doc.Reachable) : doc.WellFormed := by
  induction h with
  | empty => exact .empty
  | createElement tag _ ih => exact ih.createElement tag
  | createText data _ ih => exact ih.createText data
  | createComment data _ ih => exact ih.createComment data
  | appendChild parent child _ happend ih => exact ih.appendChild happend
  | appendElement parent tag attributes _ ih => exact ih.appendElement parent tag attributes
  | appendText parent data _ ih => exact ih.appendText parent data
  | setAttribute id name value _ hset ih => exact ih.setAttribute hset
  | parseInto parent markup _ ih => exact ih.parseInto parent markup
  | setTextContent id text _ ih => exact ih.setTextContent id text
  | setValue id value _ ih => exact ih.setValue id value

end Document
end ViewBinding
