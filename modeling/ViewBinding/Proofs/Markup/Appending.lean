import Mathlib
import ViewBinding.Proofs.Markup.Nesting

/-!
# Markup is only added to a document

Reading markup into a document creates nodes and changes nothing else, apart from the children of the
node it is read into, however reading ends. The new nodes come in the order of their tokens, each
behind the node that it stands under; only an element whose attributes could not be read stays
outside the tree (`Document.parseInto_appends`).
-/

namespace ViewBinding

open Markup

namespace Document

variable {doc : Document}

/-- A document to which nodes of these contents were added, all of them behind the old nodes. Of the
old nodes only the parent has changed: it may have new children behind the others. -/
structure Grown (doc : Document) (parent : NodeId) (added : List Content) (after : Document) :
    Prop where
  others {id : NodeId} : id < doc.size → id ≠ parent → after.node? id = doc.node? id
  parent : ∃ node ids, doc.node? parent = some node ∧
    after.node? parent = some { node with children := node.children ++ ids } ∧
      ∀ id ∈ ids, doc.size ≤ id
  contents : after.contents = doc.contents ++ added

/-- A new node stands under the parent, or under a new node that was created before it. -/
def Hangs (doc : Document) (parent : NodeId) (after : Document) (id : NodeId) : Prop :=
  ∃ above, after.parent? id = some above ∧ (above = parent ∨ doc.size ≤ above ∧ above < id)

private theorem length_contents (doc : Document) : doc.contents.length = doc.size := by
  simp [contents, size]

theorem contents_create (doc : Document) (content : Content) :
    (doc.create content).1.contents = doc.contents ++ [content] := by
  simp [contents, create]

private theorem node?_put {parent : NodeId} (h : parent < doc.size) (content : Content)
    (id : NodeId) : (doc.put parent content).node? id =
      if id = doc.size then some { content, parent := some parent }
      else if id = parent then
        (doc.node? id).map fun node => { node with children := node.children ++ [doc.size] }
      else doc.node? id := by
  rw [put, attachLast, node?_modify, node?_modify, node?_create]
  by_cases hnew : id = doc.size
  · have hne : ¬ parent = id := fun he => Nat.ne_of_lt h (he.trans hnew)
    simp [hnew, hnew ▸ hne]
  · by_cases hp : parent = id
    · simp [hnew, hp, Ne.symm hnew]
    · simp [hnew, hp, Ne.symm hnew, Ne.symm hp]

private theorem parent?_put {parent : NodeId} (h : parent < doc.size) (content : Content)
    (id : NodeId) :
    (doc.put parent content).parent? id = if id = doc.size then some parent else doc.parent? id := by
  rw [parent?, node?_put h]
  split
  · rfl
  · split
    · rw [parent?]
      cases doc.node? id <;> rfl
    · rfl

namespace Grown

variable {parent : NodeId} {added : List Content} {after : Document}

theorem refl {node : Node} (h : doc.node? parent = some node) : Grown doc parent [] doc where
  others _ _ := rfl
  parent := ⟨node, [], h, by rw [h, List.append_nil], by simp⟩
  contents := (List.append_nil _).symm

private theorem size_eq (h : Grown doc parent added after) :
    after.size = doc.size + added.length := by
  rw [← length_contents, h.contents, List.length_append, length_contents]

private theorem size_le (h : Grown doc parent added after) : doc.size ≤ after.size := by
  rw [h.size_eq]
  exact Nat.le_add_right _ _

private theorem parent_lt (h : Grown doc parent added after) : parent < doc.size := by
  obtain ⟨node, -, hnode, -⟩ := h.parent
  exact lt_size_of_node? hnode

private theorem put (h : Grown doc parent added after) {above : NodeId}
    (habove : above < after.size) (hplace : above = parent ∨ doc.size ≤ above) (content : Content) :
    Grown doc parent (added ++ [content]) (after.put above content) where
  others {id} hid hne := by
    have hnew : id ≠ after.size := Nat.ne_of_lt (hid.trans_le h.size_le)
    have hother : id ≠ above := by
      rcases hplace with rfl | hle
      · exact hne
      · exact Nat.ne_of_lt (hid.trans_le hle)
    rw [node?_put habove, if_neg hnew, if_neg hother, h.others hid hne]
  parent := by
    obtain ⟨node, ids, hnode, hafter, hids⟩ := h.parent
    have hnew : parent ≠ after.size := Nat.ne_of_lt (h.parent_lt.trans_le h.size_le)
    rw [node?_put habove, if_neg hnew]
    by_cases hparent : parent = above
    · refine ⟨node, ids ++ [after.size], hnode, ?_, ?_⟩
      · rw [if_pos hparent, hafter, Option.map_some, List.append_assoc]
      · simpa [or_imp, forall_and] using ⟨hids, h.size_le⟩
    · exact ⟨node, ids, hnode, by rw [if_neg hparent, hafter], hids⟩
  contents := by rw [contents_put, h.contents, List.append_assoc]

private theorem create (h : Grown doc parent added after) (content : Content) :
    Grown doc parent (added ++ [content]) (after.create content).1 where
  others hid hne := by
    rw [node?_create, if_neg (Nat.ne_of_lt (hid.trans_le h.size_le)), h.others hid hne]
  parent := by
    obtain ⟨node, ids, hnode, hafter, hids⟩ := h.parent
    refine ⟨node, ids, hnode, ?_, hids⟩
    rw [node?_create, if_neg (Nat.ne_of_lt (h.parent_lt.trans_le h.size_le)), hafter]
  contents := by rw [contents_create, h.contents, List.append_assoc]

end Grown

private theorem Hangs.under {parent : NodeId} {after : Document} {id : NodeId}
    (h : ∀ other, doc.size ≤ other → other ≤ id → doc.Hangs parent after other)
    (hid : doc.size ≤ id) : after.Under id parent := by
  induction id using Nat.strong_induction_on with
  | _ id ih =>
    obtain ⟨above, habove, hplace⟩ := h id hid le_rfl
    rcases hplace with rfl | ⟨hle, hlt⟩
    · exact .single habove
    · exact .head habove (ih above hlt (fun other hother hle => h other hother
        (hle.trans hlt.le)) hle)

end Document

namespace Markup

open Document

/-- The elements that are open are new nodes, or were open before. -/
def Inside (doc after : Document) (opened : Opened) : Prop :=
  ∀ element tag, (element, tag) ∈ opened → doc.size ≤ element ∧ after.isContainer element = true

variable {doc after : Document} {parent : NodeId} {opened : Opened}

private theorem Inside.place (h : Inside doc after opened)
    (hparent : after.isContainer parent = true) : after.isContainer (place parent opened) = true ∧
      (place parent opened = parent ∨ doc.size ≤ place parent opened) := by
  rcases opened with _ | ⟨⟨element, tag⟩, outer⟩
  · exact ⟨hparent, Or.inl rfl⟩
  · obtain ⟨hle, hcontainer⟩ := h element tag (by simp)
    exact ⟨hcontainer, Or.inr hle⟩

private theorem Inside.put (h : Inside doc after opened) (above : NodeId) (content : Content) :
    Inside doc (after.put above content) opened := fun element tag hmem =>
  ⟨(h element tag hmem).1, isContainer_put (h element tag hmem).2 above content⟩

private theorem exists_build_cons {t : Token} {content : Content} (ht : t.Proper)
    (hcontent : t.content? = some content) (hwf : after.WellFormed)
    (hplace : after.isContainer (place parent opened) = true) (ts : List Token) :
    ∃ opened', build parent (t :: ts) after opened =
        build parent ts (after.put (place parent opened) content) opened' ∧
      (after.put (place parent opened) content).WellFormed ∧
      (opened' = opened ∨ ∃ tag, opened' = (after.size, tag) :: opened ∧
        (after.put (place parent opened) content).isContainer after.size = true) := by
  cases t with
  | text data =>
    obtain rfl := Option.some.inj hcontent
    refine ⟨opened, ?_, hwf.put hplace trivial (by simp), Or.inl rfl⟩
    rw [build, Document.createText]
    simp only [Document.create_snd, hwf.attach_create hplace]
  | comment data =>
    obtain rfl := Option.some.inj hcontent
    refine ⟨opened, ?_, hwf.put hplace trivial (by simp), Or.inl rfl⟩
    rw [build, Document.createComment]
    simp only [Document.create_snd, hwf.attach_create hplace]
  | closing => cases hcontent
  | opening tag attributes selfClosing =>
    obtain rfl := Option.some.inj hcontent
    obtain ⟨hbuild, hput⟩ := build_opening ht hwf hplace ts
    refine ⟨_, hbuild, hput, ?_⟩
    split
    · exact Or.inl rfl
    · refine Or.inr ⟨tag, rfl, ?_⟩
      rw [isContainer_eq, content?_put, if_pos rfl]
      rfl

private theorem close_eq_ok {tag : String} {offset : Nat} {outer : Opened}
    (h : close tag offset opened = .ok outer) : ∃ element, opened = (element, tag) :: outer := by
  rcases opened with _ | ⟨⟨element, expected⟩, rest⟩
  · cases h
  · rw [close] at h
    split at h
    · rename_i htag
      rw [Except.ok.inj h, htag]
      exact ⟨element, rfl⟩
    · cases h

theorem close_eq_error {tag : String} {offset : Nat} {e : MarkupError}
    (h : close tag offset opened = .error e) :
    ∃ expected, e = .mismatchedClose expected tag offset := by
  rcases opened with _ | ⟨⟨element, expected⟩, rest⟩
  · exact ⟨none, (Except.error.inj h).symm⟩
  · rw [close] at h
    split at h
    · cases h
    · exact ⟨some expected, (Except.error.inj h).symm⟩

/-- What building adds under a node, and how it ends: with all tokens placed, or at a closing tag. -/
structure Adds (doc : Document) (parent : NodeId) (before : List Content) (ts : List Token)
    (built : Document) (result : Except MarkupError Opened) (placed : List Token) : Prop where
  grown : doc.Grown parent (before ++ placed.filterMap Token.content?) built
  hangs {id : NodeId} : doc.size ≤ id → id < built.size → doc.Hangs parent built id
  ends : (placed = ts ∧ ∃ opened, result = .ok opened) ∨ ∃ expected tag offset rest,
    ts = placed ++ .closing tag offset :: rest ∧
      result = .error (.mismatchedClose expected tag offset)

private theorem exists_adds_build {ts : List Token} (hproper : ∀ t ∈ ts, t.Proper)
    {before : List Content} (hwf : after.WellFormed) (hgrown : doc.Grown parent before after)
    (hparent : after.isContainer parent = true)
    (hhangs : ∀ id, doc.size ≤ id → id < after.size → doc.Hangs parent after id)
    (hopened : Inside doc after opened) :
    ∃ placed, Adds doc parent before ts (build parent ts after opened).1
      (build parent ts after opened).2 placed := by
  induction ts generalizing after before opened with
  | nil =>
    exact ⟨[], by simpa [build] using hgrown, fun hle hlt => hhangs _ hle hlt,
      Or.inl ⟨rfl, opened, rfl⟩⟩
  | cons t ts ih =>
    rw [List.forall_mem_cons] at hproper
    cases hcontent : t.content? with
    | some content =>
      obtain ⟨hplace, hwhere⟩ := hopened.place hparent
      obtain ⟨opened', hbuild, hput, hnext⟩ :=
        exists_build_cons hproper.1 hcontent hwf hplace ts
      have hlt := lt_size_of_isContainer hplace
      have hhangs' : ∀ id, doc.size ≤ id → id < (after.put (place parent opened) content).size →
          doc.Hangs parent (after.put (place parent opened) content) id := by
        intro id hle hid
        rw [size_put] at hid
        rw [Hangs, parent?_put hlt]
        by_cases hnew : id = after.size
        · rw [if_pos hnew]
          exact ⟨_, rfl, hwhere.imp_right fun hw => ⟨hw, hnew ▸ hlt⟩⟩
        · rw [if_neg hnew]
          exact hhangs id hle (by omega)
      have hopened' : Inside doc (after.put (place parent opened) content) opened' := by
        rcases hnext with rfl | ⟨tag, rfl, hcontainer⟩
        · exact hopened.put _ _
        · intro element name hmem
          rcases List.mem_cons.mp hmem with heq | hmem
          · obtain ⟨rfl, -⟩ := Prod.mk.inj heq
            exact ⟨hgrown.size_le, hcontainer⟩
          · exact hopened.put _ _ element name hmem
      obtain ⟨placed, hadds⟩ := ih hproper.2 hput (hgrown.put hlt hwhere content)
        (isContainer_put hparent _ _) hhangs' hopened'
      rw [hbuild]
      refine ⟨t :: placed, ?_, hadds.hangs, ?_⟩
      · have hall := hadds.grown
        rw [List.append_assoc] at hall
        rwa [List.filterMap_cons, hcontent]
      · rcases hadds.ends with ⟨rfl, hok⟩ | ⟨expected, tag, offset, rest, rfl, herror⟩
        · exact Or.inl ⟨rfl, hok⟩
        · exact Or.inr ⟨expected, tag, offset, rest, rfl, herror⟩
    | none =>
      obtain ⟨tag, offset, rfl⟩ : ∃ tag offset, t = .closing tag offset := by
        cases t with
        | closing tag offset => exact ⟨tag, offset, rfl⟩
        | text | comment | opening => cases hcontent
      cases hclose : close tag offset opened with
      | ok outer =>
        obtain ⟨element, rfl⟩ := close_eq_ok hclose
        have houter : Inside doc after outer := fun other name hmem =>
          hopened other name (List.mem_cons_of_mem _ hmem)
        obtain ⟨placed, hadds⟩ := ih hproper.2 hwf hgrown hparent hhangs houter
        rw [build, hclose]
        refine ⟨.closing tag offset :: placed, hadds.grown, hadds.hangs, ?_⟩
        rcases hadds.ends with ⟨rfl, hok⟩ | ⟨expected, name, place, rest, rfl, herror⟩
        · exact Or.inl ⟨rfl, hok⟩
        · exact Or.inr ⟨expected, name, place, rest, rfl, herror⟩
      | error e =>
        obtain ⟨expected, rfl⟩ := close_eq_error hclose
        rw [build, hclose]
        exact ⟨[], by simpa using hgrown, fun hle hlt => hhangs _ hle hlt,
          Or.inr ⟨expected, tag, offset, ts, rfl, rfl⟩⟩

end Markup

namespace Document

open Markup

variable {doc : Document} {parent : NodeId}

/-- The nodes that reading adds: those of the tokens that were placed, under the parent, and perhaps
an element of which not all attributes could be read, outside the tree and without children. -/
structure Appends (doc : Document) (parent : NodeId) (placed : List Token)
    (faulty : Option Content) (after : Document) : Prop where
  grown : doc.Grown parent (placed.filterMap Token.content? ++ faulty.toList) after
  attached {id : NodeId} : doc.size ≤ id →
    id < doc.size + (placed.filterMap Token.content?).length →
      after.Under id parent ∧ doc.Hangs parent after id
  outside {id : NodeId} : doc.size + (placed.filterMap Token.content?).length ≤ id →
    after.parent? id = none ∧ after.children id = []

/-- Which tokens are placed, which element is left outside, and how reading ends. -/
inductive Ends (ts : List Token) (fault : Option Fault) :
    List Token → Option Content → Except MarkupError Unit → Prop
  | mismatched {placed rest : List Token} {expected : Option String} {tag : String} {offset : Nat} :
      ts = placed ++ .closing tag offset :: rest →
        Ends ts fault placed none (.error (.mismatchedClose expected tag offset))
  | fault {stopped : Fault} : fault = some stopped →
      Ends ts fault ts (stopped.element.map fun (tag, attributes) =>
        settledElement (Text.lowercase tag) (settledAttributes attributes)) (.error stopped.error)
  | unclosed {tag : String} : fault = none → Ends ts fault ts none (.error (.unclosed tag))
  | ok : fault = none → Ends ts fault ts none (.ok ())

private theorem outside_of_size_le {id : NodeId} (h : doc.size ≤ id) :
    doc.parent? id = none ∧ doc.children id = [] := by
  refine ⟨Option.eq_none_iff_forall_ne_some.mpr fun p hp => ?_,
    List.eq_nil_iff_forall_not_mem.mpr fun c hc => ?_⟩
  · exact absurd (lt_size_of_parent? hp) (Nat.not_lt_of_le h)
  · exact absurd (lt_size_of_mem_children hc) (Nat.not_lt_of_le h)

variable {ts placed : List Token} {built : Document}

private theorem Appends.of_adds {result : Except MarkupError Opened}
    (h : Adds doc parent [] ts built result placed) : doc.Appends parent placed none built where
  grown := by simpa using h.grown
  attached {id} hle hlt := by
    have hsize : built.size = doc.size + (placed.filterMap Token.content?).length := h.grown.size_eq
    have hhangs : ∀ other, doc.size ≤ other → other ≤ id → doc.Hangs parent built other :=
      fun other hother hle => h.hangs hother (hsize ▸ hle.trans_lt hlt)
    exact ⟨Hangs.under hhangs hle, hhangs id hle le_rfl⟩
  outside hle := outside_of_size_le (h.grown.size_eq.trans_le hle)

private theorem Appends.create (h : doc.Appends parent placed none built) (content : Content) :
    doc.Appends parent placed (some content) (built.create content).1 where
  grown := by
    have hall := h.grown.create content
    rwa [List.append_assoc] at hall
  attached hle hlt := by
    obtain ⟨hunder, hhangs⟩ := h.attached hle hlt
    simp only [Under, Hangs, parent?_create]
    exact ⟨hunder, hhangs⟩
  outside hle := by
    rw [parent?_create, children_create]
    exact h.outside hle

private theorem Appends.leaveElement (h : doc.Appends parent placed none built) (stopped : Fault) :
    doc.Appends parent placed (stopped.element.map fun (tag, attributes) =>
      settledElement (Text.lowercase tag) (settledAttributes attributes))
        (Markup.leaveElement built stopped) := by
  cases helement : stopped.element with
  | none => simpa [Markup.leaveElement, helement] using h
  | some element =>
    simpa [Markup.leaveElement, helement, createTagged_eq] using h.create _

private theorem Appends.under (h : doc.Appends parent placed none built) {id : NodeId}
    (hle : doc.size ≤ id) (hlt : id < built.size) : built.Under id parent := by
  have hsize := h.grown.size_eq
  rw [Option.toList_none, List.append_nil] at hsize
  exact (h.attached hle (hsize ▸ hlt)).1

/-- Reading markup into a document only appends nodes under a node, whether it succeeds or not. The
nodes are those of the tokens up to a closing tag that does not fit, and all of them are in the tree
but for an element whose attributes stopped the reading. -/
theorem parseInto_appends (hdoc : doc.Reachable) (hparent : doc.isContainer parent = true)
    (markup : String) : ∃ placed faulty,
      doc.Appends parent placed faulty (doc.parseInto parent markup).1 ∧
        Ends (tokens (.start markup.toList)).1 (tokens (.start markup.toList)).2 placed faulty
          (doc.parseInto parent markup).2 ∧
        ((doc.parseInto parent markup).2 = .ok () → ∀ id, doc.size ≤ id →
          id < (doc.parseInto parent markup).1.size →
            (doc.parseInto parent markup).1.Under id parent) := by
  have hwf := hdoc.wellFormed
  have hproper := tokens_proper (.start markup.toList)
  rcases hread : tokens (.start markup.toList) with ⟨ts, fault⟩
  rw [hread] at hproper
  obtain ⟨node, hnode⟩ := Option.isSome_iff_exists.mp
    ((node?_isSome_iff doc parent).mpr (lt_size_of_isContainer hparent))
  have hnone : Inside doc doc [] := fun _ _ hmem => by cases hmem
  obtain ⟨placed, hadds⟩ := exists_adds_build hproper hwf (Grown.refl hnode) hparent
    (fun id hle hlt => absurd hle (Nat.not_le_of_lt hlt)) hnone
  rcases hbuild : build parent ts doc [] with ⟨built, result⟩
  rw [hbuild] at hadds
  have happends := Appends.of_adds hadds
  rcases hadds.ends with ⟨rfl, opened, rfl⟩ | ⟨expected, tag, offset, rest, rfl, rfl⟩
  · have hparse : doc.parseInto parent markup = finish built fault opened := by
      rw [Document.parseInto, hread]
      simp only [hbuild]
    rw [hparse]
    rcases fault with _ | stopped
    · rcases opened with _ | ⟨⟨element, tag⟩, outer⟩
      · exact ⟨placed, none, happends, .ok rfl, fun _ _ => happends.under⟩
      · exact ⟨placed, none, happends, .unclosed rfl, fun h => by cases h⟩
    · exact ⟨placed, _, happends.leaveElement stopped, .fault rfl, fun h => by cases h⟩
  · have hparse : doc.parseInto parent markup =
        (built, .error (.mismatchedClose expected tag offset)) := by
      rw [Document.parseInto, hread]
      simp only [hbuild]
    rw [hparse]
    exact ⟨placed, none, happends, .mismatched rfl, fun h => by cases h⟩

/-- A paragraph with a text. -/
def shortParagraph : Document :=
  ((empty.appendElement root "p" []).1.appendText 1 "a").1

/-- The text and the first element are in the tree; the element with the open quote is not. -/
theorem openQuote_appends :
    (shortParagraph.parseInto 1 "b<b>c</b><i q=1 r=\"").1.children 1 = [2, 3, 4] ∧
    (shortParagraph.parseInto 1 "b<b>c</b><i q=1 r=\"").1.parent? 6 = none ∧
    ∃ placed faulty,
      shortParagraph.Appends 1 placed faulty
        (shortParagraph.parseInto 1 "b<b>c</b><i q=1 r=\"").1 ∧
      Ends (tokens (.start "b<b>c</b><i q=1 r=\"".toList)).1
        (tokens (.start "b<b>c</b><i q=1 r=\"".toList)).2 placed faulty
          (shortParagraph.parseInto 1 "b<b>c</b><i q=1 r=\"").2 ∧
      ((shortParagraph.parseInto 1 "b<b>c</b><i q=1 r=\"").2 = .ok () → ∀ id,
        shortParagraph.size ≤ id →
          id < (shortParagraph.parseInto 1 "b<b>c</b><i q=1 r=\"").1.size →
            (shortParagraph.parseInto 1 "b<b>c</b><i q=1 r=\"").1.Under id 1) :=
  ⟨by decide +kernel, by decide +kernel,
    parseInto_appends ((Reachable.empty.appendElement root "p" []).appendText 1 "a")
      (by decide +kernel) _⟩

end Document
end ViewBinding
