import Mathlib
import ViewBinding.Compile
import ViewBinding.Proofs.Document.PostOrder
import ViewBinding.Proofs.Document.Writes

/-!
# What a walk finds

The bindings of a subtree are those of its nodes as they were before the walk, children before their
parents, although the walk writes into the tree (`compile_discovers`). No write reaches a node that
is still to be looked at: a binding changes its own node and puts new nodes under it, and both
have been passed when the next node comes.
-/

namespace ViewBinding

/-- The binding that an attribute asks for: of the text of its element, or of the value if the
element carries one. -/
def directiveBinding (settings : Settings) (id : NodeId) (takesValue : Bool) (a : Attribute) :
    Option Binding :=
  let key := Text.trim a.value
  if settings.directiveStart = "" ∨ key = "" then none
  else if a.name = settings.directiveStart ++ "text" then some (.text id key)
  else if a.name = settings.directiveStart ++ "model" ∧ takesValue then some (.model id key)
  else none

/-- The bindings that a node asks for: a text by being a template, an element by its attributes. -/
def Document.nodeBindings (doc : Document) (settings : Settings) (id : NodeId) : List Binding :=
  match doc.content? id with
  | some (.text data) =>
    ((Template.parse? settings.delimiters data).map (Binding.interpolation id)).toList
  | some (.element _ attributes value) =>
    attributes.filterMap (directiveBinding settings id value.isSome)
  | some .document | some (.comment _) | none => []

/-- The document after a binding has shown the value of its key. -/
def Document.showBinding (store : Store) (doc : Document) (b : Binding) : Document :=
  match b.change? (shownText (store.get? b.key)) with
  | some change => doc.perform change
  | none => doc

/-- A walk that went on to find bindings, each shown at once, and to ask nodes for children. -/
def Compilation.extended (c : Compilation) (store : Store) (found : List Binding)
    (asked : List NodeId) : Compilation where
  doc := found.foldl (Document.showBinding store) c.doc
  bindings := c.bindings ++ found
  modelInputs := c.modelInputs ++ found.filterMap Binding.modelInput?
  visited := asked ++ c.visited

/-- Nodes that are the same in two documents, apart from their parents. -/
def Document.SameAt (a b : Document) (id : NodeId) : Prop :=
  a.content? id = b.content? id ∧ a.children id = b.children id

/-! ## Directives -/

theorem Directive.ofName_eq_iff (name : String) (d : Directive)
    (hd : d = .text ∨ d = .model) : Directive.ofName name = d ↔ name = d.name := by
  unfold Directive.ofName
  constructor
  · intro h
    split at h
    · rename_i hname
      rw [← h, hname]
      rfl
    split at h
    · rename_i hname
      rw [← h, hname]
      rfl
    · rcases hd with rfl | rfl <;> exact absurd h (by simp)
  · rintro rfl
    rcases hd with rfl | rfl <;> simp [Directive.name]

/-- The name of a directive attribute is the start with the name of the directive behind it. -/
theorem Directive.ofAttribute?_eq_some_iff (name start : String) (d : Directive)
    (hd : d = .text ∨ d = .model) :
    Directive.ofAttribute? name start = some d ↔ start ≠ "" ∧ name = start ++ d.name := by
  unfold Directive.ofAttribute?
  by_cases hstart : start = ""
  · simp [hstart]
  · have hlist : start.toList.isEmpty = false := by simp [hstart]
    simp only [hlist, Bool.false_eq_true, if_false, Option.map_eq_some_iff,
      Text.dropStart?_eq_some, Directive.ofName_eq_iff _ d hd, ne_eq, hstart, not_false_eq_true,
      true_and]
    constructor
    · rintro ⟨rest, hname, hd⟩
      apply String.toList_inj.mp
      rw [hname, String.toList_append, ← hd, String.toList_ofList]
    · intro hname
      refine ⟨d.name.toList, ?_, String.ofList_toList⟩
      rw [hname, String.toList_append]

namespace Compilation

@[simp] theorem extended_nil (c : Compilation) (store : Store) : c.extended store [] [] = c := by
  simp [extended]

private theorem extended_extended (c : Compilation) (store : Store) (a b : List Binding)
    (x y : List NodeId) :
    (c.extended store a x).extended store b y = c.extended store (a ++ b) (y ++ x) := by
  simp [extended]

private theorem bind_eq_extended (c : Compilation) (store : Store) (b : Binding)
    (hb : b.modelInput? = none) : c.bind store b = c.extended store [b] [] := by
  simp only [bind, extended, List.foldl_cons, List.foldl_nil, List.filterMap_cons, hb,
    List.filterMap_nil, List.append_nil, List.nil_append]
  rfl

private theorem visitAttribute_eq (settings : Settings) (store : Store) (id : NodeId)
    (c : Compilation) (a : Attribute) :
    visitAttribute settings store id c a =
      c.extended store (directiveBinding settings id (c.doc.supportsValue id) a).toList [] := by
  have htext := Directive.ofAttribute?_eq_some_iff a.name settings.directiveStart .text (by simp)
  have hmodel := Directive.ofAttribute?_eq_some_iff a.name settings.directiveStart .model (by simp)
  unfold visitAttribute directiveBinding
  by_cases hkey : Text.trim a.value = ""
  · simp only [hkey]
    split <;> simp
  have hkeep : (Text.trim a.value).isEmpty = false := by simp [hkey]
  cases hd : Directive.ofAttribute? a.name settings.directiveStart with
  | none =>
    rw [hd] at htext hmodel
    simp_all [Directive.name]
  | some d =>
    cases d with
    | text =>
      obtain ⟨hstart, hname⟩ := htext.mp hd
      simp only [Directive.name] at hname
      simp only [hkeep, hkey, hstart, hname]
      simpa using bind_eq_extended c store (.text id (Text.trim a.value)) rfl
    | model =>
      obtain ⟨hstart, hname⟩ := hmodel.mp hd
      simp only [Directive.name] at hname
      have hother : ¬ a.name = settings.directiveStart ++ "text" := by simp [hname]
      cases hvalue : c.doc.supportsValue id with
      | false => simp [hkeep, hother]
      | true =>
        simp only [hkeep, hkey, hstart, hother, ← hname]
        simp [extended, bind, Binding.change?, Binding.modelInput?, Document.showBinding]
    | unknown name =>
      rw [hd] at htext hmodel
      simp_all [Directive.name]

end Compilation

/-! ## What is written on the way -/

private theorem Binding.target?_of_change? {b : Binding} {shown : String} {change : HostChange}
    (h : b.change? shown = some change) : b.target? = some change.node := by
  cases b with
  | interpolation | text | model =>
    rw [← Option.some.inj h]
    rfl
  | watch => simp [Binding.change?] at h

namespace Document

theorem showBinding_eq (store : Store) (doc : Document) (b : Binding) :
    doc.showBinding store b = doc ∨
      ∃ change, b.target? = some change.node ∧ doc.showBinding store b = doc.perform change := by
  unfold showBinding
  split
  · rename_i change hchange
    exact Or.inr ⟨change, Binding.target?_of_change? hchange, rfl⟩
  · exact Or.inl rfl

theorem size_le_showBinding (store : Store) (doc : Document) (b : Binding) :
    doc.size ≤ (doc.showBinding store b).size := by
  rcases showBinding_eq store doc b with h | ⟨change, -, h⟩
  · rw [h]
  · rw [h]
    exact size_le_perform doc change

private theorem supportsValue_showBinding (store : Store) {doc : Document} (b : Binding)
    {id : NodeId} (hlt : id < doc.size) :
    (doc.showBinding store b).supportsValue id = doc.supportsValue id := by
  rcases showBinding_eq store doc b with h | ⟨change, -, h⟩
  · rw [h]
  · rw [h, supportsValue_perform doc change hlt]

private theorem sameAt_showBinding (store : Store) {doc : Document} {b : Binding} {id : NodeId}
    (hlt : id < doc.size) (hb : b.target? ≠ some id) : (doc.showBinding store b).SameAt doc id := by
  rcases showBinding_eq store doc b with h | ⟨change, htarget, h⟩
  · rw [h]
    exact ⟨rfl, rfl⟩
  · have hne : id ≠ change.node := by
      rintro rfl
      exact hb htarget
    rw [h]
    exact ⟨content?_perform_of_ne doc hne hlt, children_perform_of_ne doc hne⟩

theorem size_le_foldl_showBinding (store : Store) (doc : Document) (found : List Binding) :
    doc.size ≤ (found.foldl (showBinding store) doc).size := by
  induction found generalizing doc with
  | nil => exact Nat.le_refl _
  | cons b rest ih => exact (size_le_showBinding store doc b).trans (ih _)

theorem sameAt_foldl_showBinding (store : Store) {doc : Document} {found : List Binding}
    {id : NodeId} (hlt : id < doc.size) (hfound : ∀ b ∈ found, b.target? ≠ some id) :
    (found.foldl (showBinding store) doc).SameAt doc id := by
  induction found generalizing doc with
  | nil => exact ⟨rfl, rfl⟩
  | cons b rest ih =>
    obtain ⟨hb, hrest⟩ := List.forall_mem_cons.mp hfound
    have hfirst := sameAt_showBinding store hlt hb
    have hlater := ih (hlt.trans_le (size_le_showBinding store doc b)) hrest
    exact ⟨hlater.1.trans hfirst.1, hlater.2.trans hfirst.2⟩

theorem directiveBinding_eq_some {settings : Settings} {id : NodeId} {takesValue : Bool}
    {a : Attribute} {b : Binding} (h : directiveBinding settings id takesValue a = some b) :
    (b = .text id (Text.trim a.value) ∧ a.name = settings.directiveStart ++ "text") ∨
      (b = .model id (Text.trim a.value) ∧ a.name = settings.directiveStart ++ "model" ∧
        takesValue = true) := by
  simp only [directiveBinding] at h
  split at h
  · simp at h
  split at h
  · rename_i hname
    exact Or.inl ⟨(Option.some.inj h).symm, hname⟩
  split at h
  · rename_i hname
    exact Or.inr ⟨(Option.some.inj h).symm, hname⟩
  · simp at h

theorem target?_of_mem_nodeBindings {doc : Document} {settings : Settings} {id : NodeId}
    {b : Binding} (h : b ∈ doc.nodeBindings settings id) : b.target? = some id := by
  unfold nodeBindings at h
  split at h
  · obtain ⟨template, -, rfl⟩ := Option.map_eq_some_iff.mp (Option.mem_toList.mp h)
    rfl
  · obtain ⟨a, -, ha⟩ := List.mem_filterMap.mp h
    rcases directiveBinding_eq_some ha with ⟨rfl, -⟩ | ⟨rfl, -⟩ <;> rfl
  all_goals simp at h

end Document

/-! ## The walk -/

namespace Compilation

private theorem foldl_visitAttribute (settings : Settings) (store : Store)
    (attributes : List Attribute) (c : Compilation) {id : NodeId} (hlt : id < c.doc.size) :
    attributes.foldl (visitAttribute settings store id) c =
      c.extended store
        (attributes.filterMap (directiveBinding settings id (c.doc.supportsValue id))) [] := by
  induction attributes generalizing c with
  | nil => simp
  | cons a rest ih =>
    rw [List.foldl_cons, visitAttribute_eq]
    cases hb : directiveBinding settings id (c.doc.supportsValue id) a with
    | none => simp [hb, ih c hlt]
    | some b =>
      have hsame : (c.extended store [b] []).doc.supportsValue id = c.doc.supportsValue id :=
        Document.supportsValue_showBinding store b hlt
      have hsize : id < (c.extended store [b] []).doc.size :=
        hlt.trans_le (Document.size_le_showBinding store c.doc b)
      rw [Option.toList_some, ih _ hsize, hsame, extended_extended, List.filterMap_cons, hb]
      rfl

private theorem visitNode_eq (settings : Settings) (store : Store) (c : Compilation) (id : NodeId) :
    visitNode settings store c id = c.extended store (c.doc.nodeBindings settings id) [] := by
  unfold visitNode Document.nodeBindings Document.content?
  cases hnode : c.doc.node? id with
  | none => simp
  | some node =>
    cases hcontent : node.content with
    | text data =>
      simp only [hcontent, Option.map_some]
      cases Template.parse? settings.delimiters data with
      | none => simp
      | some template => exact bind_eq_extended c store (.interpolation id template) rfl
    | element tag attributes value =>
      have hvalue : c.doc.supportsValue id = value.isSome := by
        simp [Document.supportsValue, Document.value?, hnode, hcontent, Content.value?]
      simp only [hcontent, Option.map_some]
      rw [foldl_visitAttribute _ _ _ _ (Document.lt_size_of_node? hnode), hvalue]
    | document | comment => simp [hcontent]

theorem nodeBindings_congr {a b : Document} {id : NodeId} (settings : Settings)
    (h : a.content? id = b.content? id) :
    a.nodeBindings settings id = b.nodeBindings settings id := by
  unfold Document.nodeBindings
  rw [h]

private theorem sameAt_extended (settings : Settings) (store : Store) {doc : Document}
    {c : Compilation} {ids : List NodeId} (asked : List NodeId) {id : NodeId}
    (hlt : id < c.doc.size) (hid : id ∉ ids) (hsame : c.doc.SameAt doc id) :
    (c.extended store (ids.flatMap (doc.nodeBindings settings)) asked).doc.SameAt doc id := by
  have hkept : (c.extended store (ids.flatMap (doc.nodeBindings settings)) asked).doc.SameAt
      c.doc id := by
    apply Document.sameAt_foldl_showBinding store hlt
    intro b hb htarget
    obtain ⟨other, hother, hb⟩ := List.mem_flatMap.mp hb
    rw [Document.target?_of_mem_nodeBindings hb] at htarget
    exact hid (Option.some.inj htarget ▸ hother)
  exact ⟨hkept.1.trans hsame.1, hkept.2.trans hsame.2⟩

private theorem foldl_walk (settings : Settings) (store : Store) {doc : Document}
    {ids order : List NodeId} (horder : doc.PostOrder ids order) (hnodup : order.Nodup) :
    ∃ asked, asked.Perm order ∧ ∀ (c : Compilation) (depth : Nat), order.length ≤ depth →
      (∀ id ∈ order, id < c.doc.size) → (∀ id ∈ order, c.doc.SameAt doc id) →
        ids.foldl (walk settings store depth) c =
          c.extended store (order.flatMap (doc.nodeBindings settings)) asked := by
  -- On the order: a node that no write has reached so far is still the one of the document.
  induction horder with
  | nil => exact ⟨[], .nil, by simp⟩
  | @cons id ids below rest _ _ ihbelow ihrest =>
    obtain ⟨hnbelow, hnlater, hapart⟩ := List.nodup_append.mp hnodup
    obtain ⟨hidrest, hnrest⟩ := List.nodup_cons.mp hnlater
    have hidbelow : id ∉ below := fun hid => hapart id hid id (by simp) rfl
    obtain ⟨askedBelow, hpermBelow, hwalkBelow⟩ := ihbelow hnbelow
    obtain ⟨askedRest, hpermRest, hwalkRest⟩ := ihrest hnrest
    refine ⟨askedRest ++ (askedBelow ++ [id]), ?_, ?_⟩
    · have hperm := (hpermBelow.append_right [id]).append hpermRest
      rw [List.append_assoc below, List.singleton_append] at hperm
      exact List.perm_append_comm.trans hperm
    intro c depth hdepth hlt hsame
    rw [List.length_append, List.length_cons] at hdepth
    cases depth with
    | zero => omega
    | succ depth =>
      have hid : id < c.doc.size := hlt id (by simp)
      have hentered : { c with visited := id :: c.visited } = c.extended store [] [id] := by
        simp [extended]
      -- What is under the node.
      have hbelow := hwalkBelow (c.extended store [] [id]) depth (by omega)
        (fun x hx => hlt x (by simp [hx])) (fun x hx => hsame x (by simp [hx]))
      rw [extended_extended, List.nil_append] at hbelow
      -- The node itself is as it was.
      have hnode := sameAt_extended settings store (askedBelow ++ [id]) hid hidbelow
        (hsame id (by simp))
      have hwalk : walk settings store (depth + 1) c id =
          c.extended store ((below ++ [id]).flatMap (doc.nodeBindings settings))
            (askedBelow ++ [id]) := by
        rw [walk, hentered, (hsame id (by simp)).2, hbelow, visitNode_eq,
          nodeBindings_congr settings hnode.1, extended_extended]
        simp
      -- What comes after it has not been reached.
      have hrest := hwalkRest
        (c.extended store ((below ++ [id]).flatMap (doc.nodeBindings settings))
          (askedBelow ++ [id])) (depth + 1) (by omega)
        (fun x hx => (hlt x (by simp [hx])).trans_le
          (Document.size_le_foldl_showBinding store c.doc _))
        (fun x hx => by
          apply sameAt_extended settings store _ (hlt x (by simp [hx])) _ (hsame x (by simp [hx]))
          intro hmem
          rcases List.mem_append.mp hmem with hmem | hmem
          · exact hapart x hmem x (by simp [hx]) rfl
          · rw [List.mem_singleton.mp hmem] at hx
            exact hidrest hx)
      rw [List.foldl_cons, hwalk, hrest, extended_extended]
      simp

end Compilation

/-- A walk over a subtree leads to the bindings of the tree as it was before, each shown once, and
asks each node of the subtree for its children. No walk needs to go deeper than there are nodes. -/
theorem walk_eq_extended {doc : Document} (hwf : doc.WellFormed) (store : Store)
    (settings : Settings) (root : NodeId) :
    ∃ order asked, doc.PostOrder [root] order ∧ asked.Perm order ∧ ∀ depth, doc.size ≤ depth →
      Compilation.walk settings store depth { doc } root =
        ({ doc } : Compilation).extended store (order.flatMap (doc.nodeBindings settings)) asked := by
  obtain ⟨order, horder⟩ := hwf.exists_postOrder [root]
  by_cases hroot : root < doc.size
  · have hlt := horder.lt_size hwf (by simpa using hroot)
    have hnodup := horder.nodup_singleton hwf
    obtain ⟨asked, hperm, hwalk⟩ := Compilation.foldl_walk settings store horder hnodup
    have hlength := Document.length_le_size_of_nodup hnodup hlt
    exact ⟨order, asked, horder, hperm, fun depth hdepth =>
      hwalk { doc } depth (hlength.trans hdepth) hlt fun _ _ => ⟨rfl, rfl⟩⟩
  · -- An unknown node has no children and asks for no bindings.
    have hnode : doc.node? root = none := by simpa [Document.node?, Document.size] using hroot
    have hchildren : doc.children root = [] := by rw [Document.children_eq, hnode]; rfl
    have hsingle : doc.PostOrder [root] [root] := by
      have hbelow : doc.PostOrder (doc.children root) [] := by
        rw [hchildren]
        exact .nil
      exact .cons hbelow .nil
    refine ⟨[root], [root], hsingle, .refl _, fun depth hdepth => ?_⟩
    obtain ⟨depth, rfl⟩ := Nat.exists_eq_add_one_of_ne_zero
      (Nat.ne_of_gt ((Nat.pos_of_ne_zero (Nat.ne_of_gt hwf.root_lt_size)).trans_le hdepth))
    rw [Compilation.walk, hchildren]
    simp [Compilation.visitNode, Compilation.extended, Document.nodeBindings, Document.content?,
      hnode]

theorem compile_eq_extended {doc : Document} (hwf : doc.WellFormed) (store : Store)
    (settings : Settings) (root : NodeId) :
    ∃ order asked, doc.PostOrder [root] order ∧ asked.Perm order ∧
      compile doc store settings root =
        ({ doc } : Compilation).extended store (order.flatMap (doc.nodeBindings settings)) asked := by
  obtain ⟨order, asked, horder, hperm, hwalk⟩ := walk_eq_extended hwf store settings root
  exact ⟨order, asked, horder, hperm, hwalk _ (Nat.le_refl _)⟩

/-- A deeper walk finds and does nothing more. -/
theorem walk_eq_compile {doc : Document} (hwf : doc.WellFormed) (store : Store)
    (settings : Settings) (root : NodeId) {depth : Nat} (hdepth : doc.size ≤ depth) :
    Compilation.walk settings store depth { doc } root = compile doc store settings root := by
  obtain ⟨order, asked, -, -, hwalk⟩ := walk_eq_extended hwf store settings root
  exact (hwalk depth hdepth).trans (hwalk _ (Nat.le_refl _)).symm

theorem modelInputs_compile {doc : Document} (hwf : doc.WellFormed) (store : Store)
    (settings : Settings) (root : NodeId) :
    (compile doc store settings root).modelInputs =
      (compile doc store settings root).bindings.filterMap Binding.modelInput? := by
  obtain ⟨order, asked, -, -, hcompile⟩ := compile_eq_extended hwf store settings root
  simp [hcompile, Compilation.extended]

/-- The walk finds the bindings of the subtree as it was before, children before their parents and
in the order of the attributes, lists the model bindings among them as inputs, and asks each node of
the subtree for its children once, and no other node. -/
theorem compile_discovers {doc : Document} (hdoc : doc.Reachable) (store : Store)
    (settings : Settings) (root : NodeId) :
    ∃ order, doc.PostOrder [root] order ∧ order.Nodup ∧ (∀ id, id ∈ order ↔ doc.Under id root) ∧
      (compile doc store settings root).bindings = order.flatMap (doc.nodeBindings settings) ∧
      (compile doc store settings root).modelInputs =
        (compile doc store settings root).bindings.filterMap Binding.modelInput? ∧
      (compile doc store settings root).visited.Perm order := by
  have hwf := hdoc.wellFormed
  obtain ⟨order, asked, horder, hperm, hcompile⟩ := compile_eq_extended hwf store settings root
  refine ⟨order, horder, horder.nodup_singleton hwf, ?_, ?_, ?_, ?_⟩
  · intro id
    simpa using horder.mem_iff hwf id
  · simp [hcompile, Compilation.extended]
  · exact modelInputs_compile hwf store settings root
  · simpa [hcompile, Compilation.extended] using hperm

/-- A paragraph that shows a name, and a text that greets it. -/
def Document.greeting : Document :=
  ((Document.empty.appendElement Document.root "p" [⟨"v-text", "name"⟩]).1.appendText
    Document.root "Hi \x7b\x7bname\x7d\x7d").1

theorem greeting_discovered :
    ∃ order, Document.greeting.PostOrder [Document.root] order ∧ order.Nodup ∧
      (∀ id, id ∈ order ↔ Document.greeting.Under id Document.root) ∧
      [.text 1 "name", .interpolation 2 ⟨"Hi ", "\x7b\x7bname\x7d\x7d", "name", ""⟩] =
        order.flatMap (Document.greeting.nodeBindings {}) ∧
      (compile .greeting .empty {} Document.root).modelInputs =
        (compile .greeting .empty {} Document.root).bindings.filterMap Binding.modelInput? ∧
      (compile .greeting .empty {} Document.root).visited.Perm order := by
  have hdoc : Document.greeting.Reachable := .appendText _ _ (.appendElement _ _ _ .empty)
  have hbindings : (compile .greeting .empty {} Document.root).bindings =
      [.text 1 "name", .interpolation 2 ⟨"Hi ", "\x7b\x7bname\x7d\x7d", "name", ""⟩] := by
    decide +kernel
  rw [← hbindings]
  exact compile_discovers hdoc .empty {} Document.root

end ViewBinding
