import Mathlib
import ViewBinding.Proofs.Document.Bounds
import ViewBinding.Proofs.Markup.RoundTrip

/-!
# Which directives are found

A document keeps the names of attributes in small letters, and a walk looks for the start of a
directive as it was configured. So a start without capitals is met by every attribute that was
written with it, and a start with a capital by none (`directive_found_iff`).
-/

namespace ViewBinding

/-! ## Names in small letters -/

private theorem Text.lowercase_append (a b : String) :
    Text.lowercase (a ++ b) = Text.lowercase a ++ Text.lowercase b := by
  simp [Text.lowercase, String.toList_append, List.map_append, String.ofList_append]

theorem Text.lowercase_append_eq_self_iff (a b : String) :
    Text.lowercase (a ++ b) = a ++ b ↔ Text.lowercase a = a ∧ Text.lowercase b = b := by
  have hlength : (Text.lowercase a).toList.length = a.toList.length := by simp [Text.lowercase]
  rw [Text.lowercase_append]
  constructor
  · intro h
    have hlists := congrArg String.toList h
    rw [String.toList_append, String.toList_append] at hlists
    obtain ⟨ha, hb⟩ := List.append_inj hlists hlength
    exact ⟨String.toList_inj.mp ha, String.toList_inj.mp hb⟩
  · rintro ⟨ha, hb⟩
    rw [ha, hb]

namespace Document

variable {doc after : Document} {settings : Settings} {id : NodeId}

/-- An attribute that was just set is read under its name in small letters. -/
theorem mem_attributes_of_attribute? {name value : String}
    (h : doc.attribute? id name = some value) : ⟨name, value⟩ ∈ doc.attributes id := by
  obtain ⟨a, ha, rfl⟩ := Option.map_eq_some_iff.mp h
  have hname : a.name = name := by simpa using List.find?_some ha
  subst hname
  exact List.mem_of_find?_eq_some ha

/-! ## The directives of a node -/

private theorem directiveBinding_mem_nodeBindings {a : Attribute} {b : Binding}
    (ha : a ∈ doc.attributes id)
    (hb : directiveBinding settings id (doc.supportsValue id) a = some b) :
    b ∈ doc.nodeBindings settings id := by
  rw [attributes_eq] at ha
  rw [supportsValue, value?_eq] at hb
  unfold nodeBindings
  rcases hcontent : doc.content? id with _ | _ | ⟨tag, attributes, value⟩ | _ | _
  case some.element =>
    rw [hcontent] at ha hb
    exact List.mem_filterMap.mpr ⟨a, ha, hb⟩
  all_goals
    rw [hcontent] at ha
    cases ha

private theorem WellFormed.mem_nodeBindings (hwf : doc.WellFormed) {b : Binding}
    (hb : b ∈ doc.nodeBindings settings id) :
    b.template?.isSome ∨ ∃ d : Directive, (d = .text ∨ d = .model) ∧
      Text.lowercase (settings.directiveStart ++ d.name) = settings.directiveStart ++ d.name := by
  unfold nodeBindings at hb
  split at hb
  · obtain ⟨template, -, rfl⟩ := Option.map_eq_some_iff.mp (Option.mem_toList.mp hb)
    exact Or.inl rfl
  · rename_i tag attributes value hcontent
    obtain ⟨a, ha, hb⟩ := List.mem_filterMap.mp hb
    have hlower : Text.lowercase a.name = a.name := by
      apply (hwf.isForest.named id).2 a
      rw [attributes_eq, hcontent]
      exact ha
    rcases directiveBinding_eq_some hb with ⟨-, hname⟩ | ⟨-, hname, -⟩ <;> rw [hname] at hlower
    · exact Or.inr ⟨.text, Or.inl rfl, hlower⟩
    · exact Or.inr ⟨.model, Or.inr rfl, hlower⟩
  all_goals cases hb

end Document

private theorem mem_bindings_of_mem_nodeBindings {doc : Document} (hdoc : doc.Reachable)
    (store : Store) {settings : Settings} {root id : NodeId} (hid : doc.Under id root) {b : Binding}
    (hb : b ∈ doc.nodeBindings settings id) : b ∈ (compile doc store settings root).bindings := by
  obtain ⟨order, -, -, hunder, hbindings, -⟩ := compile_discovers hdoc store settings root
  rw [hbindings]
  exact List.mem_flatMap.mpr ⟨id, (hunder id).mpr hid, hb⟩

/-- With a capital in the start of directives, templates are all that a walk finds. -/
theorem template_of_lowercase_ne {doc : Document} (hdoc : doc.Reachable) (store : Store)
    {settings : Settings}
    (hcapital : Text.lowercase settings.directiveStart ≠ settings.directiveStart)
    (root : NodeId) {b : Binding} (hb : b ∈ (compile doc store settings root).bindings) :
    b.template?.isSome := by
  obtain ⟨order, -, -, -, hbindings, -⟩ := compile_discovers hdoc store settings root
  rw [hbindings] at hb
  obtain ⟨id, -, hb⟩ := List.mem_flatMap.mp hb
  rcases hdoc.wellFormed.mem_nodeBindings hb with htemplate | ⟨d, -, hlower⟩
  · exact htemplate
  · exact absurd ((Text.lowercase_append_eq_self_iff _ _).mp hlower).1 hcapital

/-- An attribute that was written with the start of directives and `text` or `model`, and with a
value that is not blank, binds its element exactly when the start has no capitals. With a capital in
the start, no directive of the document is found. -/
theorem directive_found_iff {doc : Document} (hdoc : doc.Reachable) (store : Store)
    {settings : Settings} (hstart : settings.directiveStart ≠ "") {root id : NodeId}
    (hid : doc.Under id root) :
    (∀ value, Text.trim value ≠ "" →
      doc.attribute? id (Text.lowercase (settings.directiveStart ++ "text")) = some value →
        (.text id (Text.trim value) ∈ (compile doc store settings root).bindings ↔
          Text.lowercase settings.directiveStart = settings.directiveStart)) ∧
    (∀ value, Text.trim value ≠ "" → doc.supportsValue id = true →
      doc.attribute? id (Text.lowercase (settings.directiveStart ++ "model")) = some value →
        (.model id (Text.trim value) ∈ (compile doc store settings root).bindings ↔
          Text.lowercase settings.directiveStart = settings.directiveStart)) ∧
    (Text.lowercase settings.directiveStart ≠ settings.directiveStart →
      ∀ b ∈ (compile doc store settings root).bindings, b.template?.isSome) := by
  have htext : Text.lowercase "text" = "text" := by decide
  have hmodel : Text.lowercase "model" = "model" := by decide
  have hfound : ∀ (name value : String) (b : Binding), Text.lowercase name = name →
      doc.attribute? id (Text.lowercase (settings.directiveStart ++ name)) = some value →
      directiveBinding settings id (doc.supportsValue id)
        ⟨settings.directiveStart ++ name, value⟩ = some b → b.template? = none →
      (b ∈ (compile doc store settings root).bindings ↔
        Text.lowercase settings.directiveStart = settings.directiveStart) := by
    intro name value b hname hwritten hb hkind
    constructor
    · intro hmem
      by_contra hcapital
      have htemplate := template_of_lowercase_ne hdoc store hcapital root hmem
      simp [hkind] at htemplate
    · intro hlower
      rw [(Text.lowercase_append_eq_self_iff _ _).mpr ⟨hlower, hname⟩] at hwritten
      have hmem := Document.mem_attributes_of_attribute? hwritten
      exact mem_bindings_of_mem_nodeBindings hdoc store hid
        (Document.directiveBinding_mem_nodeBindings hmem hb)
  refine ⟨?_, ?_, fun hcapital b => template_of_lowercase_ne hdoc store hcapital root⟩
  · intro value hvalue hwritten
    refine hfound "text" value _ htext hwritten ?_ rfl
    simp [directiveBinding, hstart, hvalue]
  · intro value hvalue hinput hwritten
    refine hfound "model" value _ hmodel hwritten ?_ rfl
    simp [directiveBinding, hstart, hvalue, hinput]

/-- A paragraph whose directive is written with a capital. -/
def Document.capitalDirective : Document :=
  (Document.empty.appendElement Document.root "p" [⟨"V-text", "name"⟩]).1

theorem capitalDirective_found_iff :
    (.text 1 "name" ∈ (compile .capitalDirective .empty {} Document.root).bindings ↔
      Text.lowercase "v-" = "v-") := by
  have hdoc : Document.capitalDirective.Reachable := .appendElement _ _ _ .empty
  have hparent : Document.capitalDirective.parent? 1 = some Document.root := by decide +kernel
  have hattribute : Document.capitalDirective.attribute? 1 (Text.lowercase ("v-" ++ "text")) =
      some "name" := by
    decide +kernel
  have htrim : Text.trim "name" = "name" := by decide +kernel
  have hfound := (directive_found_iff hdoc .empty
    (by decide : ({} : Settings).directiveStart ≠ "") (.single hparent)).1 "name"
      (by rw [htrim]; decide) hattribute
  rwa [htrim] at hfound

/-- The markup says `V-text` and so do the settings, yet the element is not bound. -/
theorem capital_start_not_found :
    Markup.IsAttributeName "V-" ∧
      Document.parse "<p V-text=\"name\"></p>" = .ok Document.capitalDirective ∧
      Document.capitalDirective.kind 1 = .element ∧
      Document.capitalDirective.Under 1 Document.root ∧
      Text.trim "name" ≠ "" ∧
      (compile .capitalDirective .empty { directiveStart := "V-" } Document.root).bindings =
        [] := by
  have hparent : Document.capitalDirective.parent? 1 = some Document.root := by decide +kernel
  refine ⟨by decide +kernel, by decide +kernel, by decide +kernel, .single hparent,
    by decide +kernel, by decide +kernel⟩

end ViewBinding
