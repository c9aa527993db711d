import Mathlib
import ViewBinding.Proofs.View.Mounting

/-!
# Inputs and their bindings

Whatever happens, a view model that listens to an input keeps its model binding of that input until
it is disposed of, and under each key the bindings that it was mounted with come before the watchers
(`Attached`). So a pass has called no watcher yet when it comes to the model binding of an input.
-/

namespace ViewBinding

/-- Under every key stand bindings that write to different cells, and watchers behind them; what
waits to be registered only watches. -/
structure View.Layered (v : View) : Prop where
  deferred : ∀ b ∈ v.deferred, b.isWatch = true
  watchers : ∀ key, ∃ shown watching, v.registry.watchers key = shown ++ watching ∧
    (∀ b ∈ shown, b.isWatch = false) ∧ (shown.Pairwise fun a b => a.cell? ≠ b.cell?) ∧
      ∀ b ∈ watching, b.isWatch = true

/-- A binding is kept under a key, unless the view model is disposed of. -/
def View.Holds (v : View) (key : String) (b : Binding) : Prop :=
  v.disposed = true ∨ b ∈ v.registry.watchers key

/-- Only watchers are added to a view model, or it is disposed of. -/
structure View.Widens (v after : View) : Prop where
  layered : v.Layered → after.Layered
  holds : ∀ key b, v.Holds key b → after.Holds key b

namespace View

variable {v : View}

private theorem widens_of_eq {after : View} (hregistry : after.registry = v.registry)
    (hdeferred : after.deferred = v.deferred) (hdisposed : after.disposed = v.disposed) :
    v.Widens after := by
  refine ⟨fun h => ⟨?_, ?_⟩, fun key b hb => ?_⟩
  · rw [hdeferred]
    exact h.deferred
  · rw [hregistry]
    exact h.watchers
  · rwa [Holds, hregistry, hdisposed]

private theorem Layered.addAll (h : v.Layered) {more : List Binding}
    (hmore : ∀ b ∈ more, b.isWatch = true) (key : String) : ∃ shown watching,
      (v.registry.addAll (more.map fun b => (b.key, b))).watchers key = shown ++ watching ∧
        (∀ b ∈ shown, b.isWatch = false) ∧ (shown.Pairwise fun a b => a.cell? ≠ b.cell?) ∧
          ∀ b ∈ watching, b.isWatch = true := by
  obtain ⟨shown, watching, heq, hshown, hapart, hwatching⟩ := h.watchers key
  refine ⟨shown, watching ++ more.filter fun b => b.key == key, ?_, hshown, hapart, ?_⟩
  · rw [Registry.watchers_addAll, heq, List.filter_map, List.map_map, List.append_assoc]
    simp [Function.comp_def]
  · intro b hb
    rcases List.mem_append.mp hb with hb | hb
    · exact hwatching b hb
    · exact hmore b (List.mem_filter.mp hb).1

private theorem mem_watchers_addAll {registry : Registry Binding} {key : String} {b : Binding}
    (h : b ∈ registry.watchers key) (more : List (String × Binding)) :
    b ∈ (registry.addAll more).watchers key := by
  rw [Registry.watchers_addAll]
  exact List.mem_append_left _ h

theorem widens_register (v : View) {b : Binding} (hb : b.isWatch = true) :
    v.Widens (v.register b) := by
  have hone : v.registry.add b.key b = v.registry.addAll ([b].map fun b => (b.key, b)) := rfl
  unfold register
  split
  · refine ⟨fun h => ⟨h.deferred, fun key => ?_⟩, fun key c hc => ?_⟩
    · rw [hone]
      exact h.addAll (by simpa using hb) key
    · rw [hone]
      exact hc.imp_right fun hc => mem_watchers_addAll hc _
  · refine ⟨fun h => ⟨fun c hc => ?_, h.watchers⟩, fun _ _ => id⟩
    rcases List.mem_append.mp hc with hc | hc
    · exact h.deferred c hc
    · rwa [List.mem_singleton.mp hc]

private theorem widens_dispose (v : View) : v.Widens v.dispose := by
  refine ⟨fun h => ⟨by simp [dispose], fun key => ?_⟩, fun _ _ _ => Or.inl rfl⟩
  unfold dispose
  dsimp only
  split
  · exact ⟨[], [], rfl, by simp, .nil, by simp⟩
  · exact h.watchers key

private theorem widens_settle (v : View) : v.Widens v.settle := by
  unfold settle
  split
  · exact widens_of_eq rfl rfl rfl
  split
  · rename_i hdisposed
    refine ⟨fun _ => ⟨by simp, fun key => ?_⟩, fun _ _ _ => Or.inl hdisposed⟩
    exact ⟨[], [], rfl, by simp, .nil, by simp⟩
  · refine ⟨fun h => ⟨by simp, h.addAll h.deferred⟩, fun key b hb => ?_⟩
    exact hb.imp_right fun hb => mem_watchers_addAll hb _

theorem Widens.trans {a b c : View} (hab : a.Widens b) (hbc : b.Widens c) : a.Widens c :=
  ⟨hbc.layered ∘ hab.layered, fun key e he => hbc.holds key e (hab.holds key e he)⟩

theorem Notified.widens {f : View → View} (hf : Notified f) (v : View) : v.Widens (f v) := by
  cases hf with
  | beginFrame | beginPass | endPass | clear => exact widens_of_eq rfl rfl rfl
  | fold key =>
    obtain ⟨dirty, h⟩ := v.markDirty_eq key
    dsimp only
    rw [h]
    exact widens_of_eq rfl rfl rfl
  | endFrame =>
    have htail : v.Widens { v with inFlight := v.inFlight.tail } := widens_of_eq rfl rfl rfl
    exact htail.trans (widens_settle _)

theorem Change.widens {f : View → View} (hf : Change f) (v : View) : v.Widens (f v) := by
  cases hf with
  | pins | store => exact widens_of_eq rfl rfl rfl
  | dispose => exact widens_dispose v

theorem layered_mounted (root : NodeId) (settings : Settings) (store : Store)
    {bindings : List Binding} (hbindings : ∀ b ∈ bindings, b.isWatch = false)
    (hapart : bindings.Pairwise fun a b => a.cell? ≠ b.cell?) :
    (mounted root settings store bindings).Layered := by
  refine ⟨by simp [mounted], fun key => ⟨bindings.filter fun b => b.key == key, [], ?_, ?_, ?_, ?_⟩⟩
  · rw [mounted, Registry.watchers_addAll, List.filter_map, List.map_map]
    simp [Function.comp_def]
  · exact fun b hb => hbindings b (List.mem_filter.mp hb).1
  · exact hapart.filter _
  · simp

theorem mem_watchers_mounted (root : NodeId) (settings : Settings) (store : Store)
    {bindings : List Binding} {b : Binding} (hb : b ∈ bindings) :
    b ∈ (mounted root settings store bindings).registry.watchers b.key := by
  rw [mounted, Registry.watchers_addAll, List.filter_map, List.map_map]
  simp [Function.comp_def, hb]

/-- A binding that does not write the value of a node is not its model binding. -/
theorem isModelOf_eq_false {b : Binding} {node : NodeId} (h : b.cell? ≠ some (.value node)) :
    b.isModelOf node = false := by
  cases b with
  | model other key =>
    refine beq_false_of_ne ?_
    rintro rfl
    exact h rfl
  | interpolation | text | watch => rfl

/-- What stands before the model binding of an input, and behind it, under its key. -/
theorem Layered.split (h : v.Layered) {node : NodeId} {key : String}
    (hmem : .model node key ∈ v.registry.watchers key) :
    ∃ before behind, v.registry.watchers key = before ++ .model node key :: behind ∧
      (∀ b ∈ before, b.isWatch = false ∧ b.cell? ≠ some (.value node)) ∧
        ∀ b ∈ behind, b.isModelOf node = false := by
  obtain ⟨shown, watching, heq, hshown, hapart, hwatching⟩ := h.watchers key
  rw [heq, List.mem_append] at hmem
  have hmodel : .model node key ∈ shown := by
    refine hmem.resolve_right fun hwatch => ?_
    have hnone := hwatching _ hwatch
    cases hnone
  obtain ⟨before, rest, rfl⟩ := List.append_of_mem hmodel
  obtain ⟨-, hrest, hbetween⟩ := List.pairwise_append.mp hapart
  refine ⟨before, rest ++ watching, by simp [heq], fun b hb => ⟨hshown b (by simp [hb]), ?_⟩, ?_⟩
  · exact hbetween b hb _ List.mem_cons_self
  · intro b hb
    rcases List.mem_append.mp hb with hb | hb
    · exact isModelOf_eq_false (Ne.symm ((List.pairwise_cons.mp hrest).1 b hb))
    · cases b with
      | watch => rfl
      | interpolation | text | model => exact nomatch hwatching _ hb

end View

namespace World

/-- The document was made by operations, and the view models that listen to inputs have not lost
their bindings. -/
structure Attached (w : World) : Prop where
  doc : w.doc.Reachable
  layered : ∀ (id : ViewId) (view : View), w.views[id]? = some view → view.Layered
  inputs : ∀ node id key, (node, .model id key) ∈ w.listeners → w.doc.supportsValue node = true ∧
    ∃ view, w.views[id]? = some view ∧ view.Holds key (.model node key)

variable {w after : World}

theorem Attached.host (h : w.Attached) (hhost : w.HostChanged after) : after.Attached := by
  obtain ⟨new, hlisteners, hnew⟩ := hhost.listeners
  refine ⟨hhost.doc.reachable h.doc, by rw [hhost.views]; exact h.layered, ?_⟩
  intro node id key hmem
  rw [hlisteners, List.mem_append] at hmem
  rcases hmem with hmem | hmem
  · obtain ⟨hvalue, hview⟩ := h.inputs node id key hmem
    rw [hhost.views]
    exact ⟨hhost.doc.supportsValue hvalue, hview⟩
  · obtain ⟨callback, hcallback⟩ := hnew _ hmem
    cases hcallback

theorem Attached.emit (h : w.Attached) (e : Event) : (w.emit e).Attached :=
  ⟨h.doc, h.layered, h.inputs⟩

theorem Attached.withDoc (h : w.Attached) {doc : Document} (hdoc : w.doc.Edits doc) :
    (w.withDoc doc).Attached :=
  h.host (hostChanged_of_doc rfl rfl rfl hdoc)

theorem Attached.perform (h : w.Attached) (change : HostChange) : (w.perform change).Attached :=
  (h.emit (.changed change)).withDoc (Document.edits_perform w.doc change)

theorem Attached.modifyView (h : w.Attached) (id : ViewId) {f : View → View}
    (hf : ∀ v : View, v.Widens (f v)) : (w.modifyView id f).Attached := by
  have hviews : ∀ (other : ViewId) (view : View), w.views[other]? = some view →
      ∃ view' : View, (w.modifyView id f).views[other]? = some view' ∧ view.Widens view' := by
    intro other view hview
    rw [World.modifyView, Array.getElem?_modify]
    split
    · exact ⟨f view, by rw [hview]; rfl, hf view⟩
    · exact ⟨view, hview, View.widens_of_eq rfl rfl rfl⟩
  refine ⟨h.doc, fun other view' hview' => ?_, fun node other key hmem => ?_⟩
  · have hold : ∃ view, w.views[other]? = some view := by
      cases hview : w.views[other]? with
      | none => simp [World.modifyView, Array.getElem?_modify, hview] at hview'
      | some view => exact ⟨view, rfl⟩
    obtain ⟨view, hview⟩ := hold
    obtain ⟨view'', hview'', hwidens⟩ := hviews other view hview
    rw [hview'] at hview''
    rw [Option.some.inj hview'']
    exact hwidens.layered (h.layered other view hview)
  · obtain ⟨hvalue, view, hview, hholds⟩ := h.inputs node other key hmem
    obtain ⟨view', hview', hwidens⟩ := hviews other view hview
    exact ⟨hvalue, view', hview', hwidens.holds key _ hholds⟩

/-- A view model is put behind the others. -/
theorem Attached.push (h : w.Attached) {doc : Document} (hdoc : w.doc.Edits doc) {view : View}
    (hview : view.Layered) : World.Attached { w with doc, views := w.views.push view } := by
  refine ⟨hdoc.reachable h.doc, fun id other hother => ?_, fun node id key hmem => ?_⟩
  · rw [Array.getElem?_push] at hother
    split at hother
    · rwa [← Option.some.inj hother]
    · exact h.layered id other hother
  · obtain ⟨hvalue, other, hother, hholds⟩ := h.inputs node id key hmem
    refine ⟨hdoc.supportsValue hvalue, other, ?_, hholds⟩
    have hlt := (Array.getElem?_eq_some_iff.mp hother).1
    rw [Array.getElem?_push, if_neg (Nat.ne_of_lt hlt), hother]

/-- A view model that has the model binding of an input listens to it. -/
theorem Attached.listen (h : w.Attached) {node : NodeId} {id : ViewId} {key : String}
    (hvalue : w.doc.supportsValue node = true) {view : View} (hview : w.views[id]? = some view)
    (hholds : view.Holds key (.model node key)) : (w.listen node (.model id key)).Attached := by
  unfold World.listen
  split
  · refine ⟨h.doc, h.layered, fun other id' key' hmem => ?_⟩
    rcases List.mem_append.mp hmem with hmem | hmem
    · exact h.inputs other id' key' hmem
    · obtain ⟨rfl, hlistener⟩ := Prod.mk.inj (List.mem_singleton.mp hmem)
      obtain ⟨rfl, rfl⟩ := Listener.model.inj hlistener
      exact ⟨hvalue, view, hview, hholds⟩
  · exact h

end World
end ViewBinding
