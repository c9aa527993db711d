import Mathlib
import ViewBinding.Proofs.Document.Redrawing
import ViewBinding.Proofs.View.Bookkeeping
import ViewBinding.Proofs.View.Mounting
import ViewBinding.Proofs.View.Upheld

/-!
# Bindings fit their nodes

No operation on a document takes a node away or makes it another kind of node. So a binding that was
found on a node can write to it ever after, wherever the node has been put meanwhile (`Fitted`).
-/

namespace ViewBinding

/-! ## Nodes keep their kind -/

namespace Document

variable {doc after : Document} {b : Binding}

private theorem kind_setAttribute {node : NodeId} {name value : String}
    (h : doc.setAttribute node name value = .ok after) (id : NodeId) :
    after.kind id = doc.kind id := by
  rw [eq_of_setAttribute h, kind_eq, kind_eq, content?_modifyContent]
  split
  · rename_i hid
    subst hid
    rcases doc.content? node with _ | _ | _ | _ | _ <;> rfl
  · rfl

private theorem kind_create_of_lt (content : Content) {id : NodeId} (hid : id < doc.size) :
    (doc.create content).1.kind id = doc.kind id := by
  rw [kind_eq, kind_eq, content?_create, if_neg (Nat.ne_of_lt hid)]

private theorem Edit.size_le (h : doc.Edit after) : doc.size ≤ after.size := by
  cases h with
  | createElement | createText | createComment => exact (size_create doc _).ge.trans' (Nat.le_succ _)
  | appendChild happend => simp [eq_of_appendChild happend]
  | setAttribute hset => simp [eq_of_setAttribute hset]
  | setTextContent id text => exact size_le_setTextContent doc id text
  | setValue id value => exact (size_setValue doc id value).ge

private theorem Edit.kind (h : doc.Edit after) {id : NodeId} (hid : id < doc.size) :
    after.kind id = doc.kind id := by
  cases h with
  | createElement | createText | createComment => exact kind_create_of_lt _ hid
  | appendChild happend => simp [eq_of_appendChild happend, kind_eq]
  | setAttribute hset => exact kind_setAttribute hset id
  | setTextContent node text => exact kind_setTextContent doc hid node text
  | setValue node value => exact kind_setValue doc node value id

private theorem Edits.size_le (h : doc.Edits after) : doc.size ≤ after.size := by
  induction h with
  | refl => exact le_rfl
  | tail _ hedit ih => exact ih.trans hedit.size_le

private theorem Edits.kind (h : doc.Edits after) {id : NodeId} (hid : id < doc.size) :
    after.kind id = doc.kind id := by
  induction h with
  | refl => rfl
  | tail hedits hedit ih => exact (hedit.kind (hid.trans_le (Edits.size_le hedits))).trans ih

private theorem Edits.fits (h : doc.Edits after) {old : Nat} (hold : old ≤ doc.size)
    (hfits : b.Fits doc old) : b.Fits after old := by
  cases b with
  | interpolation | text => exact ⟨hfits.1, (h.kind (hfits.1.trans_le hold)).trans hfits.2⟩
  | model => exact ⟨hfits.1, h.supportsValue hfits.2⟩
  | watch => exact hfits

end Document

/-! ## The bindings of a view model -/

namespace View

/-- A view model has a binding, registered or waiting to be. -/
def Has (v : View) (b : Binding) : Prop :=
  b ∈ v.deferred ∨ ∃ key, b ∈ v.registry.watchers key

variable {v : View} {b c : Binding}

private theorem has_of_mem_addAll {registry : Registry Binding} {more : List Binding} {key : String}
    (h : c ∈ (registry.addAll (more.map fun b => (b.key, b))).watchers key) :
    c ∈ registry.watchers key ∨ c ∈ more := by
  rw [Registry.watchers_addAll, List.mem_append] at h
  refine h.imp_right fun h => ?_
  obtain ⟨entry, hentry, rfl⟩ := List.mem_map.mp h
  obtain ⟨b, hb, rfl⟩ := List.mem_map.mp (List.mem_filter.mp hentry).1
  exact hb

private theorem has_mounted {root : NodeId} {settings : Settings} {store : Store}
    {bindings : List Binding} (h : (mounted root settings store bindings).Has c) :
    c ∈ bindings := by
  rcases h with h | ⟨key, h⟩
  · cases h
  · exact (has_of_mem_addAll h).resolve_left List.not_mem_nil

private theorem has_register (h : (v.register b).Has c) : c = b ∨ v.Has c := by
  unfold register at h
  split at h
  · rcases h with h | ⟨key, h⟩
    · exact Or.inr (Or.inl h)
    · have hone : v.registry.add b.key b = v.registry.addAll ([b].map fun b => (b.key, b)) := rfl
      rw [hone] at h
      rcases has_of_mem_addAll h with h | h
      · exact Or.inr (Or.inr ⟨key, h⟩)
      · exact Or.inl (List.mem_singleton.mp h)
  · rcases h with h | h
    · rcases List.mem_append.mp h with h | h
      · exact Or.inr (Or.inl h)
      · exact Or.inl (List.mem_singleton.mp h)
    · exact Or.inr (Or.inr h)

private theorem has_settle (h : v.settle.Has c) : v.Has c := by
  unfold settle at h
  split at h
  · exact h
  split at h
  · rcases h with h | ⟨key, h⟩ <;> cases h
  · rcases h with h | ⟨key, h⟩
    · cases h
    · exact (has_of_mem_addAll h).elim (fun h => Or.inr ⟨key, h⟩) Or.inl

private theorem Notified.has {f : View → View} (hf : Notified f) (h : (f v).Has c) : v.Has c := by
  cases hf with
  | beginFrame | beginPass | endPass | clear => exact h
  | fold key =>
    obtain ⟨dirty, hdirty⟩ := v.markDirty_eq key
    dsimp only at h
    rwa [hdirty] at h
  | endFrame => exact has_settle (v := { v with inFlight := v.inFlight.tail }) h

private theorem Change.has {f : View → View} (hf : Change f) (h : (f v).Has c) : v.Has c := by
  cases hf with
  | pins | store => exact h
  | dispose =>
    rcases h with h | ⟨key, h⟩
    · cases h
    · simp only [View.dispose] at h
      split at h
      · cases h
      · exact Or.inr ⟨key, h⟩

end View

/-! ## In all worlds -/

namespace World

/-- The document was made by operations, and the bindings of all view models can write. -/
structure Fitted (w : World) : Prop where
  doc : w.doc.Reachable
  fits : ∀ (id : ViewId) (view : View), w.views[id]? = some view →
    ∀ b, view.Has b → b.Fits w.doc w.doc.size

variable {w after : World}

private theorem Fitted.edits (h : w.Fitted) (hdoc : w.doc.Edits after.doc)
    (hviews : after.views = w.views) : after.Fitted where
  doc := hdoc.reachable h.doc
  fits id view hview b hb :=
    (hdoc.fits le_rfl (h.fits id view (hviews ▸ hview) b hb)).mono hdoc.size_le

private theorem Fitted.modifyView (h : w.Fitted) (id : ViewId) {f : View → View}
    (hf : ∀ (v : View) b, (f v).Has b → v.Has b ∨ b.isWatch = true) :
    (w.modifyView id f).Fitted where
  doc := h.doc
  fits other view hview b hb := by
    rw [World.modifyView, Array.getElem?_modify] at hview
    split at hview
    · obtain ⟨old, hold, rfl⟩ := Option.map_eq_some_iff.mp hview
      rcases hf old b hb with hb | hwatch
      · exact h.fits other old hold b hb
      · cases b with
        | watch => trivial
        | interpolation | text | model => cases hwatch
    · exact h.fits other view hview b hb

/-- To mount a view model edits the document. -/
theorem edits_mount (hdoc : w.doc.Reachable) (options : MountOptions) (settings : Settings) :
    w.doc.Edits (w.mount options settings).1.doc := by
  cases hroot : options.target.resolve w.doc with
  | error e =>
    rw [World.mount, hroot]
  | ok root =>
    have hwf := hdoc.wellFormed
    obtain ⟨hcompiled, -⟩ := mount_eq w options settings hroot rfl
      (contains_modelInputs hwf options.store settings root) rfl
    rw [hcompiled]
    exact hwf.edits_compile options.store settings root

private theorem Fitted.mount (h : w.Fitted) (options : MountOptions) (settings : Settings) :
    (w.mount options settings).1.Fitted := by
  have hedits := edits_mount h.doc options settings
  cases hroot : options.target.resolve w.doc with
  | error e => simpa [World.mount, hroot] using h
  | ok root =>
    have hwf := h.doc.wellFormed
    obtain ⟨hdoc, hviews, -⟩ := mount_eq w options settings hroot rfl
      (contains_modelInputs hwf options.store settings root) rfl
    obtain ⟨hsize, -, hfound⟩ := compile_displays hwf options.store settings root
    refine ⟨hedits.reachable h.doc, fun id view hview b hb => ?_⟩
    rw [hviews, Array.getElem?_push] at hview
    split at hview
    · rw [← Option.some.inj hview] at hb
      obtain ⟨-, hfits, -⟩ := hfound b (View.has_mounted hb)
      rw [hdoc]
      exact hfits.mono hsize
    · exact (hedits.fits le_rfl (h.fits id view hview b hb)).mono hedits.size_le

theorem upheld_fitted : Upheld Fitted where
  host hhost h := h.edits hhost.doc hhost.views
  emit _ h := ⟨h.doc, h.fits⟩
  notified id _ hf h := h.modifyView id fun _ _ hb => Or.inl (hf.has hb)
  changed id _ hf h := h.modifyView id fun _ _ hb => Or.inl (hf.has hb)
  registered id _ hwatch h := h.modifyView id fun _ _ hb =>
    (View.has_register hb).elim (fun heq => Or.inr (heq ▸ hwatch)) Or.inl
  mount options settings h := h.mount options settings

private theorem fitted_ofDocument {doc : Document} (hdoc : doc.Reachable) :
    (ofDocument doc).Fitted :=
  ⟨hdoc, by simp [ofDocument]⟩

theorem fitted_runAll {doc : Document} (hdoc : doc.Reachable) (behaviour : Behaviour) (depth : Nat)
    (steps : List Step) : ((ofDocument doc).runAll behaviour depth steps).Fitted :=
  upheld_fitted.lasting.runAll behaviour depth _ steps (fitted_ofDocument hdoc)

end World
end ViewBinding
