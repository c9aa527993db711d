import Mathlib
import ViewBinding.Proofs.Compile.Display
import ViewBinding.Proofs.View.Bookkeeping

/-!
# A view model alone on its document

The world of one mounted view model, whose bindings do not change but for watchers that come. A
binding is lit when the document shows in its place what the store has for its key, and applying a
binding lights it and darkens no other (`Wired.visit`). While a callback runs, the bindings of keys
that are not being notified are lit before and after, and those of a key that is being notified stay
lit unless the key falls due (`Follows`).
-/

namespace ViewBinding

/-- A binding that writes to the document is kept under its key as long as the view model lives, and
what waits to be registered only watches. -/
structure View.Wired (bindings : List Binding) (v : View) : Prop where
  alive : v.disposed = false
  registry : ∀ key, (v.registry.watchers key).filter (fun b => !b.isWatch) =
    bindings.filter fun b => b.key == key
  deferred : ∀ b ∈ v.deferred, b.isWatch = true

namespace World

/-- One view model stands alone on the document, with the bindings that it was mounted with, whose
nodes are among the first `old`. -/
structure Wired (bindings : List Binding) (old : Nat) (w : World) : Prop where
  single : w.views.size = 1
  handles : w.handles = #[{ view := 0 }]
  listeners : w.listeners = (bindings.filterMap Binding.modelInput?).map fun input =>
    (input.1, .model 0 input.2)
  view : (w.view 0).Wired bindings
  size : old ≤ w.doc.size
  fits : ∀ b ∈ bindings, b.Fits w.doc old
  apart : bindings.Pairwise fun a b => a.cell? ≠ b.cell?

/-- The document has in the place of a binding what the store has for its key. -/
def Lit (old : Nat) (w : World) (b : Binding) : Prop :=
  b.Holds w.doc old (shownText ((w.view 0).store.get? b.key))

/-- The books are closed, and all is lit but what is being notified. -/
structure InStep (bindings : List Binding) (old : Nat) (w : World) : Prop where
  sound : w.Sound
  wired : w.Wired bindings old
  lit : ∀ b ∈ bindings, b.key ∉ (w.view 0).inFlight → w.Lit old b

/-- What is lit and being notified stays lit, or its key falls due. -/
def Minds (bindings : List Binding) (old : Nat) (w after : World) : Prop :=
  ∀ b ∈ bindings, b.key ∈ (w.view 0).inFlight →
    b.key ∈ (after.view 0).dirty ∨ (w.Lit old b → after.Lit old b)

/-- From a world in step to another. -/
def Follows (bindings : List Binding) (old : Nat) (w after : World) : Prop :=
  w.InStep bindings old → after.InStep bindings old ∧ w.Evolves after ∧ w.Minds bindings old after

variable {bindings : List Binding} {old : Nat} {w after : World}

/-! ## The bindings of a view model -/

private theorem filter_cell_eq_singleton (hapart : bindings.Pairwise fun a b => a.cell? ≠ b.cell?)
    {b : Binding} (hb : b ∈ bindings) :
    bindings.filter (fun c => decide (c.cell? = b.cell?)) = [b] := by
  induction bindings with
  | nil => simp at hb
  | cons first rest ih =>
    obtain ⟨hfirst, hrest⟩ := List.pairwise_cons.mp hapart
    rcases List.mem_cons.mp hb with rfl | hb
    · have hnone : rest.filter (fun c => decide (c.cell? = b.cell?)) = [] := by
        apply List.filter_eq_nil_iff.mpr
        intro c hc
        simpa using Ne.symm (hfirst c hc)
      simp [hnone]
    · rw [List.filter_cons_of_neg (by simpa using hfirst b hb), ih hrest hb]

theorem Wired.eq_of_cell? (h : w.Wired bindings old) {b c : Binding} (hb : b ∈ bindings)
    (hc : c ∈ bindings) (hcell : c.cell? = b.cell?) : c = b := by
  have hmem : c ∈ bindings.filter (fun c => decide (c.cell? = b.cell?)) :=
    List.mem_filter.mpr ⟨hc, by simpa using hcell⟩
  rw [filter_cell_eq_singleton h.apart hb] at hmem
  exact List.mem_singleton.mp hmem

theorem Wired.lt_size (h : w.Wired bindings old) : 0 < w.views.size := by
  rw [h.single]
  exact Nat.one_pos

theorem Wired.mem_watchers (h : w.Wired bindings old) {key : String} {b : Binding}
    (hb : b ∈ bindings) (hkey : b.key = key) :
    b ∈ (w.view 0).registry.watchers key ∧ b.isWatch = false := by
  have hkept : b ∈ bindings.filter fun c => c.key == key :=
    List.mem_filter.mpr ⟨hb, by simpa using hkey⟩
  rw [← h.view.registry key] at hkept
  simpa using List.mem_filter.mp hkept

theorem Wired.key_eq (h : w.Wired bindings old) {key : String} {b : Binding}
    (hb : b ∈ (w.view 0).registry.watchers key) :
    b.isWatch = true ∨ (b ∈ bindings ∧ b.key = key) := by
  by_cases hwatch : b.isWatch = true
  · exact Or.inl hwatch
  · have hkept : b ∈ bindings.filter (fun c => c.key == key) := by
      rw [← h.view.registry key]
      exact List.mem_filter.mpr ⟨hb, by simpa using hwatch⟩
    obtain ⟨hb, hkey⟩ := List.mem_filter.mp hkept
    exact Or.inr ⟨hb, by simpa using hkey⟩

/-! ## Who listens -/

private theorem listeners_modelInputs (id : ViewId) (bindings : List Binding) (node : NodeId) :
    ((((bindings.filterMap Binding.modelInput?).map fun input =>
        (input.1, Listener.model id input.2)).filter fun entry => entry.1 == node).map Prod.snd) =
      (bindings.filter fun b => decide (b.cell? = some (.value node))).map
        fun b => .model id b.key := by
  induction bindings with
  | nil => rfl
  | cons b rest ih =>
    cases b with
    | model target key =>
      by_cases htarget : target = node <;>
        simp_all [Binding.modelInput?, Binding.cell?, Binding.key]
    | interpolation | text | watch =>
      rw [List.filterMap_cons_none rfl, List.filter_cons_of_neg (by simp [Binding.cell?]), ih]

/-- There is at most one of them. -/
theorem listeners_model (id : ViewId) (hapart : bindings.Pairwise fun a b => a.cell? ≠ b.cell?)
    {node : NodeId} {key : String} (hb : .model node key ∈ bindings) :
    ((((bindings.filterMap Binding.modelInput?).map fun input =>
        (input.1, Listener.model id input.2)).filter fun entry => entry.1 == node).map Prod.snd) =
      [.model id key] := by
  have hone : bindings.filter (fun b => decide (b.cell? = some (.value node))) =
      [.model node key] := filter_cell_eq_singleton hapart hb
  rw [listeners_modelInputs, hone]
  rfl

theorem Wired.listenersOf_model (h : w.Wired bindings old) {node : NodeId} {key : String}
    (hb : .model node key ∈ bindings) : w.listenersOf node = [.model 0 key] := by
  rw [listenersOf, h.listeners]
  exact listeners_model 0 h.apart hb

theorem Wired.listenersOf_eq_nil (h : w.Wired bindings old) {node : NodeId}
    (hnone : ∀ b ∈ bindings, b.cell? ≠ some (.value node)) : w.listenersOf node = [] := by
  have hnil : bindings.filter (fun b => decide (b.cell? = some (.value node))) = [] := by
    apply List.filter_eq_nil_iff.mpr
    intro b hb
    simpa using hnone b hb
  rw [listenersOf, h.listeners, listeners_modelInputs, hnil]
  rfl

/-! ## Changes of the world -/

theorem Wired.congr (h : w.Wired bindings old) (hviews : after.views = w.views)
    (hhandles : after.handles = w.handles) (hlisteners : after.listeners = w.listeners)
    (hdoc : after.doc = w.doc) : after.Wired bindings old where
  single := by rw [hviews, h.single]
  handles := hhandles.trans h.handles
  listeners := hlisteners.trans h.listeners
  view := by
    rw [view_congr hviews]
    exact h.view
  size := by
    rw [hdoc]
    exact h.size
  fits := by
    rw [hdoc]
    exact h.fits
  apart := h.apart

theorem Wired.emit (h : w.Wired bindings old) (e : Event) : (w.emit e).Wired bindings old :=
  h.congr rfl rfl rfl rfl

theorem Wired.modifyView (h : w.Wired bindings old) {f : View → View}
    (hf : (f (w.view 0)).Wired bindings) : (w.modifyView 0 f).Wired bindings old where
  single := by rw [size_views_modifyView, h.single]
  handles := h.handles
  listeners := h.listeners
  view := by
    rw [view_modifyView_self h.lt_size]
    exact hf
  size := h.size
  fits := h.fits
  apart := h.apart

theorem Wired.perform (h : w.Wired bindings old) (change : HostChange) :
    (w.perform change).Wired bindings old where
  single := h.single
  handles := h.handles
  listeners := h.listeners
  view := h.view
  size := h.size.trans (Document.size_le_perform w.doc change)
  fits := fun b hb => Document.fits_perform h.size (h.fits b hb) change
  apart := h.apart

private theorem Lit.congr {b : Binding} (hdoc : after.doc = w.doc)
    (hstore : (after.view 0).store = (w.view 0).store) : after.Lit old b ↔ w.Lit old b := by
  rw [Lit, Lit, hdoc, hstore]

theorem lit_modifyView (h : w.Wired bindings old) {f : View → View}
    (hf : (f (w.view 0)).store = (w.view 0).store) (b : Binding) :
    (w.modifyView 0 f).Lit old b ↔ w.Lit old b := by
  have hstore : ((w.modifyView 0 f).view 0).store = (w.view 0).store := by
    rw [view_modifyView_self h.lt_size, hf]
  exact Lit.congr rfl hstore

/-- A change of the store darkens no binding of another key. -/
theorem lit_writeValue_of_ne (h : w.Wired bindings old) {key : String} {b : Binding}
    (hkey : b.key ≠ key) (value : Value) : (w.writeValue 0 key value).Lit old b ↔ w.Lit old b := by
  rw [Lit, Lit, writeValue, view_modifyView_self h.lt_size]
  simp only [Store.get?_set_of_ne _ hkey]
  rfl

private theorem Wired.lit_perform (h : w.Wired bindings old) {b : Binding} (hb : b ∈ bindings)
    {change : HostChange}
    (hchange : b.change? (shownText ((w.view 0).store.get? b.key)) = some change) :
    (w.perform change).Lit old b ∧
      ∀ c ∈ bindings, w.Lit old c → (w.perform change).Lit old c := by
  have hself : (w.perform change).Lit old b :=
    Document.holds_perform_self h.size (h.fits b hb) hchange
  refine ⟨hself, fun c hc hlit => ?_⟩
  by_cases hcell : c.cell? = b.cell?
  · rw [h.eq_of_cell? hb hc hcell]
    exact hself
  · rw [Document.cell?_of_change? hchange] at hcell
    exact Document.holds_perform_of_ne h.size (h.fits c hc)
      (Document.lt_of_fits (h.fits b hb) hchange) hcell hlit

/-- Applying a binding in a pass lights it, unless the change came from it, and darkens none. -/
theorem Wired.visit (h : w.Wired bindings old) (call : Caller) {b : Binding} (hb : b ∈ bindings)
    (origin : Option NodeId) (viewOnly : Bool) :
    (visitBinding call 0 b.key origin viewOnly w b).Wired bindings old ∧
      (visitBinding call 0 b.key origin viewOnly w b).views = w.views ∧
      (∀ c ∈ bindings, w.Lit old c → (visitBinding call 0 b.key origin viewOnly w b).Lit old c) ∧
      (origin.any b.isModelOf = true ∨
        (visitBinding call 0 b.key origin viewOnly w b).Lit old b) := by
  have hwatch : b.isWatch = false := (h.mem_watchers hb rfl).2
  by_cases horigin : origin.any b.isModelOf = true
  · have hskip : visitBinding call 0 b.key origin viewOnly w b = w := by
      simp [visitBinding, getElem?_views h.lt_size, horigin]
    rw [hskip]
    exact ⟨h, rfl, fun _ _ hc => hc, Or.inl horigin⟩
  · obtain ⟨change, hchange⟩ : ∃ change,
        b.change? (shownText ((w.view 0).store.get? b.key)) = some change := by
      cases b with
      | watch => simp [Binding.isWatch] at hwatch
      | interpolation | text | model => exact ⟨_, rfl⟩
    have hvisit : visitBinding call 0 b.key origin viewOnly w b =
        (w.emit (.applied 0 b ((w.view 0).store.get? b.key))).perform change := by
      have happly : ∀ x : World, x.applyBinding call b ((w.view 0).store.get? b.key) =
          x.perform change := by
        intro x
        cases b with
        | watch => simp [Binding.isWatch] at hwatch
        | interpolation | text | model =>
          rw [← Option.some.inj hchange]
          rfl
      rw [visitBinding, getElem?_views h.lt_size]
      simp [h.view.alive, hwatch, horigin, happly]
    have hemitted := h.emit (.applied 0 b ((w.view 0).store.get? b.key))
    obtain ⟨hself, hothers⟩ := hemitted.lit_perform hb hchange
    rw [hvisit]
    exact ⟨hemitted.perform change, rfl, hothers, Or.inr hself⟩

/-! ## From step to step -/

theorem Follows.refl (w : World) : w.Follows bindings old w :=
  fun h => ⟨h, .refl w, fun _ _ _ => Or.inr fun hlit => hlit⟩

theorem Follows.trans {a b c : World} (hab : a.Follows bindings old b)
    (hbc : b.Follows bindings old c) : a.Follows bindings old c := by
  intro h
  obtain ⟨hb, hevolves, hminds⟩ := hab h
  obtain ⟨hc, hevolves', hminds'⟩ := hbc hb
  refine ⟨hc, hevolves.trans hb.sound.booked hevolves', ?_⟩
  intro binding hbinding hkey
  have hkey' : binding.key ∈ (b.view 0).inFlight := by rwa [hevolves.inFlight]
  rcases hminds binding hbinding hkey with hdue | hlit
  · exact Or.inl ((hevolves'.steady 0).dirty hdue)
  · rcases hminds' binding hbinding hkey' with hdue | hlit'
    · exact Or.inl hdue
    · exact Or.inr fun h => hlit' (hlit h)

theorem follows_foldl {α : Type} {f : World → α → World} {list : List α}
    (h : ∀ (w : World), ∀ a ∈ list, w.Follows bindings old (f w a)) (w : World) :
    w.Follows bindings old (list.foldl f w) := by
  induction list generalizing w with
  | nil => exact .refl w
  | cons a rest ih =>
    obtain ⟨hfirst, hrest⟩ := forall_and.mp fun w => List.forall_mem_cons.mp (h w)
    exact (hfirst w).trans (ih hrest _)

/-- What keeps the books and darkens nothing leads from a world in step to another. -/
theorem follows_of_lit (hkeeps : w.Keeps after)
    (h : w.Wired bindings old → after.Wired bindings old ∧
      ∀ b ∈ bindings, w.Lit old b → after.Lit old b) : w.Follows bindings old after := by
  intro hstep
  obtain ⟨hsound, hevolves⟩ := hkeeps hstep.sound
  obtain ⟨hwired, hlit⟩ := h hstep.wired
  refine ⟨⟨hsound, hwired, fun b hb hkey => hlit b hb (hstep.lit b hb ?_)⟩, hevolves,
    fun b hb _ => Or.inr (hlit b hb)⟩
  rwa [hevolves.inFlight] at hkey

theorem follows_host (hviews : after.views = w.views) (htrace : after.trace = w.trace)
    (hhandles : after.handles = w.handles) (hlisteners : after.listeners = w.listeners)
    (hdoc : after.doc = w.doc) : w.Follows bindings old after := by
  apply follows_of_lit (keeps_host hviews htrace)
  intro h
  refine ⟨h.congr hviews hhandles hlisteners hdoc, fun b _ hlit => ?_⟩
  exact (Lit.congr hdoc (by rw [view_congr hviews])).mpr hlit

theorem follows_emit (w : World) {e : Event} (hframe : e.frame? = none)
    (hfold : ∀ id key, e ≠ .folded id key) : w.Follows bindings old (w.emit e) :=
  follows_of_lit (keeps_emit w hframe hfold) fun h => ⟨h.emit e, fun _ _ hlit => hlit⟩

theorem follows_pins (w : World) (f : Nat → Nat) :
    w.Follows bindings old (w.modifyView 0 fun v => { v with pins := f v.pins }) := by
  apply follows_of_lit (keeps_modifyView w 0 (.pins f))
  intro h
  refine ⟨h.modifyView ⟨h.view.alive, h.view.registry, h.view.deferred⟩, fun b _ hlit => ?_⟩
  rwa [lit_modifyView h rfl]

theorem follows_pinned {α : Type} (w : World) {action : World → World × α}
    (h : ∀ w : World, w.Follows bindings old (action w).1) :
    w.Follows bindings old (w.pinned 0 action).1 :=
  ((follows_pins w (· + 1)).trans (h _)).trans (follows_pins _ (· - 1))

end World

theorem View.Wired.register {bindings : List Binding} {v : View} (h : v.Wired bindings)
    (key : String) (callback : Callback) : (v.register (.watch key callback)).Wired bindings := by
  unfold View.register
  split
  · refine ⟨h.alive, fun other => ?_, h.deferred⟩
    rw [← h.registry other]
    by_cases hother : other = key
    · subst hother
      simp [Binding.key, Binding.isWatch]
    · simp only [Binding.key, Registry.watchers_add_of_ne _ hother]
  · refine ⟨h.alive, h.registry, fun b hb => ?_⟩
    rcases List.mem_append.mp hb with hb | hb
    · exact h.deferred b hb
    · rw [List.mem_singleton.mp hb]
      rfl

theorem View.Wired.settle {bindings : List Binding} {v : View} (h : v.Wired bindings) :
    v.settle.Wired bindings := by
  unfold View.settle
  split
  · exact h
  split
  · rename_i hdisposed
    rw [h.alive] at hdisposed
    cases hdisposed
  · refine ⟨h.alive, fun key => ?_, by simp⟩
    have hwatch : ∀ b ∈ ((v.deferred.map fun b => (b.key, b)).filter fun entry =>
        entry.1 == key).map Prod.snd, b.isWatch = true := by
      intro b hb
      obtain ⟨entry, hentry, rfl⟩ := List.mem_map.mp hb
      obtain ⟨waiting, hwaiting, rfl⟩ := List.mem_map.mp (List.mem_filter.mp hentry).1
      exact h.deferred waiting hwaiting
    have hnone : (((v.deferred.map fun b => (b.key, b)).filter fun entry =>
        entry.1 == key).map Prod.snd).filter (fun b => !b.isWatch) = [] := by
      apply List.filter_eq_nil_iff.mpr
      intro b hb
      simp [hwatch b hb]
    rw [Registry.watchers_addAll, List.filter_append, hnone, List.append_nil]
    exact h.registry key

end ViewBinding
