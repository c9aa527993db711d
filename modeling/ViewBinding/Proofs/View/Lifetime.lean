import Mathlib
import ViewBinding.Proofs.View.Bookkeeping

/-!
# How long a view model lives

A view model is alive while a handle to it is held or a call on it is in progress. Between steps no
call is in progress (`pins_runAll`), so that the last handle to be dropped is the end of it: from
then on nothing that happens is about it (`leaves_runAll`).
-/

namespace ViewBinding
namespace World

/-- Nothing happens to a view model, and no handle to it is made. -/
structure Leaves (id : ViewId) (w after : World) : Prop where
  views : after.views[id]? = w.views[id]?
  handles : ∀ h ∈ after.handles, h.view = id → h.held = true → h ∈ w.handles
  size : w.views.size ≤ after.views.size
  trace : ∃ new, after.trace = new ++ w.trace ∧
    ∀ m ∈ new, m.event.subject? ≠ some id ∧ m.views[id]? = w.views[id]?

/-- A view model that was mounted and that nothing keeps alive. -/
structure Dropped (w : World) (id : ViewId) : Prop where
  mounted : id < w.views.size
  dead : w.isAlive id = false

variable {call : Caller} {w after : World} {id other : ViewId}

theorem Leaves.refl (id : ViewId) (w : World) : Leaves id w w where
  views := rfl
  handles := fun _ h _ _ => h
  size := Nat.le_refl _
  trace := ⟨[], rfl, by simp⟩

theorem Leaves.trans {a b c : World} (hab : Leaves id a b) (hbc : Leaves id b c) :
    Leaves id a c := by
  obtain ⟨new, hnew, hquiet⟩ := hab.trace
  obtain ⟨newer, hnewer, hquieter⟩ := hbc.trace
  refine ⟨hbc.views.trans hab.views, fun h hmem hid hheld => ?_, hab.size.trans hbc.size,
    newer ++ new, by rw [hnewer, hnew, List.append_assoc], fun m hm => ?_⟩
  · exact hab.handles h (hbc.handles h hmem hid hheld) hid hheld
  · rcases List.mem_append.mp hm with hm | hm
    · rw [← hab.views]
      exact hquieter m hm
    · exact hquiet m hm

theorem isAlive_eq_false_iff : w.isAlive id = false ↔
    (∀ h ∈ w.handles, h.view = id → h.held = false) ∧
      ∀ view, w.views[id]? = some view → view.pins = 0 := by
  rw [isAlive, Bool.or_eq_false_iff, Array.any_eq_false']
  refine and_congr (forall₂_congr fun h _ => by simp) ?_
  split
  · rename_i view hview
    simp [hview]
  · rename_i hnone
    simp [hnone]

theorem Leaves.dropped (h : Leaves id w after) (hdropped : w.Dropped id) : after.Dropped id := by
  obtain ⟨hhandles, hpins⟩ := isAlive_eq_false_iff.mp hdropped.dead
  refine ⟨hdropped.mounted.trans_le h.size, isAlive_eq_false_iff.mpr ⟨fun entry hmem hid => ?_, ?_⟩⟩
  · by_contra hheld
    rw [Bool.not_eq_false] at hheld
    exact absurd (hhandles entry (h.handles entry hmem hid hheld) hid) (by simp [hheld])
  · rw [h.views]
    exact hpins

/-! ## What leaves a view model alone -/

private theorem leaves_emit (w : World) {e : Event} (he : e.subject? ≠ some id) : Leaves id w
    (w.emit e) where
  views := rfl
  handles := fun _ h _ _ => h
  size := Nat.le_refl _
  trace := ⟨[⟨e, w.views⟩], rfl, by simpa using he⟩

private theorem leaves_host (hviews : after.views = w.views) (htrace : after.trace = w.trace)
    (hhandles : ∀ h ∈ after.handles, h.view = id → h.held = true → h ∈ w.handles) :
    Leaves id w after where
  views := by rw [hviews]
  handles := hhandles
  size := by rw [hviews]
  trace := ⟨[], htrace, by simp⟩

private theorem leaves_perform (w : World) (change : HostChange) : Leaves id w (w.perform change) :=
  (leaves_emit w (e := .changed change) (by simp [Event.subject?])).trans
    (leaves_host rfl rfl fun _ h _ _ => h)

private theorem leaves_modifyView (w : World) (hother : other ≠ id) (f : View → View) :
    Leaves id w (w.modifyView other f) where
  views := by simp [modifyView, Array.getElem?_modify, hother]
  handles := fun _ h _ _ => h
  size := by simp
  trace := ⟨[], rfl, by simp⟩

private theorem leaves_listen (w : World) (node : NodeId) (listener : Listener) :
    Leaves id w ((w.perform (.listen node)).listen node listener) := by
  unfold listen
  split
  · exact (leaves_perform w (.listen node)).trans (leaves_host rfl rfl fun _ h _ _ => h)
  · exact leaves_perform w (.listen node)

private theorem leaves_push (hid : id < w.views.size) (doc : Document) (v : View) :
    Leaves id w { w with doc, views := w.views.push v } where
  views := by
    rw [Array.getElem?_push, if_neg (Nat.ne_of_lt hid)]
  handles := fun _ h _ _ => h
  size := by simp
  trace := ⟨[], rfl, by simp⟩

private theorem leaves_mount (hid : id < w.views.size) (options : MountOptions)
    (settings : Settings) : Leaves id w (w.mount options settings).1 := by
  have hother : w.views.size ≠ id := Ne.symm (Nat.ne_of_lt hid)
  unfold mount
  split
  · exact .refl id w
  rename_i root _
  generalize compile w.doc options.store settings root = compiled
  generalize hchanges : (compiled.bindings.filterMap fun b =>
    b.change? (shownText (options.store.get? b.key))) = changes
  dsimp only
  rw [hchanges]
  generalize hbound : changes.foldl (fun w change => w.emit (.changed change)) w = bound
  have hleaves : Leaves id w bound :=
    hbound ▸ foldl_of_trans (Leaves.refl id) .trans
      (fun w change => leaves_emit w (by simp [Event.subject?])) changes w
  have hviews : bound.views = w.views := by
    rw [← hbound, views_foldl (f := fun w change => w.emit (.changed change)) fun _ _ => rfl]
  rw [← hviews] at hid hother ⊢
  have hmounted := (hleaves.trans (leaves_push hid compiled.doc
    (.mounted root settings options.store compiled.bindings))).trans
      (leaves_emit _ (e := .mounted bound.views.size compiled.bindings)
        fun he => hother (Option.some.inj he))
  have hlistening := hmounted.trans (foldl_of_trans (Leaves.refl id) .trans
    (fun w (input : NodeId × String) => leaves_listen w input.1 (.model bound.views.size input.2))
    compiled.modelInputs _)
  refine hlistening.trans (leaves_host rfl rfl fun h hmem hview _ => ?_)
  rcases Array.mem_push.mp hmem with hmem | rfl
  · exact hmem
  · exact absurd hview hother

/-! ## What happens once a view model is dropped -/

/-- What happens leaves a view model alone if that was dropped. -/
def Spares (id : ViewId) (w after : World) : Prop := w.Dropped id → Leaves id w after

theorem Spares.trans {a b c : World} (hab : Spares id a b) (hbc : Spares id b c) :
    Spares id a c :=
  fun hdropped => (hab hdropped).trans (hbc ((hab hdropped).dropped hdropped))

private theorem closed_spares (hother : other ≠ id) : Closed other (Spares id) where
  refl := fun w _ => .refl id w
  trans := Spares.trans
  modifyView := fun w _ _ _ => leaves_modifyView w hother _
  emit := fun w _ he _ => leaves_emit w (he.subject?_ne hother)
  perform := fun w change _ => leaves_perform w change

private theorem spares_applyBinding
    (hcall : ∀ callback notice w, Spares id w (call callback notice w))
    (w : World) (b : Binding) (value : Option Value) :
    Spares id w (w.applyBinding call b value) :=
  (closed_spares (Nat.succ_ne_self id)).applyBinding hcall w b value

private theorem Deeds.spares (hcall : ∀ callback notice w, Spares id w (call callback notice w))
    (hother : other ≠ id) (h : Deeds call other w after) : Spares id w after := by
  induction h with
  | refl => exact fun _ => .refl id w
  | tail _ hdeed ih =>
    refine ih.trans ?_
    cases hdeed with
    | host hhost hhandles =>
      exact fun _ => leaves_host hhost.views hhost.trace fun h hmem hid _ =>
        hhandles h hmem fun hview => hother (hview.symm.trans hid)
    | store f => exact fun _ => leaves_modifyView _ hother _
    | dispose => exact fun _ => leaves_modifyView _ hother _
    | registered b _ _ =>
      exact fun _ => (leaves_modifyView _ hother _).trans
        (leaves_emit _ fun he => hother (Option.some.inj he))
    | notify key origin _ => exact (closed_spares hother).notifyFrom hcall _ key origin

private theorem Turn.spares (hcall : ∀ callback notice w, Spares id w (call callback notice w))
    (h : Turn call w after) : Spares id w after := by
  intro hdropped
  cases h with
  | host hhost hhandles =>
    exact leaves_host hhost.views hhost.trace fun h hmem _ => hhandles h hmem
  | mount options settings => exact leaves_mount hdropped.mounted options settings
  | call callback text => exact hcall callback (.changed text) w hdropped
  | tried b value =>
    have htried : Spares id w (w.emit (.tried b value)) :=
      fun _ => leaves_emit w (by simp [Event.subject?])
    exact htried.trans (spares_applyBinding hcall _ b value) hdropped
  | on other halive hdeeds =>
    have hother : other ≠ id := by
      rintro rfl
      rw [hdropped.dead] at halive
      cases halive
    have hpin := leaves_modifyView w hother fun v => { v with pins := v.pins + 1 }
    exact (hpin.trans (hdeeds.spares hcall hother (hpin.dropped hdropped))).trans
      (leaves_modifyView _ hother _)

theorem Turns.spares (hcall : ∀ callback notice w, Spares id w (call callback notice w))
    (h : Turns call w after) : Spares id w after := by
  induction h with
  | refl => exact fun _ => .refl id w
  | tail _ hturn ih => exact ih.trans (hturn.spares hcall)

theorem lasting_spares (id : ViewId) : Lasting (Spares id) where
  refl := fun w _ => .refl id w
  trans := Spares.trans
  emit := fun w _ he _ => leaves_emit w (by simp [he.subject?])
  countCall := fun w _ _ => leaves_host rfl rfl fun _ h _ _ => h
  exec := fun hcall told w step => (exec_turns told w step).spares hcall

/-! ## Calls in progress -/

/-- As many calls are in progress on each view model as before. -/
def SamePins (w after : World) : Prop := ∀ id, (after.view id).pins = (w.view id).pins

theorem SamePins.trans {a b c : World} (hab : a.SamePins b) (hbc : b.SamePins c) : a.SamePins c :=
  fun id => (hbc id).trans (hab id)

private theorem samePins_host (hviews : after.views = w.views) : w.SamePins after :=
  fun id => by rw [view_congr hviews]

private theorem samePins_modifyView (w : World) (id : ViewId) {f : View → View}
    (hf : ∀ v, (f v).pins = v.pins) : w.SamePins (w.modifyView id f) :=
  view_modifyView_induction (motive := fun v v' => v'.pins = v.pins) w id (fun _ => rfl) hf

private theorem closed_samePins (id : ViewId) : Closed id SamePins where
  refl := fun _ _ => rfl
  trans := SamePins.trans
  modifyView := fun w _ hf => samePins_modifyView w id fun v => by
    obtain ⟨_, _, _, _, _, h⟩ := hf.eq v
    rw [h]
  emit := fun _ _ _ => samePins_host rfl
  perform := fun _ _ => samePins_host rfl

private theorem Deeds.samePins (hcall : ∀ callback notice w, SamePins w (call callback notice w))
    (h : Deeds call id w after) : w.SamePins after := by
  induction h with
  | refl => exact fun _ => rfl
  | tail _ hdeed ih =>
    refine ih.trans ?_
    cases hdeed with
    | host hhost _ => exact samePins_host hhost.views
    | store f => exact samePins_modifyView _ id fun _ => rfl
    | dispose => exact samePins_modifyView _ id fun _ => rfl
    | registered b _ _ =>
      have hadded : ∀ x : World, x.SamePins (x.modifyView id (·.register b)) := by
        refine fun x => samePins_modifyView x id fun v => ?_
        obtain ⟨_, _, h⟩ := v.register_eq b
        rw [h]
      exact (hadded _).trans (samePins_host rfl)
    | notify key origin _ => exact (closed_samePins id).notifyFrom hcall _ key origin

private theorem views_mount (w : World) (options : MountOptions) (settings : Settings) :
    (w.mount options settings).1.views = w.views ∨ ∃ root bindings,
      (w.mount options settings).1.views =
        w.views.push (.mounted root settings options.store bindings) := by
  unfold mount
  split
  · exact Or.inl rfl
  · rename_i root _
    refine Or.inr ⟨root, (compile w.doc options.store settings root).bindings, ?_⟩
    refine views_foldl (fun w input => ?_) _ _
    dsimp only
    unfold listen
    split <;> rfl

private theorem samePins_mount (w : World) (options : MountOptions) (settings : Settings) :
    w.SamePins (w.mount options settings).1 := by
  rcases views_mount w options settings with hviews | ⟨root, bindings, hviews⟩
  · exact samePins_host hviews
  · intro id
    rw [World.view, World.view, hviews, Array.getElem?_push]
    split
    · rename_i hid
      simp only [hid, Array.getElem?_size]
      rfl
    · rfl

private theorem pins_pin (h : id < w.views.size) :
    ((w.modifyView id fun v => { v with pins := v.pins + 1 }).view id).pins =
      (w.view id).pins + 1 := by
  rw [view_modifyView_self h]

private theorem pins_unpin (w : World) (id : ViewId) :
    ((w.modifyView id fun v => { v with pins := v.pins - 1 }).view id).pins =
      (w.view id).pins - 1 := by
  by_cases h : id < w.views.size
  · rw [view_modifyView_self h]
  · have hout := Nat.not_lt.mp h
    rw [view_modifyView_of_size_le hout, World.view, Array.getElem?_eq_none hout]
    rfl

private theorem Turn.samePins (hcall : ∀ callback notice w, SamePins w (call callback notice w))
    (h : Turn call w after) : w.SamePins after := by
  cases h with
  | host hhost _ => exact samePins_host hhost.views
  | mount options settings => exact samePins_mount w options settings
  | call callback text => exact hcall callback (.changed text) w
  | tried b value =>
    have htried : w.SamePins (w.emit (.tried b value)) := samePins_host rfl
    exact htried.trans ((closed_samePins 0).applyBinding hcall _ b value)
  | on id _ hdeeds =>
    intro other
    have hbetween := hdeeds.samePins hcall other
    by_cases hother : other = id
    · subst hother
      rw [pins_unpin, hbetween]
      by_cases hlt : other < w.views.size
      · rw [pins_pin hlt, Nat.add_sub_cancel]
      · rw [view_modifyView_of_size_le (Nat.not_lt.mp hlt), World.view,
          Array.getElem?_eq_none (Nat.not_lt.mp hlt)]
        rfl
    · rw [view_modifyView_of_ne _ hother] at hbetween ⊢
      exact hbetween

private theorem Turns.samePins (hcall : ∀ callback notice w, SamePins w (call callback notice w))
    (h : Turns call w after) : w.SamePins after := by
  induction h with
  | refl => exact fun _ => rfl
  | tail _ hturn ih => exact ih.trans (hturn.samePins hcall)

private theorem lasting_samePins : Lasting SamePins where
  refl := fun _ _ => rfl
  trans := SamePins.trans
  emit := fun _ _ _ => samePins_host rfl
  countCall := fun _ _ => samePins_host rfl
  exec := fun hcall told w step => (exec_turns told w step).samePins hcall

/-- Between steps no call is in progress. -/
theorem pins_runAll (doc : Document) (behaviour : Behaviour) (depth : Nat) (steps : List Step)
    (id : ViewId) : (((ofDocument doc).runAll behaviour depth steps).view id).pins = 0 := by
  have hsame : (ofDocument doc).SamePins ((ofDocument doc).runAll behaviour depth steps) :=
    lasting_samePins.runAll behaviour depth _ steps
  rw [hsame id]
  simp [World.view, ofDocument]
  rfl

end World
end ViewBinding
