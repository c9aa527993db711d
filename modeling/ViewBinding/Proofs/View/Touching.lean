import Mathlib
import ViewBinding.Proofs.View.Fitting
import ViewBinding.Proofs.View.InStep
import ViewBinding.Proofs.View.Silence
import ViewBinding.Proofs.View.Undisturbed

/-!
# What a notification touches

A notification of a key that nobody watches touches the nodes of the bindings of its key, and
nothing else of the document, its listeners and its view models (`World.runAll_touches`), whatever
has been done to the document before.
-/

namespace ViewBinding

namespace World

/-! ## What is not the document -/

/-- Only the document and one view model are not what they were. -/
structure Beside (id : ViewId) (w after : World) : Prop where
  listeners : after.listeners = w.listeners
  handles : after.handles = w.handles
  calls : after.calls = w.calls
  views : ∀ other ≠ id, after.views[other]? = w.views[other]?

/-- Of the view model, only the entry of a key is not what it was, and of the document what
bindings show. -/
structure Touches (id : ViewId) (key : String) (bindings : List Binding) (w after : World) : Prop
    extends Beside id w after where
  store : ∀ view, w.views[id]? = some view → ∃ view', after.views[id]? = some view' ∧
    ∀ other ≠ key, view'.store.get? other = view.store.get? other
  doc : w.doc.Redrawn bindings after.doc

variable {call : Caller} {id : ViewId} {x y : World} {view changed : View} {key : String}

theorem Beside.refl (w : World) : Beside id w w :=
  ⟨rfl, rfl, rfl, fun _ _ => rfl⟩

theorem Beside.trans {a b c : World} (hab : Beside id a b) (hbc : Beside id b c) :
    Beside id a c where
  listeners := hbc.listeners.trans hab.listeners
  handles := hbc.handles.trans hab.handles
  calls := hbc.calls.trans hab.calls
  views other hother := (hbc.views other hother).trans (hab.views other hother)

private theorem beside_modifyView (w : World) (id : ViewId) (f : View → View) : Beside id w
    (w.modifyView id f) := by
  refine ⟨rfl, rfl, rfl, fun other hother => ?_⟩
  rw [modifyView, Array.getElem?_modify, if_neg (Ne.symm hother)]

private theorem closed_beside (id : ViewId) : Closed id (Beside id) where
  refl := .refl
  trans := .trans
  modifyView w _ _ := beside_modifyView w id _
  emit _ _ _ := ⟨rfl, rfl, rfl, fun _ _ => rfl⟩
  perform _ _ := ⟨rfl, rfl, rfl, fun _ _ => rfl⟩

/-- A notification that is not folded or ignored shows the value, and leaves the data alone in any
case. -/
theorem notifyFrom_touches (call : Caller) (hsound : x.Sound) (hfitted : x.Fitted)
    (hview : x.views[id]? = some view)
    (hnone : ∀ b ∈ view.registry.watchers key, b.isWatch = false) :
    let y := (x.notifyFrom call id key none).1
    Beside id x y ∧ (∃ view', y.views[id]? = some view' ∧ view'.store = view.store) ∧
      x.doc.Redrawn (view.registry.watchers key) y.doc := by
  intro y
  by_cases hdisposed : view.disposed = true
  · have hsame : y = x := by
      simp only [y, notifyFrom_of_disposed ⟨view, hview, hdisposed⟩]
    rw [hsame]
    exact ⟨.refl x, ⟨view, hview, rfl⟩, .refl _ _⟩
  rw [Bool.not_eq_true] at hdisposed
  by_cases hkey : key ∈ view.inFlight
  · have hfolded : y = (x.modifyView id (·.markDirty key)).emit (.folded id key) := by
      have hbusy : x.isInFlight id key = true := by simpa [isInFlight, hview] using hkey
      simp [y, notifyFrom, isDisposed, hview, hdisposed, hbusy]
    obtain ⟨dirty, hdirty⟩ := view.markDirty_eq key
    rw [hfolded]
    refine ⟨(closed_beside id).trans (beside_modifyView x id _) ((closed_beside id).emit _ rfl),
      ⟨view.markDirty key, getElem?_modifyView_self hview _, by rw [hdirty]⟩, .refl _ _⟩
  · have hcall : Undisturbed call id (Beside id) (view.registry.watchers key) := by
      intro k callback hmem
      cases hnone _ hmem
    obtain ⟨hdoc, hview', hbeside, -⟩ :=
      notifyFrom_showText (closed_beside id) hsound hview hcall hdisposed hkey none
    have hall : Binding.besides none (view.registry.watchers key) = view.registry.watchers key := by
      simp [Binding.besides]
    rw [hall] at hdoc
    refine ⟨hbeside, ⟨view, hview', rfl⟩, ?_⟩
    rw [show y.doc = _ from hdoc]
    exact Document.redrawn_foldl_showText
      (fun b hb => hfitted.fits id view hview b (Or.inr ⟨key, hb⟩)) _

private theorem Beside.touches (hbeside : Beside id x y) (hdoc : y.doc = x.doc) (hsound : y.Sound)
    (hfitted : y.Fitted) (hx : x.views[id]? = some view) (hview : y.views[id]? = some changed)
    (hregistry : changed.registry = view.registry)
    (hstore : ∀ other ≠ key, changed.store.get? other = view.store.get? other)
    (hnone : ∀ b ∈ view.registry.watchers key, b.isWatch = false) (f : Nat → Nat) :
    Touches id key (view.registry.watchers key) x
      ((y.notifyFrom call id key none).1.modifyView id fun v => { v with pins := f v.pins }) := by
  rw [← hregistry] at hnone
  obtain ⟨hbeside', ⟨notified, hnotified, hsame⟩, hredrawn⟩ :=
    notifyFrom_touches call hsound hfitted hview hnone
  rw [hdoc, hregistry] at hredrawn
  refine ⟨hbeside.trans (hbeside'.trans (beside_modifyView _ id _)), fun found hfound => ?_, hredrawn⟩
  obtain rfl := Option.some.inj (hx.symm.trans hfound)
  refine ⟨_, getElem?_modifyView_self hnotified _, fun other hother => ?_⟩
  rw [hsame, hstore other hother]

/-- In every run, however its document is changed from outside, a step that sets or notifies a key
that nobody watches, at top level or by a callback, touches nothing but the entry of the key and the
nodes of its bindings. Callbacks are called in worlds of this kind too, since they keep them so
(`attends_call`, `upheld_fitted`). -/
theorem runAll_touches {doc : Document} (hdoc : doc.Reachable) (behaviour : Behaviour) (depth : Nat)
    (steps : List Step) :
    let w := (ofDocument doc).runAll behaviour depth steps
    (w.Sound ∧ w.Fitted) ∧
    ∀ x : World, x.Sound → x.Fitted → ∀ call told handle id view key,
      x.reach? handle = some id → x.views[id]? = some view →
      (∀ b ∈ view.registry.watchers (Text.trim key), b.isWatch = false) →
      ∀ step, (step = .notify handle key ∨ ∃ operand, step = .set handle key operand) →
        ∃ after count, x.exec call told step = (after, .count count) ∧
          Touches id (Text.trim key) (view.registry.watchers (Text.trim key)) x after := by
  intro w
  obtain ⟨hsound, -⟩ := sound_runAll doc behaviour depth steps
  refine ⟨⟨hsound, fitted_runAll hdoc behaviour depth steps⟩, ?_⟩
  intro x hx hfitted call told handle id view key hreach hview hnone step hstep
  have hpin : View.Change fun v => { v with pins := v.pins + 1 } := .pins (· + 1)
  have hbeside := beside_modifyView x id fun v => { v with pins := v.pins + 1 }
  have hsound' := (keeps_modifyView x id hpin hx).1
  have hfitted' := upheld_fitted.changed id hpin hfitted
  have hpinned := getElem?_modifyView_self hview fun v => { v with pins := v.pins + 1 }
  rcases hstep with rfl | ⟨operand, rfl⟩
  · simp only [exec, onView_eq hreach hview]
    exact ⟨_, _, rfl,
      hbeside.touches rfl hsound' hfitted' hview hpinned rfl (fun _ _ => rfl) hnone (· - 1)⟩
  · simp only [exec, onView_eq hreach hview]
    have hwrite : View.Change fun v =>
        { v with store := v.store.set (Text.trim key) (operand.eval told) } :=
      .store (·.set (Text.trim key) (operand.eval told))
    have hwritten := getElem?_modifyView_self hpinned fun v =>
      { v with store := v.store.set (Text.trim key) (operand.eval told) }
    refine ⟨_, _, rfl, (hbeside.trans (beside_modifyView _ id _)).touches rfl
      (keeps_modifyView _ id hwrite hsound').1 (upheld_fitted.changed id hwrite hfitted') hview
      hwritten rfl (fun other hother => ?_) hnone (· - 1)⟩
    exact Store.get?_set_of_ne _ hother _

/-- An element that shows the name, with another one inside. -/
def nestedTexts : Document :=
  (((Document.empty.appendElement Document.root "div" [⟨"v-text", "name"⟩]).1.appendElement 1 "p"
    [⟨"v-text", "name"⟩]).1.appendText 2 "Hi \x7b\x7bname\x7d\x7d").1

/-- What the names have displaced is put back under the elements that show them. -/
def puttingBack : List Step :=
  [.mount { target := .node Document.root } {}, .set 0 "name" (.literal (.string "Ada")),
    .appendChild 1 2, .appendChild 2 3]

theorem nestedTexts_touched :
    let w := (ofDocument nestedTexts).runAll wrapping 9 puttingBack
    let bindings := [.interpolation 3 ⟨"Hi ", "\x7b\x7bname\x7d\x7d", "name", ""⟩,
      .text 2 "name", .text 1 "name"]
    w.doc.children 1 = [5, 2] ∧ w.doc.children 2 = [4, 3] ∧
      ∃ after count, w.exec (World.call wrapping 9) none
          (.set 0 " name " (.literal (.string "Eve"))) = (after, .count count) ∧
        Touches 0 "name" bindings w after := by
  intro w bindings
  have hdoc : nestedTexts.Reachable :=
    .appendText _ _ (.appendElement _ _ _ (.appendElement _ _ _ .empty))
  obtain ⟨⟨hsound, hfitted⟩, htouches⟩ := runAll_touches hdoc wrapping 9 puttingBack
  have hreach : w.reach? 0 = some 0 := by decide +kernel
  have hwatchers : (w.views[0]?.map fun v => v.registry.watchers (Text.trim " name ")) =
      some bindings := by decide +kernel
  have hkey : Text.trim " name " = "name" := by decide +kernel
  obtain ⟨view, hview, hbindings⟩ := Option.map_eq_some_iff.mp hwatchers
  obtain ⟨after, count, hexec, htouched⟩ := htouches w hsound hfitted (World.call wrapping 9) none
    0 0 view " name " hreach hview (by rw [hbindings]; simp [bindings, Binding.isWatch])
    (.set 0 " name " (.literal (.string "Eve"))) (Or.inr ⟨_, rfl⟩)
  rw [hbindings, hkey] at htouched
  exact ⟨by decide +kernel, by decide +kernel, after, count, hexec, htouched⟩

end World
end ViewBinding
