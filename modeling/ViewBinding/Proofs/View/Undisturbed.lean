import Mathlib
import ViewBinding.Proofs.Document.Redrawing
import ViewBinding.Proofs.View.Bookkeeping

/-!
# Notifications that nobody disturbs

When the watchers of a key leave the document and the view model alone, a notification of the key is
one pass: its bindings show the value of the key, one after another, and that is all that becomes of
the document. The view model is what it was before (`notifyFrom_showText`).
-/

namespace ViewBinding

/-- The bindings that a pass over a key applies, if it leaves out the model binding of an input. -/
def Binding.besides (origin : Option NodeId) (bindings : List Binding) : List Binding :=
  bindings.filter fun b => !origin.any b.isModelOf

namespace World

/-- The watchers among some bindings leave the document and a view model alone, and what else they
do is allowed. -/
def Undisturbed (call : Caller) (id : ViewId) (R : World → World → Prop)
    (bindings : List Binding) : Prop :=
  ∀ key callback, .watch key callback ∈ bindings → ∀ notice w,
    (call callback notice w).doc = w.doc ∧ (call callback notice w).views[id]? = w.views[id]? ∧
      R w (call callback notice w)

variable {call : Caller} {id : ViewId} {R : World → World → Prop} {x : World} {view : View}

/-! ## One pass -/

private theorem visitBinding_showText (hR : Closed id R) {b : Binding}
    (hcall : Undisturbed call id R [b]) (hview : x.views[id]? = some view)
    (halive : view.disposed = false) (key : String) (origin : Option NodeId) :
    let y := visitBinding call id key origin false x b
    y.doc = (Binding.besides origin [b]).foldl (.showText (shownText (view.store.get? key))) x.doc ∧
      y.views[id]? = some view ∧ R x y := by
  intro y
  by_cases hleft : origin.any b.isModelOf = true
  · have hsame : y = x := by
      simp [y, visitBinding_of_view hview, hleft]
    rw [hsame, Binding.besides, List.filter_singleton, hleft]
    exact ⟨rfl, hview, hR.refl x⟩
  · rw [Bool.not_eq_true] at hleft
    rw [Binding.besides, List.filter_singleton, hleft]
    have happlied : y = (x.emit (.applied id b (view.store.get? key))).applyBinding call b
        (view.store.get? key) := by
      simp [y, visitBinding_of_view hview, halive, hleft]
    have hemit : R x (x.emit (.applied id b (view.store.get? key))) := hR.emit x rfl
    rw [happlied]
    cases b with
    | watch k callback =>
      obtain ⟨hdoc, hviews, hr⟩ := hcall k callback (List.mem_singleton_self _)
        (.watched (view.store.get? key))
        (x.emit (.applied id (.watch k callback) (view.store.get? key)))
      exact ⟨hdoc, hviews.trans hview, hR.trans hemit hr⟩
    | interpolation | text | model => exact ⟨rfl, hview, hR.trans hemit (hR.perform _ _)⟩

private theorem foldl_visitBinding_showText (hR : Closed id R) {bindings : List Binding}
    (hcall : Undisturbed call id R bindings) (hview : x.views[id]? = some view)
    (halive : view.disposed = false) (key : String) (origin : Option NodeId) :
    let y := bindings.foldl (visitBinding call id key origin false) x
    y.doc = (Binding.besides origin bindings).foldl
        (.showText (shownText (view.store.get? key))) x.doc ∧
      y.views[id]? = some view ∧ R x y := by
  induction bindings generalizing x with
  | nil => exact ⟨rfl, hview, hR.refl x⟩
  | cons b rest ih =>
    have hfirst : Undisturbed call id R [b] := fun k callback hmem =>
      hcall k callback (List.mem_cons.mpr (Or.inl (by simpa using hmem)))
    obtain ⟨hdoc, hview', hr⟩ := visitBinding_showText hR hfirst hview halive key origin
    obtain ⟨hdoc', hview'', hr'⟩ :=
      ih (fun k callback hmem => hcall k callback (List.mem_cons_of_mem _ hmem)) hview'
    have hsplit : Binding.besides origin (b :: rest) =
        Binding.besides origin [b] ++ Binding.besides origin rest := by
      rw [Binding.besides, ← List.singleton_append, List.filter_append]
      rfl
    refine ⟨?_, hview'', hR.trans hr hr'⟩
    rw [List.foldl_cons, hdoc', hdoc, hsplit, List.foldl_append]

variable {key : String}

private theorem runPass_showText (hR : Closed id R) (hview : x.views[id]? = some view)
    (hcall : Undisturbed call id R (view.registry.watchers key)) (halive : view.disposed = false)
    (origin : Option NodeId) :
    let y := x.runPass call id key origin false
    y.1.doc = (Binding.besides origin (view.registry.watchers key)).foldl
        (.showText (shownText (view.store.get? key))) x.doc ∧
      y.1.views[id]? = some view ∧ R x y.1 ∧ y.2 = (view.registry.watchers key).length := by
  intro y
  have hwatchers : x.watchers id key = view.registry.watchers key := by
    simp only [World.watchers, hview]
  have hbegan : (x.beginPass id key false).views[id]? =
      some { view with passes := view.passes + 1 } := getElem?_modifyView_self hview _
  obtain ⟨hdoc, hran, hr⟩ := foldl_visitBinding_showText hR hcall hbegan halive key origin
  have hfst : y.1 = ((x.watchers id key).foldl (visitBinding call id key origin false)
      (x.beginPass id key false)).endPass id key := runPass_fst x id key origin false
  rw [hwatchers] at hfst
  have hbegin : R x (x.beginPass id key false) :=
    hR.trans (hR.modifyView x .beginPass) (hR.emit _ rfl)
  have hend : ∀ z : World, R z (z.endPass id key) :=
    fun z => hR.trans (hR.modifyView z .endPass) (hR.emit _ rfl)
  rw [hfst]
  refine ⟨hdoc, ?_, hR.trans hbegin (hR.trans hr (hend _)), congrArg List.length hwatchers⟩
  exact getElem?_modifyView_self hran _

/-! ## The whole notification -/

private theorem repeatPasses_of_not_dirty (call : Caller) (hR : Closed id R)
    (hview : x.views[id]? = some view) (hdirty : key ∉ view.dirty) (remaining ran : Nat) :
    let y := x.repeatPasses call id key remaining ran
    y.1.doc = x.doc ∧ y.1.views[id]? = some view ∧ R x y.1 ∧ y.2 = ran := by
  have hclean : x.isDirty id key = false := by
    simpa [isDirty, hview] using hdirty
  have hstop : x.repeatPasses call id key remaining ran =
      (x.modifyView id (·.clearDirty key), ran) := by
    unfold repeatPasses
    simp [hclean]
  have hsame : view.clearDirty key = view := by
    rw [View.clearDirty, List.erase_of_not_mem hdirty]
  rw [hstop]
  refine ⟨rfl, ?_, hR.modifyView x (.clear key), rfl⟩
  rw [getElem?_modifyView_self hview, hsame]

private theorem Sound.settle_eq (hsound : x.Sound) (hview : x.views[id]? = some view)
    (halive : view.disposed = false) : view.settle = view := by
  have hrunning := hsound.ready.running id
  have hwaiting := hsound.ready.waiting id
  rw [view_of_getElem? hview] at hrunning hwaiting
  unfold View.settle
  split
  · rfl
  · rename_i hpasses
    rw [not_not, hrunning, List.length_eq_zero_iff] at hpasses
    have hnone := hwaiting hpasses
    rw [if_neg (by simp [halive])]
    obtain ⟨⟩ := view
    dsimp only at hnone
    subst hnone
    rfl

/-- A notification shows the value of its key by the bindings of the key, in order. -/
theorem notifyFrom_showText (hR : Closed id R) (hsound : x.Sound)
    (hview : x.views[id]? = some view)
    (hcall : Undisturbed call id R (view.registry.watchers key)) (halive : view.disposed = false)
    (hkey : key ∉ view.inFlight) (origin : Option NodeId) :
    let y := x.notifyFrom call id key origin
    y.1.doc = (Binding.besides origin (view.registry.watchers key)).foldl
        (.showText (shownText (view.store.get? key))) x.doc ∧
      y.1.views[id]? = some view ∧ R x y.1 ∧ y.2 = (view.registry.watchers key).length := by
  intro y
  have hid := (Array.getElem?_eq_some_iff.mp hview).1
  have hdirty : key ∉ view.dirty := by
    have hsubset := (hsound.booked.queues id).dirty_subset
    rw [view_of_getElem? hview] at hsubset
    exact fun hmem => hkey (hsubset hmem)
  have hbegan : (x.beginFrame id key origin).views[id]? =
      some { view with inFlight := key :: view.inFlight } := getElem?_modifyView_self hview _
  have hbegin : R x (x.beginFrame id key origin) :=
    hR.trans (hR.modifyView x (.beginFrame key)) (hR.emit _ rfl)
  have hy : x.notifyFrom call id key origin = _ := notifyFrom_eq_endFrame hid
    (by rw [view_of_getElem? hview]; exact halive) (by rw [view_of_getElem? hview]; exact hkey)
    origin
  obtain ⟨hdoc, hview', hr, hcount⟩ := runPass_showText hR hbegan hcall halive origin
  obtain ⟨hdoc', hview'', hr', hcount'⟩ := repeatPasses_of_not_dirty call hR hview' hdirty
    (maxPasses - 1) ((x.beginFrame id key origin).runPass call id key origin false).2
  rw [show y = _ from hy]
  dsimp only
  generalize (((x.beginFrame id key origin).runPass call id key origin false).1).repeatPasses call
    id key _ _ = last at hdoc' hview'' hr' hcount' ⊢
  have hend : R last.1 (last.1.endFrame id key last.2) :=
    hR.trans (hR.modifyView _ .endFrame) (hR.emit _ rfl)
  refine ⟨hdoc'.trans hdoc, ?_, hR.trans hbegin (hR.trans hr (hR.trans hr' hend)),
    hcount'.trans hcount⟩
  have hended : (last.1.endFrame id key last.2).views[id]? = some view.settle :=
    getElem?_modifyView_self hview'' fun v => View.settle { v with inFlight := v.inFlight.tail }
  rw [hended, hsound.settle_eq hview halive]

end World
end ViewBinding
