import Mathlib
import ViewBinding.Proofs.Compile.Display
import ViewBinding.Proofs.View.Moves

/-!
# Mounting

A view model that is mounted becomes the last one of its world, with a handle of its own, and
listens to the inputs that the walk has bound (`mount_eq`). The walk alone changes the document.
-/

namespace ViewBinding
namespace World

variable {z : World}

/-- To record changes leaves everything but the trace. -/
theorem foldl_changed (changes : List HostChange) (w : World) :
    ∃ trace, changes.foldl (fun w change => w.emit (.changed change)) w = { w with trace } := by
  induction changes generalizing w with
  | nil => exact ⟨w.trace, rfl⟩
  | cons change rest ih => exact ih (w.emit (.changed change))

private theorem foldl_listen (id : ViewId) {inputs : List (NodeId × String)} {w : World}
    (hinputs : ∀ input ∈ inputs, w.doc.contains input.1 = true) (hz : inputs.foldl
      (fun w (node, key) => (w.perform (.listen node)).listen node (.model id key)) w = z) :
    z.doc = w.doc ∧ z.views = w.views ∧ z.handles = w.handles ∧
      z.listeners = w.listeners ++ inputs.map fun input => (input.1, .model id input.2) := by
  induction inputs generalizing w with
  | nil =>
    subst hz
    simp
  | cons input rest ih =>
    obtain ⟨hinput, hrest⟩ := List.forall_mem_cons.mp hinputs
    have hlisten : (w.perform (.listen input.1)).listen input.1 (.model id input.2) =
        { w.perform (.listen input.1) with
          listeners := w.listeners ++ [(input.1, .model id input.2)] } := if_pos hinput
    rw [List.foldl_cons] at hz
    dsimp only at hz
    rw [hlisten] at hz
    obtain ⟨hdoc, hviews, hhandles, hlisteners⟩ := ih (by exact hrest) hz
    refine ⟨hdoc, hviews, hhandles, ?_⟩
    rw [hlisteners]
    simp

theorem contains_modelInputs {doc : Document} (hwf : doc.WellFormed) (store : Store)
    (settings : Settings) (root : NodeId) :
    ∀ input ∈ (compile doc store settings root).modelInputs,
      (compile doc store settings root).doc.contains input.1 = true := by
  obtain ⟨hsize, -, hshown⟩ := compile_displays hwf store settings root
  intro input hinput
  rw [modelInputs_compile hwf] at hinput
  obtain ⟨b, hb, hmodel⟩ := List.mem_filterMap.mp hinput
  cases b with
  | model node key =>
    rw [← Option.some.inj hmodel]
    exact (Document.contains_iff _ _).mpr ((hshown _ hb).2.1.1.trans_le hsize)
  | interpolation | text | watch => cases hmodel

theorem mount_eq (w : World) (options : MountOptions) (settings : Settings) {root : NodeId}
    (hroot : options.target.resolve w.doc = .ok root) {compiled : Compilation}
    (hcompiled : compile w.doc options.store settings root = compiled)
    (hinputs : ∀ input ∈ compiled.modelInputs, compiled.doc.contains input.1 = true)
    (hz : (w.mount options settings).1 = z) :
    z.doc = compiled.doc ∧
      z.views = w.views.push (.mounted root settings options.store compiled.bindings) ∧
      z.handles = w.handles.push { view := w.views.size } ∧
      z.listeners = w.listeners ++
        compiled.modelInputs.map fun input => (input.1, .model w.views.size input.2) := by
  obtain ⟨trace, hbound⟩ := foldl_changed
    (compiled.bindings.filterMap fun b => b.change? (shownText (options.store.get? b.key))) w
  rw [mount, hroot] at hz
  dsimp only at hz
  rw [hcompiled, hbound] at hz
  obtain ⟨hdoc, hviews, hhandles, hlisteners⟩ := foldl_listen w.views.size hinputs
    (w := ({ w with
      trace
      doc := compiled.doc
      views := w.views.push (.mounted root settings options.store compiled.bindings) } :
        World).emit (.mounted w.views.size compiled.bindings)) rfl
  subst hz
  exact ⟨hdoc, hviews, congrArg (fun handles => handles.push { view := w.views.size }) hhandles,
    hlisteners⟩

private theorem mount_eq_ok {w : World} {options : MountOptions} {settings : Settings}
    {handle walks : Nat} {root : NodeId}
    (h : (w.mount options settings).2 = .ok (handle, root, walks)) :
    options.target.resolve w.doc = .ok root ∧ handle = w.handles.size := by
  have hhandles : ∀ (id : ViewId) (inputs : List (NodeId × String)) (x : World),
      (inputs.foldl (fun w (node, key) => (w.perform (.listen node)).listen node (.model id key))
        x).handles = x.handles := by
    intro id inputs
    induction inputs with
    | nil => exact fun _ => rfl
    | cons input rest ih =>
      intro x
      rw [List.foldl_cons, ih]
      dsimp only
      unfold listen
      split <;> rfl
  unfold mount at h
  split at h
  · cases h
  · rename_i found hroot
    obtain ⟨trace, hbound⟩ := foldl_changed
      ((compile w.doc options.store settings found).bindings.filterMap fun b =>
        b.change? (shownText (options.store.get? b.key))) w
    dsimp only at h
    rw [hbound] at h
    obtain ⟨hhandle, hfound⟩ := Prod.mk.inj (Except.ok.inj h)
    obtain ⟨rfl, -⟩ := Prod.mk.inj hfound
    refine ⟨hroot, ?_⟩
    rw [← hhandle]
    exact congrArg Array.size (hhandles _ _ _)

theorem run_mount_eq {w mounted : World} {behaviour : Behaviour} {depth : Nat}
    {options : MountOptions} {settings : Settings} {handle walks : Nat} {root : NodeId}
    (h : w.run behaviour depth (.mount options settings) = (mounted, .mounted handle root walks)) :
    (w.mount options settings).1 = mounted ∧ options.target.resolve w.doc = .ok root ∧
      handle = w.handles.size := by
  simp only [run, exec] at h
  rcases hresult : w.mount options settings with ⟨after, e | ⟨handle', root', walks'⟩⟩ <;>
    rw [hresult] at h
  · cases (Prod.mk.inj h).2
  · obtain ⟨rfl, houtcome⟩ := Prod.mk.inj h
    obtain ⟨rfl, rfl, rfl⟩ := Outcome.mounted.inj houtcome
    exact ⟨rfl, mount_eq_ok (by rw [hresult])⟩

end World
end ViewBinding
