import Mathlib
import ViewBinding.Proofs.View.Moves

/-!
# Invariants of worlds

A property of worlds that is kept by changes of the host, by each change of a view model and by
mounting (`Upheld`) is kept by every step, and by callbacks however deep they nest
(`Upheld.lasting`). What happens is recorded in the trace, on which such a property does not depend.
-/

namespace ViewBinding
namespace World

/-- A property of worlds that everything keeps that steps are made of. -/
structure Upheld (I : World → Prop) : Prop where
  host : ∀ {w after : World}, w.HostChanged after → I w → I after
  emit : ∀ {w : World} (e : Event), I w → I (w.emit e)
  notified : ∀ {w : World} (id : ViewId) {f : View → View}, View.Notified f → I w →
    I (w.modifyView id f)
  changed : ∀ {w : World} (id : ViewId) {f : View → View}, View.Change f → I w →
    I (w.modifyView id f)
  /-- Only watchers are registered with a view model that is mounted. -/
  registered : ∀ {w : World} (id : ViewId) {b : Binding}, b.isWatch = true → I w →
    I (w.modifyView id (·.register b))
  mount : ∀ {w : World} (options : MountOptions) (settings : Settings), I w →
    I (w.mount options settings).1

namespace Upheld

variable {I : World → Prop} {call : Caller} {w after : World}

private theorem perform (h : Upheld I) (change : HostChange) (hw : I w) : I (w.perform change) := by
  have hhost : (w.emit (.changed change)).HostChanged (w.perform change) :=
    hostChanged_of_doc rfl rfl rfl (Document.edits_perform w.doc change)
  exact h.host hhost (h.emit _ hw)

private theorem guarded (h : Upheld I) (id : ViewId) : Guarded id (fun _ => True) I where
  watchers := fun _ _ _ _ => trivial
  modifyView := h.notified id
  emit := fun _ => h.emit _
  perform := fun _ _ => h.perform _

section

variable (hcall : ∀ callback notice w, I w → I (call callback notice w))

include hcall

private theorem applyBinding (h : Upheld I) (b : Binding) (value : Option Value) (hw : I w) :
    I (w.applyBinding call b value) :=
  (h.guarded 0).applyBinding (fun _ _ _ _ => hcall _ _) trivial value hw

private theorem deeds (h : Upheld I) {id : ViewId} (hdeeds : Deeds call id w after) (hw : I w) :
    I after := by
  induction hdeeds with
  | refl => exact hw
  | tail _ hdeed ih =>
    cases hdeed with
    | host hhost _ => exact h.host hhost ih
    | store f => exact h.changed id (.store f) ih
    | dispose => exact h.changed id .dispose ih
    | registered b _ hwatch => exact h.emit _ (h.registered id hwatch ih)
    | notify key origin _ => exact (h.guarded id).notifyFrom (fun _ _ _ _ => hcall _ _) key origin ih

private theorem turns (h : Upheld I) (hturns : Turns call w after) (hw : I w) : I after := by
  induction hturns with
  | refl => exact hw
  | tail _ hturn ih =>
    cases hturn with
    | host hhost _ => exact h.host hhost ih
    | mount options settings => exact h.mount options settings ih
    | call callback text => exact hcall _ _ _ ih
    | tried b value => exact h.applyBinding hcall b value (h.emit _ ih)
    | on id _ hdeeds =>
      exact h.changed id (.pins (· - 1)) (h.deeds hcall hdeeds (h.changed id (.pins (· + 1)) ih))

end

/-- It is kept by steps, when callbacks keep it, and by callbacks. -/
theorem lasting (h : Upheld I) : Lasting fun w after => I w → I after where
  refl := fun _ hw => hw
  trans := fun hab hbc hw => hbc (hab hw)
  emit := fun _ _ _ => h.emit _
  countCall := fun _ _ => h.host (hostChanged_of_doc rfl rfl rfl .refl)
  exec := fun hcall told w step => h.turns hcall (exec_turns told w step)

end Upheld
end World
end ViewBinding
