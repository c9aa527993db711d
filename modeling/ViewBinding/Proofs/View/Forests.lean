import Mathlib
import ViewBinding.Proofs.Document.Bounds
import ViewBinding.Proofs.View.Bookkeeping

/-!
# The document of a run

Whatever steps are taken, by callbacks or at top level and refused or not, the document is made by
operations alone, and so is every document that a callback can see (`Made`). Hence all of them are
forests (`runAll_isForest`).
-/

namespace ViewBinding
namespace World

/-- The document was made by operations, and so was each that a callback has had dumped. -/
structure Made (w : World) : Prop where
  doc : w.doc.Reachable
  dumps : ∀ m ∈ w.trace, ∀ callback nodes, m.event = .did callback .dump (.dump nodes) →
    Document.Reachable ⟨nodes.toArray⟩

variable {call : Caller} {w after : World}

private theorem Made.host (h : w.Made) (hdoc : w.doc.Edits after.doc)
    (htrace : after.trace = w.trace) : after.Made :=
  ⟨hdoc.reachable h.doc, htrace ▸ h.dumps⟩

private theorem Made.emit (h : w.Made) {e : Event} (he : ∀ callback nodes,
    e = .did callback .dump (.dump nodes) → Document.Reachable ⟨nodes.toArray⟩) :
    (w.emit e).Made := by
  refine ⟨h.doc, fun m hm callback nodes hevent => ?_⟩
  rcases List.mem_cons.mp hm with rfl | hm
  · exact he callback nodes hevent
  · exact h.dumps m hm callback nodes hevent

private theorem Made.perform (h : w.Made) (change : HostChange) : (w.perform change).Made :=
  (h.emit (e := .changed change) (by simp)).host (Document.edits_perform w.doc change) rfl

private theorem guarded_made (id : ViewId) : Guarded id (fun _ => True) Made where
  watchers := fun _ _ _ _ => trivial
  modifyView := fun _ h => h.host .refl rfl
  emit := by
    intro w e he h
    refine h.emit fun callback nodes hevent => ?_
    rw [hevent] at he
    exact he.elim
  perform := fun _ _ h => h.perform _

private theorem made_foldl_changed (changes : List HostChange) (h : w.Made) :
    (changes.foldl (fun w change => w.emit (.changed change)) w).Made ∧
      (changes.foldl (fun w change => w.emit (.changed change)) w).doc = w.doc := by
  induction changes generalizing w with
  | nil => exact ⟨h, rfl⟩
  | cons change rest ih => exact ih (h.emit (e := .changed change) (by simp))

private theorem made_foldl_listen (id : ViewId) (inputs : List (NodeId × String)) (h : w.Made) :
    (inputs.foldl (fun w (node, key) =>
      (w.perform (.listen node)).listen node (.model id key)) w).Made := by
  induction inputs generalizing w with
  | nil => exact h
  | cons input rest ih =>
    refine ih ?_
    dsimp only
    unfold listen
    split
    · exact (h.perform (.listen input.1)).host .refl rfl
    · exact h.perform (.listen input.1)

theorem Made.mount (h : w.Made) (options : MountOptions) (settings : Settings) :
    (w.mount options settings).1.Made := by
  unfold World.mount
  split
  · exact h
  rename_i root _
  have hcompiled := h.doc.wellFormed.edits_compile options.store settings root
  generalize compile w.doc options.store settings root = compiled at hcompiled
  obtain ⟨hbound, hdoc⟩ := made_foldl_changed
    (compiled.bindings.filterMap fun b => b.change? (shownText (options.store.get? b.key))) h
  rw [← hdoc] at hcompiled
  have hplaced : World.Made { List.foldl (fun w change => w.emit (.changed change)) w
      (compiled.bindings.filterMap fun b => b.change? (shownText (options.store.get? b.key))) with
        doc := compiled.doc
        views := w.views.push (.mounted root settings options.store compiled.bindings) } :=
    hbound.host hcompiled rfl
  have hmounted := hplaced.emit (e := .mounted w.views.size compiled.bindings) (by simp)
  exact (made_foldl_listen w.views.size compiled.modelInputs hmounted).host .refl rfl

private theorem Deeds.made {id : ViewId}
    (hcall : ∀ callback notice w, Made w → (call callback notice w).Made)
    (hdeeds : Deeds call id w after) (h : w.Made) : after.Made := by
  induction hdeeds with
  | refl => exact h
  | tail _ hdeed ih =>
    cases hdeed with
    | host hhost _ => exact ih.host hhost.doc hhost.trace
    | store | dispose => exact ih.host .refl rfl
    | registered b =>
      have hadded : (World.modifyView _ id (·.register b)).Made := ih.host .refl rfl
      exact hadded.emit (e := .registered id b) (by simp)
    | notify key origin _ =>
      exact (guarded_made id).notifyFrom (fun _ _ _ _ => hcall _ _) key origin ih

private theorem Turns.made (hcall : ∀ callback notice w, Made w → (call callback notice w).Made)
    (hturns : Turns call w after) (h : w.Made) : after.Made := by
  induction hturns with
  | refl => exact h
  | tail _ hturn ih =>
    cases hturn with
    | host hhost _ => exact ih.host hhost.doc hhost.trace
    | mount options settings => exact ih.mount options settings
    | call callback text => exact hcall _ _ _ ih
    | tried b value =>
      exact (guarded_made 0).applyBinding (fun _ _ _ _ => hcall _ _) trivial value (ih.emit (by simp))
    | on id _ hdeeds => exact (hdeeds.made hcall (ih.host .refl rfl)).host .refl rfl

private theorem exec_dump {told : Option Value} {nodes : List Node} {step : Step}
    (hstep : step = .dump) (houtcome : (w.exec call told step).2 = .dump nodes) :
    ⟨nodes.toArray⟩ = w.doc := by
  subst hstep
  simp only [exec, Outcome.dump.injEq] at houtcome
  rw [← houtcome, Array.toArray_toList]

private theorem Made.execScripted
    (hcall : ∀ callback notice w, Made w → (call callback notice w).Made)
    (h : w.Made) (callback : Callback) (told : Option Value) (step : Step) :
    (w.execScripted call callback told step).Made := by
  refine ((exec_turns told w step).made hcall h).emit fun by_ nodes hevent => ?_
  obtain ⟨-, hstep, houtcome⟩ := Event.did.inj hevent
  rw [exec_dump hstep houtcome]
  exact h.doc

private theorem made_call (behaviour : Behaviour) (depth : Nat) (callback : Callback)
    (notice : Notice) (w : World) (h : w.Made) :
    (World.call behaviour depth callback notice w).Made := by
  induction depth generalizing callback notice w with
  | zero => exact h.emit (e := .exhausted callback) (by simp)
  | succ depth ih =>
    have hcounted : ((w.emit (.called callback notice)).countCall callback).Made :=
      (h.emit (e := .called callback notice) (by simp)).host .refl rfl
    exact List.foldlRecOn _ _ hcounted fun w hw step _ =>
      hw.execScripted ih callback notice.told step

theorem made_runAll (behaviour : Behaviour) (depth : Nat) (steps : List Step) (h : w.Made) :
    (w.runAll behaviour depth steps).Made :=
  List.foldlRecOn _ _ h fun _ hw step _ =>
    (exec_turns none _ step).made (made_call behaviour depth) hw

/-- The document is a forest after every run of steps, and so is every document that callbacks see
in the course of it. -/
theorem runAll_isForest {doc : Document}
    (hdoc : doc = .empty ∨ ∃ markup, Document.parse markup = .ok doc) (behaviour : Behaviour)
    (depth : Nat) (steps : List Step) :
    ((ofDocument doc).runAll behaviour depth steps).doc.IsForest ∧
      ∀ m ∈ ((ofDocument doc).runAll behaviour depth steps).trace, ∀ callback nodes,
        m.event = .did callback .dump (.dump nodes) → Document.IsForest ⟨nodes.toArray⟩ := by
  have hreachable : doc.Reachable := by
    rcases hdoc with rfl | ⟨markup, hmarkup⟩
    · exact .empty
    · exact Document.reachable_parse hmarkup
  have hmade : ((ofDocument doc).runAll behaviour depth steps).Made :=
    made_runAll behaviour depth steps ⟨hreachable, by simp [ofDocument]⟩
  exact ⟨hmade.doc.wellFormed.isForest, fun m hm callback nodes hevent =>
    (hmade.dumps m hm callback nodes hevent).wellFormed.isForest⟩

/-- A note with an input. -/
def note : Document :=
  (Document.parse "<p>Hi</p><input>").toOption.getD .empty

/-- A callback that moves nodes about, refused or not, and looks at what has come of it. -/
def meddling : Behaviour := fun _ _ _ =>
  [.appendChild 1 1, .setText 1 "", .parseInto 2 "x<b><i></b>", .appendChild 1 3, .dump]

theorem note_isForest :
    let w := (ofDocument note).runAll meddling 9
      [.listen 3 0, .dispatch 3 "typed", .appendChild 1 0, .appendText 9 "lost"]
    (w.doc.size = 8 ∧ w.calls = #[1]) ∧ w.doc.IsForest ∧
      ∀ m ∈ w.trace, ∀ callback nodes, m.event = .did callback .dump (.dump nodes) →
        Document.IsForest ⟨nodes.toArray⟩ := by
  intro w
  have hnote : ∃ markup, Document.parse markup = .ok note := by
    refine ⟨"<p>Hi</p><input>", ?_⟩
    have hread : (Document.parse "<p>Hi</p><input>").toBool = true := by decide +kernel
    unfold note
    cases h : Document.parse "<p>Hi</p><input>" with
    | ok doc => rfl
    | error e =>
      rw [h] at hread
      cases hread
  exact ⟨by decide +kernel, runAll_isForest (Or.inr hnote) _ _ _⟩

end World
end ViewBinding
