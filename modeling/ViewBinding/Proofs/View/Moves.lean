import Mathlib
import ViewBinding.Proofs.Document.Edits
import ViewBinding.Proofs.View.History

/-!
# What steps are made of

Every step is a sequence of turns, in which a call on a view model is one (`exec_turns`). Taken
apart, it is a sequence of moves: changes of the host, single changes of one view model, calls of
callbacks and notifications (`exec_moves`). What each turn or move keeps is kept by every step.
-/

namespace ViewBinding

/-- Only the bindings of a view model change when one is registered. -/
theorem View.register_eq (v : View) (b : Binding) :
    ∃ registry deferred, v.register b = { v with registry, deferred } := by
  unfold View.register
  split
  · exact ⟨_, v.deferred, rfl⟩
  · exact ⟨v.registry, _, rfl⟩

/-- Only the bindings of a view model change when what had to wait is done. -/
theorem View.settle_eq (v : View) :
    ∃ registry deferred, v.settle = { v with registry, deferred } := by
  unfold View.settle
  split
  · exact ⟨v.registry, v.deferred, rfl⟩
  split
  · exact ⟨_, _, rfl⟩
  · exact ⟨_, _, rfl⟩

theorem View.markDirty_eq (v : View) (key : String) :
    ∃ dirty, v.markDirty key = { v with dirty } := by
  unfold View.markDirty
  split
  · exact ⟨v.dirty, rfl⟩
  · exact ⟨_, rfl⟩

/-- The changes of a view model that are not part of a notification. -/
inductive View.Change : (View → View) → Prop
  | pins (f : Nat → Nat) : View.Change fun v => { v with pins := f v.pins }
  | store (f : Store → Store) : View.Change fun v => { v with store := f v.store }
  | dispose : View.Change View.dispose

/-- The changes that a notification makes to its view model. -/
inductive View.Notified : (View → View) → Prop
  | beginFrame (key : String) : View.Notified fun v => { v with inFlight := key :: v.inFlight }
  | fold (key : String) : View.Notified (·.markDirty key)
  | beginPass : View.Notified fun v => { v with passes := v.passes + 1 }
  | endPass : View.Notified fun v => { v with passes := v.passes - 1 }
  | clear (key : String) : View.Notified (·.clearDirty key)
  | endFrame : View.Notified fun v => { v with inFlight := v.inFlight.tail }.settle

/-- A notification changes only what it keeps account of, and the bindings. -/
theorem View.Notified.eq {f : View → View} (hf : View.Notified f) (v : View) :
    ∃ registry deferred inFlight dirty passes,
      f v = { v with registry, deferred, inFlight, dirty, passes } := by
  cases hf with
  | beginFrame | beginPass | endPass | clear => exact ⟨_, _, _, _, _, rfl⟩
  | fold key =>
    obtain ⟨dirty, h⟩ := v.markDirty_eq key
    exact ⟨_, _, _, dirty, _, h⟩
  | endFrame =>
    obtain ⟨registry, deferred, h⟩ := View.settle_eq { v with inFlight := v.inFlight.tail }
    exact ⟨registry, deferred, _, _, _, h⟩

/-- Steps that concern the document alone. -/
def Step.OfHost : Step → Prop
  | .createElement _ | .createText _ | .createComment _ | .appendChild .. | .appendElement ..
  | .appendText .. | .setAttribute .. | .getAttribute .. | .parseInto .. | .inspect _ | .setText ..
  | .setValue .. | .query _ | .resolve _ | .dump => True
  | _ => False

namespace World

/-- What holds of each of some changes, one after another, holds of all. -/
theorem foldl_of_trans {R : World → World → Prop} (hrefl : ∀ w, R w w)
    (htrans : ∀ {a b c}, R a b → R b c → R a c) {α : Type} {f : World → α → World}
    (h : ∀ w a, R w (f w a)) (list : List α) (w : World) : R w (list.foldl f w) := by
  induction list generalizing w with
  | nil => exact hrefl w
  | cons a rest ih => exact htrans (h w a) (ih _)

/-- A change of the host only: the document is edited, or a callback listens. -/
structure HostChanged (w after : World) : Prop where
  views : after.views = w.views
  trace : after.trace = w.trace
  doc : w.doc.Edits after.doc
  listeners : ∃ new, after.listeners = w.listeners ++ new ∧
    ∀ entry ∈ new, ∃ callback, entry.2 = .callback callback

/-- A part of a step, for a way to run callbacks. -/
inductive Move (call : Caller) : World → World → Prop
  | host {w after} : after.views = w.views → after.trace = w.trace → Move call w after
  | changed (w) (change : HostChange) : Move call w (w.emit (.changed change))
  | view (w) (id : ViewId) {f : View → View} : View.Change f → Move call w (w.modifyView id f)
  | registered (w) (id : ViewId) (b : Binding) :
      w.isDisposed id = false →
        Move call w ((w.modifyView id (·.register b)).emit (.registered id b))
  | mounted (w) (root : NodeId) (settings : Settings) (store : Store) (bindings : List Binding) :
      Move call w (({ w with views := w.views.push (.mounted root settings store bindings) } :
        World).emit (.mounted w.views.size bindings))
  | call (w) (callback : Callback) (text : String) : Move call w (call callback (.changed text) w)
  | tried (w) (b : Binding) (value : Option Value) :
      Move call w ((w.emit (.tried b value)).applyBinding call b value)
  /-- Only a change of an input that is not echoed leaves out a model binding. -/
  | notify (w) (id : ViewId) (key : String) (origin : Option NodeId) :
      (origin.isSome = true → ∀ view, w.views[id]? = some view → view.settings.echo = false) →
        Move call w (w.notifyFrom call id key origin).1

/-- One move after another. -/
abbrev Moves (call : Caller) : World → World → Prop := Relation.ReflTransGen (Move call)

variable {call : Caller}

/-- A part of a call on a view model. -/
inductive Deed (call : Caller) (id : ViewId) : World → World → Prop
  | host {w after} : w.HostChanged after →
      (∀ h ∈ after.handles, h.view ≠ id → h ∈ w.handles) → Deed call id w after
  | store (w) (f : Store → Store) :
      Deed call id w (w.modifyView id fun v => { v with store := f v.store })
  | dispose (w) : Deed call id w (w.modifyView id View.dispose)
  | registered (w) (b : Binding) : w.isDisposed id = false → b.isWatch = true →
      Deed call id w ((w.modifyView id (·.register b)).emit (.registered id b))
  | notify (w) (key : String) (origin : Option NodeId) :
      (origin.isSome = true → ∀ view, w.views[id]? = some view → view.settings.echo = false) →
        Deed call id w (w.notifyFrom call id key origin).1

/-- One part of a call after another. -/
abbrev Deeds (call : Caller) (id : ViewId) : World → World → Prop :=
  Relation.ReflTransGen (Deed call id)

/-- A part of a step in which a call on a view model is one: it is made only while the view model is
alive, and keeps it alive. -/
inductive Turn (call : Caller) : World → World → Prop
  | host {w after} : w.HostChanged after →
      (∀ h ∈ after.handles, h.held = true → h ∈ w.handles) → Turn call w after
  | mount (w) (options : MountOptions) (settings : Settings) :
      Turn call w (w.mount options settings).1
  | call (w) (callback : Callback) (text : String) : Turn call w (call callback (.changed text) w)
  | tried (w) (b : Binding) (value : Option Value) :
      Turn call w ((w.emit (.tried b value)).applyBinding call b value)
  | on {w after} (id : ViewId) : w.isAlive id = true →
      Deeds call id (w.modifyView id fun v => { v with pins := v.pins + 1 }) after →
        Turn call w (after.modifyView id fun v => { v with pins := v.pins - 1 })

abbrev Turns (call : Caller) : World → World → Prop := Relation.ReflTransGen (Turn call)

private theorem deeds_writeValue (w : World) (id : ViewId) (key : String) (value : Value) :
    Deeds call id w (w.writeValue id key value) :=
  .single (.store w (·.set key value))

private theorem deeds_notifyFrom (w : World) (id : ViewId) (key : String) :
    Deeds call id w (w.notifyFrom call id key none).1 :=
  .single (.notify w key none (by simp))

private theorem deeds_handleChange (w : World) (id : ViewId) (node : NodeId) (key text : String) :
    Deeds call id w (w.handleChange call id node key text) := by
  unfold handleChange
  split
  · exact .refl
  rename_i view hview
  split
  · exact .refl
  · refine (deeds_writeValue w id key (.string ((w.doc.value? node).getD text))).tail
      (.notify _ key _ ?_)
    intro horigin view' hview'
    have hsame : view.settings = view'.settings := by
      simp only [writeValue, modifyView, Array.getElem?_modify, if_pos, hview,
        Option.map_some] at hview'
      rw [← Option.some.inj hview']
    rw [← hsame]
    by_contra hecho
    simp [hecho] at horigin

theorem hostChanged_of_doc {w after : World} (hviews : after.views = w.views)
    (htrace : after.trace = w.trace) (hlisteners : after.listeners = w.listeners)
    (hdoc : w.doc.Edits after.doc) : w.HostChanged after :=
  ⟨hviews, htrace, hdoc, [], by simp [hlisteners], by simp⟩

private theorem turns_withDoc {w : World} {doc : Document} (hdoc : w.doc.Edits doc) :
    Turns call w (w.withDoc doc) :=
  .single (.host (hostChanged_of_doc rfl rfl rfl hdoc) fun _ h _ => h)

private theorem turns_newCallback (w : World) (script : ScriptId) :
    Turns call w (w.newCallback script).1 :=
  .single (.host (hostChanged_of_doc rfl rfl rfl .refl) fun _ h _ => h)

theorem hostChanged_listen (w : World) (node : NodeId) (callback : Callback) :
    w.HostChanged (w.listen node (.callback callback)) := by
  unfold listen
  split
  · exact ⟨rfl, rfl, .refl, [(node, .callback callback)], rfl, by simp⟩
  · exact hostChanged_of_doc rfl rfl rfl .refl

private theorem turns_listen (w : World) (node : NodeId) (callback : Callback) :
    Turns call w (w.listen node (.callback callback)) := by
  have hhandles : (w.listen node (.callback callback)).handles = w.handles := by
    unfold listen
    split <;> rfl
  exact .single (.host (hostChanged_listen w node callback) fun _ h _ => hhandles ▸ h)

private theorem turns_onView (w : World) (handle : Nat)
    {action : ViewId → View → World → World × Outcome}
    (h : ∀ id view w, w.views[id]? = some { view with pins := view.pins + 1 } →
      Deeds call id w (action id view w).1) : Turns call w (w.onView handle action).1 := by
  unfold onView
  split
  · exact .refl
  rename_i id hid
  have halive : w.isAlive id = true := by
    simp only [reach?, Option.bind_eq_bind, Option.bind_eq_some_iff] at hid
    obtain ⟨entry, -, hentry⟩ := hid
    split at hentry
    · rename_i halive
      rwa [← Option.some.inj hentry]
    · cases hentry
  split
  · exact .refl
  rename_i view hview
  refine .single (.on id halive (h id view _ ?_))
  simp [modifyView, Array.getElem?_modify, hview]

theorem turns_fire (w : World) (node : NodeId) (text : String) (listener : Listener) :
    Turns call w (fire call node text w listener) := by
  cases listener with
  | callback callback => exact .single (.call _ _ _)
  | model id key =>
    unfold fire
    dsimp only
    split
    · rename_i halive
      exact .single (.on id halive (deeds_handleChange _ id node key text))
    · exact .refl

private theorem turns_dispatch (w : World) (node : NodeId) (text : String) :
    Turns call w (w.dispatch call node text).1 := by
  unfold dispatch
  split
  · have hchanged : Turns call w (w.withDoc (w.doc.setValue node text)) :=
      turns_withDoc (.single (.setValue w.doc node text))
    exact hchanged.trans
      (foldl_of_trans (fun _ => .refl) .trans (fun w => turns_fire w node text) _ _)
  · exact .refl

private theorem turns_mountOutcome {w : World}
    {result : World × Except MountError (Nat × NodeId × Nat)}
    (h : Turns call w result.1) : Turns call w (mountOutcome result).1 := by
  rcases result with ⟨after, e | ⟨handle, root, walks⟩⟩ <;> exact h

private theorem turns_dropHandle (w : World) (handle : Nat) : Turns call w
    (w.dropHandle handle).1 := by
  refine .single (.host (hostChanged_of_doc rfl rfl rfl .refl) fun h hmem hheld => ?_)
  obtain ⟨i, hi, hentry⟩ := Array.mem_iff_getElem.mp hmem
  simp only [dropHandle, Array.getElem_modify] at hentry
  split at hentry
  · rw [← hentry] at hheld
    cases hheld
  · rw [← hentry]
    exact Array.getElem_mem _

/-- A step that concerns the document alone depends on nothing else. -/
theorem exec_ofHost {step : Step} (hstep : step.OfHost) (doc : Document) :
    ∃ (after : Document) (outcome : Outcome), doc.Edits after ∧
      (∀ info, outcome ≠ .viewInfo info) ∧ ∀ (call : Caller) (told : Option Value) (w : World),
        w.doc = doc → w.exec call told step = (w.withDoc after, outcome) := by
  cases step with
  | createElement tag =>
    refine ⟨_, .node (some (doc.createElement tag).2), .single (.createElement doc tag),
      by simp, ?_⟩
    rintro call told w rfl
    rfl
  | createText data =>
    refine ⟨_, .node (some (doc.createText data).2), .single (.createText doc data), by simp, ?_⟩
    rintro call told w rfl
    rfl
  | createComment data =>
    refine ⟨_, .node (some (doc.createComment data).2), .single (.createComment doc data),
      by simp, ?_⟩
    rintro call told w rfl
    rfl
  | appendChild parent child =>
    cases h : doc.appendChild parent child with
    | error e =>
      refine ⟨doc, .treeError e, .refl, by simp, ?_⟩
      rintro call told w rfl
      simp only [exec, h, treeOutcome, withDoc]
    | ok after =>
      refine ⟨after, .done, .single (.appendChild h), by simp, ?_⟩
      rintro call told w rfl
      simp only [exec, h, treeOutcome]
  | setAttribute node name value =>
    cases h : doc.setAttribute node name value with
    | error e =>
      refine ⟨doc, .treeError e, .refl, by simp, ?_⟩
      rintro call told w rfl
      simp only [exec, h, treeOutcome, withDoc]
    | ok after =>
      refine ⟨after, .done, .single (.setAttribute h), by simp, ?_⟩
      rintro call told w rfl
      simp only [exec, h, treeOutcome]
  | appendElement parent tag attributes =>
    have hedits := Document.edits_appendElement doc parent tag attributes
    rcases h : doc.appendElement parent tag attributes with ⟨after, e | id⟩ <;> rw [h] at hedits
    · refine ⟨after, .treeError e, hedits, by simp, ?_⟩
      rintro call told w rfl
      simp only [exec, h, appendOutcome]
    · refine ⟨after, .node (some id), hedits, by simp, ?_⟩
      rintro call told w rfl
      simp only [exec, h, appendOutcome]
  | appendText parent data =>
    have hedits := Document.edits_appendText doc parent data
    rcases h : doc.appendText parent data with ⟨after, e | id⟩ <;> rw [h] at hedits
    · refine ⟨after, .treeError e, hedits, by simp, ?_⟩
      rintro call told w rfl
      simp only [exec, h, appendOutcome]
    · refine ⟨after, .node (some id), hedits, by simp, ?_⟩
      rintro call told w rfl
      simp only [exec, h, appendOutcome]
  | parseInto parent markup =>
    have hedits := Document.edits_parseInto doc parent markup
    rcases h : doc.parseInto parent markup with ⟨after, e | _⟩ <;> rw [h] at hedits
    · refine ⟨after, .markupError e, hedits, by simp, ?_⟩
      rintro call told w rfl
      simp only [exec, h]
    · refine ⟨after, .done, hedits, by simp, ?_⟩
      rintro call told w rfl
      simp only [exec, h]
  | getAttribute node name =>
    refine ⟨doc, .text (doc.attribute? node name), .refl, by simp, ?_⟩
    rintro call told w rfl
    rfl
  | inspect node =>
    refine ⟨doc, .nodeInfo (doc.info node), .refl, by simp, ?_⟩
    rintro call told w rfl
    rfl
  | query selector =>
    refine ⟨doc, .node (doc.query? selector), .refl, by simp, ?_⟩
    rintro call told w rfl
    rfl
  | dump =>
    refine ⟨doc, .dump doc.nodes.toList, .refl, by simp, ?_⟩
    rintro call told w rfl
    rfl
  | resolve target =>
    cases h : target.resolve doc with
    | error e =>
      refine ⟨doc, .mountError e, .refl, by simp, ?_⟩
      rintro call told w rfl
      simp only [exec, h, withDoc]
    | ok id =>
      refine ⟨doc, .node (some id), .refl, by simp, ?_⟩
      rintro call told w rfl
      simp only [exec, h, withDoc]
  | setText node text =>
    refine ⟨_, .done, .single (.setTextContent doc node text), by simp, ?_⟩
    rintro call told w rfl
    rfl
  | setValue node text =>
    refine ⟨_, .done, .single (.setValue doc node text), by simp, ?_⟩
    rintro call told w rfl
    rfl
  | _ => exact hstep.elim

private theorem turns_exec_ofHost (told : Option Value) (w : World) {step : Step}
    (hstep : step.OfHost) : Turns call w (w.exec call told step).1 := by
  obtain ⟨after, outcome, hedits, -, hexec⟩ := exec_ofHost hstep w.doc
  rw [hexec call told w rfl]
  exact turns_withDoc hedits

/-- A step is a sequence of turns. -/
theorem exec_turns (told : Option Value) (w : World) (step : Step) :
    Turns call w (w.exec call told step).1 := by
  cases step with
  | createElement | createText | createComment | appendChild | setAttribute | appendElement
  | appendText | parseInto | getAttribute | inspect | query | dump | resolve | setText | setValue =>
    exact turns_exec_ofHost told w trivial
  | documentInfo => exact .refl
  | dispatch node text => exact turns_dispatch w node text
  | listen node script =>
    exact (turns_newCallback w script).trans (turns_listen _ node _)
  | apply subject node value =>
    cases subject with
    | interpolation target text =>
      cases h : Template.parse? .standard text with
      | none =>
        simp only [exec, subjectBinding, h, Option.map_none]
        exact .refl
      | some template =>
        simp only [exec, subjectBinding, h, Option.map_some]
        exact .single (.tried w _ value)
    | text target key => exact .single (.tried w (.text target key) value)
    | model target key => exact .single (.tried w (.model target key) value)
    | watch key script =>
      exact (turns_newCallback w script).tail (.tried _ (.watch key _) value)
  | mount options settings => exact turns_mountOutcome (.single (.mount w _ _))
  | mountConfig format text =>
    cases h : ViewConfig.read format text <;> simp only [exec, h]
    · exact .refl
    · exact turns_mountOutcome (.single (.mount w _ _))
  | clone handle =>
    refine turns_onView w handle fun id view w _ =>
      .single (.host (hostChanged_of_doc rfl rfl rfl .refl) fun h hmem hne => ?_)
    rcases Array.mem_push.mp hmem with hmem | rfl
    · exact hmem
    · exact absurd rfl hne
  | drop handle => exact turns_dropHandle w handle
  | get handle | data handle | bindingCount handle | watchedKeys handle | viewInfo handle =>
    exact turns_onView w handle fun _ _ _ _ => .refl
  | write handle key operand =>
    exact turns_onView w handle fun id _ w _ => deeds_writeValue w id _ _
  | set handle key operand =>
    exact turns_onView w handle fun id _ w _ =>
      (deeds_writeValue w id _ _).trans (deeds_notifyFrom _ id _)
  | notify handle key => exact turns_onView w handle fun id _ w _ => deeds_notifyFrom w id _
  | watch handle key script =>
    apply turns_onView w handle
    intro id view w hview
    dsimp only
    split
    · exact .refl
    · rename_i halive
      have hmade : Deeds call id w (w.newCallback script).1 :=
        .single (.host (hostChanged_of_doc rfl rfl rfl .refl) fun _ h _ => h)
      refine hmade.tail (.registered _ _ ?_ rfl)
      change w.isDisposed id = false
      rw [isDisposed, hview]
      exact eq_false_of_ne_true halive
  | dispose handle => exact turns_onView w handle fun id _ w _ => .single (.dispose w)

/-! ## Moves -/

private theorem moves_withDoc (w : World) (doc : Document) : Moves call w (w.withDoc doc) :=
  .single (.host rfl rfl)

theorem views_foldl {α : Type} {f : World → α → World} (h : ∀ w a, (f w a).views = w.views)
    (list : List α) (w : World) : (list.foldl f w).views = w.views :=
  foldl_of_trans (R := fun a b => b.views = a.views) (fun _ => rfl) (fun hab hbc => hbc.trans hab)
    h list w

theorem moves_mount (w : World) (options : MountOptions) (settings : Settings) :
    Moves call w (w.mount options settings).1 := by
  unfold mount
  split
  · exact .refl
  rename_i root _
  generalize compile w.doc options.store settings root = compiled
  have hchanged : ∀ (w' : World) (change : HostChange), Moves call w' (w'.emit (.changed change)) :=
    fun w' change => .single (.changed w' change)
  have hbound := foldl_of_trans (fun _ => .refl) .trans hchanged
    (compiled.bindings.filterMap fun b => b.change? (shownText (options.store.get? b.key))) w
  have hmounted := hbound.tail
    (.mounted _ root settings options.store compiled.bindings)
  rw [views_foldl (f := fun w change => w.emit (.changed change)) fun _ _ => rfl] at hmounted
  have hlisten : ∀ (w' : World) (input : NodeId × String), Moves call w'
      ((w'.perform (.listen input.1)).listen input.1 (.model w.views.size input.2)) := by
    intro w' input
    have hperformed : Moves call w' (w'.perform (.listen input.1)) :=
      (hchanged w' _).tail (.host rfl rfl)
    unfold listen
    split
    · exact hperformed.tail (.host rfl rfl)
    · exact hperformed
  have hlistening := (hmounted.trans (moves_withDoc _ compiled.doc)).trans
    (foldl_of_trans (fun _ => .refl) .trans hlisten compiled.modelInputs _)
  exact hlistening.tail (.host rfl rfl)

private theorem Deeds.moves {w after : World} {id : ViewId} (h : Deeds call id w after) :
    Moves call w after := by
  induction h with
  | refl => exact .refl
  | tail _ hdeed ih =>
    refine ih.tail ?_
    cases hdeed with
    | host hhost _ => exact .host hhost.views hhost.trace
    | store f => exact .view _ id (.store f)
    | dispose => exact .view _ id .dispose
    | registered b halive _ => exact .registered _ id b halive
    | notify key origin hecho => exact .notify _ id key origin hecho

private theorem Turn.moves {w after : World} (h : Turn call w after) : Moves call w after := by
  cases h with
  | host hhost _ => exact .single (.host hhost.views hhost.trace)
  | mount options settings => exact moves_mount w options settings
  | call callback text => exact .single (.call w callback text)
  | tried b value => exact .single (.tried w b value)
  | on id _ hdeeds =>
    have hpin : Moves call w (w.modifyView id fun v => { v with pins := v.pins + 1 }) :=
      .single (.view w id (.pins (· + 1)))
    exact (hpin.trans hdeeds.moves).tail (.view _ id (.pins (· - 1)))

theorem Turns.moves {w after : World} (h : Turns call w after) : Moves call w after := by
  induction h with
  | refl => exact .refl
  | tail _ hturn ih => exact ih.trans hturn.moves

/-- A step is a sequence of moves. -/
theorem exec_moves (told : Option Value) (w : World) (step : Step) :
    Moves call w (w.exec call told step).1 :=
  (exec_turns told w step).moves

/-! ## What notifications keep -/

/-- What holds of worlds all through the notifications by a view model, whose bindings are such that
the changes by them keep it. -/
structure Guarded (id : ViewId) (P : Binding → Prop) (I : World → Prop) : Prop where
  watchers : ∀ {w : World}, I w → ∀ key, ∀ b ∈ w.watchers id key, P b
  modifyView : ∀ {w : World} {f : View → View}, View.Notified f → I w → I (w.modifyView id f)
  emit : ∀ {w : World} {e : Event}, e.OfNotification id → I w → I (w.emit e)
  perform : ∀ {w : World} {b : Binding} {shown : String} {change : HostChange},
    P b → b.change? shown = some change → I w → I (w.perform change)

/-- The callbacks of watchers keep what holds. -/
def Heeds (call : Caller) (P : Binding → Prop) (I : World → Prop) : Prop :=
  ∀ key callback, P (.watch key callback) →
    ∀ value w, I w → I (call callback (.watched value) w)

namespace Guarded

variable {P : Binding → Prop} {I : World → Prop} {id : ViewId}

theorem applyBinding (h : Guarded id P I) (hcall : Heeds call P I) {w : World} {b : Binding}
    (hb : P b) (value : Option Value) (hw : I w) : I (w.applyBinding call b value) := by
  unfold World.applyBinding
  split
  · exact hcall _ _ hb _ w hw
  split
  · rename_i change hchange
    exact h.perform hb hchange hw
  · exact hw

private theorem visitBinding (h : Guarded id P I) (hcall : Heeds call P I) (key : String)
    (origin : Option NodeId) (viewOnly : Bool) {w : World} {b : Binding} (hb : P b) (hw : I w) :
    I (World.visitBinding call id key origin viewOnly w b) := by
  unfold World.visitBinding
  split
  · exact hw
  split
  · exact hw
  · exact h.applyBinding hcall hb _ (h.emit rfl hw)

private theorem foldl_visitBinding (h : Guarded id P I) (hcall : Heeds call P I) (key : String)
    (origin : Option NodeId) (viewOnly : Bool) {bindings : List Binding} (hb : ∀ b ∈ bindings, P b)
    {w : World} (hw : I w) :
    I (bindings.foldl (World.visitBinding call id key origin viewOnly) w) :=
  List.foldlRecOn _ _ hw fun _ hw b hmem => h.visitBinding hcall key origin viewOnly (hb b hmem) hw

theorem runPass (h : Guarded id P I) (hcall : Heeds call P I) {w : World} (key : String)
    (origin : Option NodeId) (viewOnly : Bool) (hw : I w) :
    I (w.runPass call id key origin viewOnly).1 := by
  have hbegan := h.emit (e := .passBegan id key viewOnly) rfl (h.modifyView .beginPass hw)
  have hran := h.foldl_visitBinding hcall key origin viewOnly (h.watchers hw key) hbegan
  exact h.emit rfl (h.modifyView .endPass hran)

theorem repeatPasses (h : Guarded id P I) (hcall : Heeds call P I) (key : String)
    (remaining ran : Nat) {w : World} (hw : I w) :
    I (w.repeatPasses call id key remaining ran).1 := by
  induction remaining generalizing ran w with
  | zero =>
    have hcleared := h.modifyView (.clear key) hw
    unfold World.repeatPasses
    dsimp only
    split
    · exact h.runPass hcall key none true hcleared
    · exact hcleared
  | succ remaining ih =>
    have hcleared := h.modifyView (.clear key) hw
    unfold World.repeatPasses
    dsimp only
    split
    · exact ih _ (h.runPass hcall key none false hcleared)
    · exact hcleared

theorem notifyFrom (h : Guarded id P I) (hcall : Heeds call P I) {w : World} (key : String)
    (origin : Option NodeId) (hw : I w) : I (w.notifyFrom call id key origin).1 := by
  unfold World.notifyFrom
  split
  · exact hw
  split
  · exact h.emit rfl (h.modifyView (.fold key) hw)
  · have hbegan := h.emit (e := .frameBegan id key origin) rfl (h.modifyView (.beginFrame key) hw)
    have hlast := fun ran =>
      h.repeatPasses hcall key (maxPasses - 1) ran (h.runPass hcall key origin false hbegan)
    exact h.emit rfl (h.modifyView .endFrame (hlast _))

end Guarded

/-- A relation of worlds that holds of everything that notifications by a view model do. -/
structure Closed (id : ViewId) (R : World → World → Prop) : Prop where
  refl : ∀ w, R w w
  trans : ∀ {a b c}, R a b → R b c → R a c
  modifyView : ∀ (w : World) {f : View → View}, View.Notified f → R w (w.modifyView id f)
  emit : ∀ (w : World) {e : Event}, e.OfNotification id → R w (w.emit e)
  perform : ∀ (w : World) (change : HostChange), R w (w.perform change)

namespace Closed

variable {R : World → World → Prop} {id : ViewId}

theorem guarded (h : Closed id R) (w : World) : Guarded id (fun _ => True) (R w) where
  watchers := fun _ _ _ _ => trivial
  modifyView := fun hf hw => h.trans hw (h.modifyView _ hf)
  emit := fun he hw => h.trans hw (h.emit _ he)
  perform := fun _ _ hw => h.trans hw (h.perform _ _)

theorem applyBinding (h : Closed id R) (hcall : ∀ callback notice w, R w (call callback notice w))
    (w : World) (b : Binding) (value : Option Value) : R w (w.applyBinding call b value) :=
  (h.guarded w).applyBinding (fun _ _ _ _ _ hw => h.trans hw (hcall _ _ _)) trivial value (h.refl w)

theorem notifyFrom (h : Closed id R) (hcall : ∀ callback notice w, R w (call callback notice w))
    (w : World) (key : String) (origin : Option NodeId) :
    R w (w.notifyFrom call id key origin).1 :=
  (h.guarded w).notifyFrom (fun _ _ _ _ _ hw => h.trans hw (hcall _ _ _)) key origin (h.refl w)

end Closed

/-- What has happened stays in the trace. -/
def Grows (w after : World) : Prop := ∃ new, after.trace = new ++ w.trace

theorem Grows.trans {a b c : World} (hab : a.Grows b) (hbc : b.Grows c) : a.Grows c := by
  obtain ⟨new, hnew⟩ := hab
  obtain ⟨newer, hnewer⟩ := hbc
  exact ⟨newer ++ new, by rw [hnewer, hnew, List.append_assoc]⟩

theorem closed_grows (id : ViewId) : Closed id Grows where
  refl := fun _ => ⟨[], rfl⟩
  trans := Grows.trans
  modifyView := fun _ _ _ => ⟨[], rfl⟩
  emit := fun _ _ _ => ⟨[_], rfl⟩
  perform := fun _ _ => ⟨[_], rfl⟩

private theorem Move.grows (hcall : ∀ callback notice w, Grows w (call callback notice w))
    {w after : World} (h : Move call w after) : w.Grows after := by
  cases h with
  | host _ htrace => exact ⟨[], htrace⟩
  | changed change => exact ⟨[_], rfl⟩
  | view id hf => exact ⟨[], rfl⟩
  | registered id b _ => exact ⟨[_], rfl⟩
  | mounted root settings store bindings => exact ⟨[_], rfl⟩
  | call callback text => exact hcall callback (.changed text) w
  | tried b value => exact Grows.trans ⟨[_], rfl⟩ ((closed_grows 0).applyBinding hcall _ b value)
  | notify id key origin _ => exact (closed_grows id).notifyFrom hcall w key origin

private theorem Moves.grows (hcall : ∀ callback notice w, Grows w (call callback notice w))
    {w after : World} (h : Moves call w after) : w.Grows after := by
  induction h with
  | refl => exact ⟨[], rfl⟩
  | tail _ hmove ih => exact ih.trans (hmove.grows hcall)

/-- A relation of worlds that steps keep when callbacks keep it. -/
structure Lasting (R : World → World → Prop) : Prop where
  refl : ∀ w, R w w
  trans : ∀ {a b c}, R a b → R b c → R a c
  emit : ∀ (w : World) {e : Event}, e.Plain → R w (w.emit e)
  countCall : ∀ (w : World) (callback : Callback), R w (w.countCall callback)
  exec : ∀ {call : Caller}, (∀ callback notice w, R w (call callback notice w)) →
    ∀ told (w : World) step, R w (w.exec call told step).1

namespace Lasting

variable {R : World → World → Prop}

theorem execScripted (h : Lasting R) (hcall : ∀ callback notice w, R w (call callback notice w))
    (callback : Callback) (told : Option Value) (w : World) (step : Step) :
    R w (World.execScripted call callback told w step) :=
  h.trans (h.exec hcall told w step) (h.emit _ trivial)

/-- Callbacks keep it, however deep they nest. -/
theorem calls (h : Lasting R) (behaviour : Behaviour) (depth : Nat) (callback : Callback)
    (notice : Notice) (w : World) : R w (World.call behaviour depth callback notice w) := by
  induction depth generalizing callback notice w with
  | zero => exact h.emit w trivial
  | succ depth ih =>
    have hcounted := h.trans (h.emit w (e := .called callback notice) trivial)
      (h.countCall _ callback)
    exact h.trans hcounted
      (foldl_of_trans h.refl h.trans (h.execScripted ih callback notice.told) _ _)

theorem run (h : Lasting R) (behaviour : Behaviour) (depth : Nat) (w : World) (step : Step) :
    R w (w.run behaviour depth step).1 :=
  h.exec (h.calls behaviour depth) none w step

end Lasting

theorem lasting_grows : Lasting Grows where
  refl := fun _ => ⟨[], rfl⟩
  trans := Grows.trans
  emit := fun _ _ _ => ⟨[_], rfl⟩
  countCall := fun _ _ => ⟨[], rfl⟩
  exec := fun hcall told w step => (exec_moves told w step).grows hcall

end World
end ViewBinding
