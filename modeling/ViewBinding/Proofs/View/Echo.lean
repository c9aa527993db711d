import Mathlib
import ViewBinding.Proofs.View.Mirror

/-!
# Echoes

A view model that echoes writes a change by the user back to the input that it came from. Every step
moves on together with the same step without echoes (`alike_exec`), so nothing else comes of it in
any run (`runAll_echo`).
-/

namespace ViewBinding

/-- What a callback is told, with the stores at that time. -/
def Moment.heard? (m : Moment) : Option (Callback × Notice × Array Store) :=
  match m.event with
  | .called callback notice => some (callback, notice, m.views.map View.store)
  | _ => none

/-- The change that a view model makes to its host. -/
def Moment.change? (m : Moment) : Option HostChange :=
  match m.event with
  | .changed change => some change
  | _ => none

private theorem Moment.heard?_withoutEcho (m : Moment) : m.withoutEcho.heard? = m.heard? := by
  obtain ⟨event, views⟩ := m
  cases event with
  | called =>
    have hstore : View.store ∘ View.withoutEcho = View.store := rfl
    simp [withoutEcho, Event.withoutEcho, heard?, hstore]
  | _ => rfl

private theorem Moment.change?_withoutEcho (m : Moment) : m.withoutEcho.change? = m.change? := by
  obtain ⟨event, views⟩ := m
  cases event <;> rfl

namespace World

open Trace

variable {start : World × World} {on off : World} {c d : Caller} {id : ViewId}

/-! ## Changes of inputs -/

section

variable {call : Caller} {w : World} {view : View} {node : NodeId} {key text value : String}

private theorem handleChange_of_disposed (hview : w.views[id]? = some view)
    (hdisposed : view.disposed = true) : w.handleChange call id node key text = w := by
  simp only [World.handleChange, hview, hdisposed, if_true]

theorem handleChange_of_alive (hview : w.views[id]? = some view) (halive : view.disposed = false)
    (hvalue : w.doc.value? node = some value) : w.handleChange call id node key text =
      ((w.modifyView id fun v => { v with store := v.store.set key (.string value) }).notifyFrom
        call id key (if view.settings.echo then none else some node)).1 := by
  simp only [World.handleChange, hview, halive, hvalue, Option.getD_some, Bool.false_eq_true,
    if_false]

end

namespace Together

private theorem handleChange (hcall : Tuned c d) (h : Together start on off) {node : NodeId}
    {key : String} (hmem : (node, .model id key) ∈ on.listeners) (text : String) :
    Together start (on.handleChange c id node key text) (off.handleChange d id node key text) := by
  obtain ⟨hvalue, view, hview, -⟩ := h.attached.inputs node id key hmem
  obtain ⟨value, hvalue⟩ := Option.isSome_iff_exists.mp hvalue
  have hoff : off.views[id]? = some view.withoutEcho := by
    rw [h.mirrors.getElem?_views, hview]
    rfl
  cases halive : view.disposed with
  | true =>
    rw [handleChange_of_disposed hview halive, handleChange_of_disposed hoff halive]
    exact h
  | false =>
    have hvalue' : off.doc.value? node = some value := by rw [h.mirrors.doc, hvalue]
    rw [handleChange_of_alive hview halive hvalue, handleChange_of_alive hoff halive hvalue']
    have hwritten := h.changed id (.store (·.set key (.string value)))
    have hview' := getElem?_modifyView_self hview
      fun v => { v with store := v.store.set key (.string value) }
    cases hecho : view.settings.echo with
    | true =>
      exact hwritten.notifyFrom_echo hcall hview' halive hecho (Store.get?_set_self _ _ _) hvalue
        hmem
    | false =>
      refine (hwritten.notifyFrom hcall id key _ fun _ v hv => ?_).1
      rw [hview'] at hv
      rw [← Option.some.inj hv]
      exact hecho

private theorem pinned {α : Type} {R : α → α → Prop} (h : Together start on off) (id : ViewId)
    {a b : World → World × α} (hab : ∀ {x y : World}, Together start x y →
      x.listeners = on.listeners → Together start (a x).1 (b y).1 ∧ R (a x).2 (b y).2) :
    Together start (on.pinned id a).1 (off.pinned id b).1 ∧
      R (on.pinned id a).2 (off.pinned id b).2 := by
  obtain ⟨hdone, hresult⟩ := hab (h.changed id (.pins (· + 1))) rfl
  exact ⟨hdone.changed id (.pins (· - 1)), hresult⟩

private theorem fire (hcall : Tuned c d) (h : Together start on off) {node : NodeId}
    {listener : Listener} (hmem : (node, listener) ∈ on.listeners) (text : String) :
    Together start (World.fire c node text on listener) (World.fire d node text off listener) := by
  cases listener with
  | callback callback => exact hcall _ _ _ _ _ h
  | model id key =>
    unfold World.fire
    dsimp only
    rw [h.mirrors.isAlive]
    split
    · refine (h.pinned (R := fun _ _ => True) id fun hxy hlisteners => ⟨?_, trivial⟩).1
      exact hxy.handleChange hcall (hlisteners ▸ hmem) text
    · exact h

private theorem foldl_fire (hcall : Tuned c d) (node : NodeId) (text : String)
    {listeners : List Listener} (h : Together start on off)
    (hmem : ∀ l ∈ listeners, (node, l) ∈ start.1.listeners) :
    Together start (listeners.foldl (World.fire c node text) on)
      (listeners.foldl (World.fire d node text) off) := by
  induction listeners generalizing on off with
  | nil => exact h
  | cons listener rest ih =>
    obtain ⟨hlistener, hrest⟩ := List.forall_mem_cons.mp hmem
    exact ih (h.fire hcall (h.listeners hlistener) text) hrest

private theorem dispatch (hcall : Tuned c d) (h : Together start on off) (node : NodeId)
    (text : String) : Together start (on.dispatch c node text).1 (off.dispatch d node text).1 ∧
      (off.dispatch d node text).2 = (on.dispatch c node text).2 := by
  unfold World.dispatch
  rw [h.mirrors.doc, h.mirrors.listenersOf]
  split
  · have hset := h.withDoc (.single (.setValue on.doc node text))
    -- The listeners of the input stay while they are told, so those told now are still known then.
    have hfresh := Together.refl hset.attached hset.mirrors
    refine ⟨hset.trans (hfresh.foldl_fire hcall node text fun l hl => ?_), rfl⟩
    obtain ⟨entry, hentry, rfl⟩ := List.mem_map.mp hl
    obtain ⟨hmem, hnode⟩ := List.mem_filter.mp hentry
    rw [← eq_of_beq hnode]
    exact hmem
  · exact ⟨h, rfl⟩

private theorem recount (h : Together start on off) (f : Array Handle → Array Handle)
    (g : Array Nat → Array Nat) :
    Together start { on with handles := f on.handles, calls := g on.calls }
      { off with handles := f off.handles, calls := g off.calls } := by
  obtain ⟨hdoc, hlisteners, hhandles, hcalls, hviews⟩ := h.mirrors
  refine h.silent (h.attached.host (hostChanged_of_doc rfl rfl rfl .refl)) ?_ rfl rfl fun _ h => h
  exact ⟨hdoc, hlisteners, congrArg f hhandles, congrArg g hcalls, hviews⟩

private theorem newCallback (h : Together start on off) (script : ScriptId) :
    Together start (on.newCallback script).1 (off.newCallback script).1 ∧
      (off.newCallback script).2 = (on.newCallback script).2 := by
  refine ⟨h.recount (fun handles => handles) (·.push 0), ?_⟩
  rw [World.newCallback, World.newCallback, h.mirrors.calls]

private theorem newHandle (h : Together start on off) (id : ViewId) :
    Together start (on.newHandle id).1 (off.newHandle id).1 ∧
      (off.newHandle id).2 = (on.newHandle id).2 := by
  refine ⟨h.recount (·.push { view := id }) fun calls => calls, ?_⟩
  rw [World.newHandle, World.newHandle, h.mirrors.handles]

private theorem dropHandle (h : Together start on off) (handle : Nat) :
    Together start (on.dropHandle handle).1 (off.dropHandle handle).1 ∧
      (off.dropHandle handle).2 = (on.dropHandle handle).2 := by
  refine ⟨h.recount (·.modify handle fun h => { h with held := false }) fun calls => calls, ?_⟩
  rw [World.dropHandle, World.dropHandle, h.mirrors.handles]

private theorem countCall (h : Together start on off) (callback : Callback) :
    Together start (on.countCall callback) (off.countCall callback) :=
  h.recount (fun handles => handles) (·.modify callback.registration (· + 1))

private theorem listen (h : Together start on off) {node : NodeId} {listener : Listener}
    (hattached : (on.listen node listener).Attached) :
    Together start (on.listen node listener) (off.listen node listener) := by
  obtain ⟨hdoc, hlisteners, hhandles, hcalls, hviews⟩ := h.mirrors
  unfold World.listen at hattached ⊢
  rw [hdoc]
  split at hattached
  · rename_i hnode
    rw [if_pos hnode, if_pos hnode]
    refine h.silent hattached ?_ rfl rfl (List.subset_append_left _ _)
    exact ⟨rfl, congrArg (· ++ [(node, listener)]) hlisteners, hhandles, hcalls, hviews⟩
  · rename_i hnode
    rw [if_neg hnode, if_neg hnode]
    exact h

end Together

/-- Two worlds and outcomes are the same, but for echoes. -/
def Alike (start : World × World) (p q : World × Outcome) : Prop :=
  Together start p.1 q.1 ∧ q.2 = p.2.withoutEcho

private theorem Together.onView (h : Together start on off) (handle : Nat)
    {a b : ViewId → View → World → World × Outcome}
    (hab : ∀ id view {x y : World}, Together start x y →
      Alike start (a id view x) (b id view.withoutEcho y)) :
    Alike start (on.onView handle a) (off.onView handle b) := by
  unfold World.onView
  rw [h.mirrors.reach?]
  cases on.reach? handle with
  | none => exact ⟨h, rfl⟩
  | some id =>
    have hview := h.mirrors.getElem?_views id
    cases hon : on.views[id]? with
    | none =>
      rw [hon] at hview
      simp only [hon, hview, Option.map_none]
      exact ⟨h, rfl⟩
    | some view =>
      rw [hon] at hview
      simp only [hon, hview, Option.map_some]
      refine h.pinned (R := fun (o o' : Outcome) => o' = o.withoutEcho) id ?_
      exact fun hxy _ => hab id view hxy

/-! ## Mounting -/

private theorem walk_withoutEcho (settings : Settings) (store : Store) (depth : Nat) :
    Compilation.walk settings.withoutEcho store depth = Compilation.walk settings store depth := by
  induction depth with
  | zero => rfl
  | succ depth ih =>
    funext compiled id
    rw [Compilation.walk, Compilation.walk, ih]
    rfl

private theorem compile_withoutEcho (doc : Document) (store : Store) (settings : Settings)
    (root : NodeId) :
    compile doc store settings.withoutEcho root = compile doc store settings root := by
  rw [compile, compile, walk_withoutEcho]

namespace Together

private theorem foldl_listen (h : Together start on off) {view : View}
    (hview : on.views[id]? = some view) (inputs : List (NodeId × String))
    (hinputs : ∀ input ∈ inputs,
      on.doc.supportsValue input.1 = true ∧ view.Holds input.2 (.model input.1 input.2)) :
    Together start
      (inputs.foldl (fun w (node, key) =>
        (w.perform (.listen node)).listen node (.model id key)) on)
      (inputs.foldl (fun w (node, key) =>
        (w.perform (.listen node)).listen node (.model id key)) off) := by
  induction inputs generalizing on off with
  | nil => exact h
  | cons input rest ih =>
    obtain ⟨⟨hvalue, hholds⟩, hrest⟩ := List.forall_mem_cons.mp hinputs
    have hperformed := h.perform (.listen input.1)
    have hlisten := hperformed.listen (hperformed.attached.listen hvalue hview hholds)
    have hkept : ((on.perform (.listen input.1)).listen input.1 (.model id input.2)).views =
        on.views ∧
        ((on.perform (.listen input.1)).listen input.1 (.model id input.2)).doc = on.doc := by
      unfold World.listen
      split <;> exact ⟨rfl, rfl⟩
    exact ih hlisten (by rw [hkept.1, hview]) (by rw [hkept.2]; exact hrest)

private theorem push (h : Together start on off) {doc : Document} (hdoc : on.doc.Edits doc)
    {view : View} (hview : view.Layered) :
    Together start { on with doc, views := on.views.push view }
      { off with doc, views := off.views.push view.withoutEcho } := by
  refine h.silent (h.attached.push hdoc hview) ?_ rfl rfl fun _ h => h
  refine ⟨rfl, h.mirrors.listeners, h.mirrors.handles, h.mirrors.calls, ?_⟩
  change off.views.push view.withoutEcho = (on.views.push view).map View.withoutEcho
  rw [h.mirrors.views, Array.map_push]

private theorem mount (h : Together start on off) (options : MountOptions) (settings : Settings) :
    Together start (on.mount options settings).1 (off.mount options settings.withoutEcho).1 ∧
      (off.mount options settings.withoutEcho).2 = (on.mount options settings).2 := by
  unfold World.mount
  rw [h.mirrors.doc]
  cases options.target.resolve on.doc with
  | error e => exact ⟨h, rfl⟩
  | ok root =>
    have hwf := h.attached.doc.wellFormed
    have hedits := hwf.edits_compile options.store settings root
    obtain ⟨-, hapart, hshown⟩ := compile_displays hwf options.store settings root
    have hinputs := modelInputs_compile hwf options.store settings root
    dsimp only
    rw [compile_withoutEcho, h.mirrors.size_views]
    generalize compile on.doc options.store settings root = compiled at *
    generalize hchanges : (compiled.bindings.filterMap fun b =>
      b.change? (shownText (options.store.get? b.key))) = changes
    have hbound := h.foldl changes (f := fun w change => w.emit (.changed change))
      (g := fun w change => w.emit (.changed change)) fun _ _ change hxy =>
        hxy.emit (.changed change) trivial
    obtain ⟨trace, hon⟩ := foldl_changed changes on
    obtain ⟨trace', hoff⟩ := foldl_changed changes off
    rw [hon, hoff] at hbound ⊢
    have hplaced := hbound.push hedits
      (View.layered_mounted root settings options.store (fun b hb => (hshown b hb).1) hapart)
    have hmounted := hplaced.emit (.mounted on.views.size compiled.bindings) trivial
    have hlistening := hmounted.foldl_listen Array.getElem?_push_size compiled.modelInputs
      fun input hinput => ?_
    · obtain ⟨hdone, hhandle⟩ := hlistening.newHandle on.views.size
      exact ⟨hdone, congrArg (fun handle => Except.ok (handle, root, compiled.walks)) hhandle⟩
    · rw [hinputs] at hinput
      obtain ⟨b, hb, hmodel⟩ := List.mem_filterMap.mp hinput
      cases b with
      | model node key =>
        rw [← Option.some.inj hmodel]
        exact ⟨(hshown _ hb).2.1.2,
          Or.inr (View.mem_watchers_mounted root settings options.store hb)⟩
      | interpolation | text | watch => cases hmodel

private theorem mountOutcome (h : Together start on off) (options : MountOptions)
    (settings : Settings) : Alike start (World.mountOutcome (on.mount options settings))
      (World.mountOutcome (off.mount options settings.withoutEcho)) := by
  obtain ⟨hdone, hresult⟩ := h.mount options settings
  generalize on.mount options settings = p at hdone hresult
  generalize off.mount options settings.withoutEcho = q at hdone hresult
  obtain ⟨x, result⟩ := p
  obtain ⟨y, result'⟩ := q
  obtain rfl : result' = result := hresult
  rcases result' with e | ⟨handle, root, walks⟩
  · exact ⟨hdone, rfl⟩
  · exact ⟨hdone, rfl⟩

/-! ## Steps -/

private theorem exec_ofHost (h : Together start on off) (told : Option Value) {step : Step}
    (hstep : step.OfHost) : Alike start (on.exec c told step) (off.exec d told step) := by
  obtain ⟨after, outcome, hedits, houtcome, hexec⟩ := World.exec_ofHost hstep on.doc
  rw [hexec c told on rfl, hexec d told off h.mirrors.doc]
  refine ⟨h.withDoc hedits, ?_⟩
  cases outcome with
  | viewInfo info => exact absurd rfl (houtcome info)
  | _ => rfl

private theorem apply (hcall : Tuned c d) (h : Together start on off) (told : Option Value)
    (subject : Subject) (node : Option NodeId) (value : Option Value) :
    Alike start (on.exec c told (.apply subject node value))
      (off.exec d told (.apply subject node value)) := by
  have htried : ∀ {x y : World} (b : Binding), Together start x y →
      Together start ((x.emit (.tried b value)).applyBinding c b value)
        ((y.emit (.tried b value)).applyBinding d b value) := fun b hxy =>
    (hxy.emit (.tried b value) trivial).applyBinding hcall b value
  cases subject with
  | interpolation target text =>
    cases htemplate : Template.parse? .standard text with
    | none =>
      simp only [World.exec, subjectBinding, htemplate, Option.map_none]
      exact ⟨h, rfl⟩
    | some template =>
      simp only [World.exec, subjectBinding, htemplate, Option.map_some]
      exact ⟨htried (.interpolation target template) h, rfl⟩
  | text target key => exact ⟨htried (.text target key) h, rfl⟩
  | model target key => exact ⟨htried (.model target key) h, rfl⟩
  | watch key script =>
    obtain ⟨hmade, hcallback⟩ := h.newCallback script
    simp only [World.exec, subjectBinding]
    rw [hcallback]
    exact ⟨htried (.watch key (on.newCallback script).2) hmade, rfl⟩

private theorem watch (h : Together start on off) (told : Option Value) (handle : Nat)
    (key : String) (script : ScriptId) : Alike start (on.exec c told (.watch handle key script))
      (off.exec d told (.watch handle key script)) := by
  refine h.onView handle fun id view {x y} hxy => ?_
  by_cases halive : view.disposed = true
  · rw [if_pos halive, if_pos (by exact halive)]
    exact ⟨hxy, rfl⟩
  · rw [if_neg halive, if_neg (by exact halive)]
    obtain ⟨hmade, hcallback⟩ := hxy.newCallback script
    dsimp only
    rw [hcallback]
    exact ⟨(hmade.register id rfl).emit (.registered id _) trivial, rfl⟩

private theorem exec (hcall : Tuned c d) (h : Together start on off) (told : Option Value)
    (step : Step) : Alike start (on.exec c told step) (off.exec d told step.withoutEcho) := by
  cases step with
  | createElement | createText | createComment | appendChild | setAttribute | appendElement
  | appendText | parseInto | getAttribute | inspect | query | dump | resolve | setText | setValue =>
    exact h.exec_ofHost told trivial
  | documentInfo =>
    refine ⟨h, ?_⟩
    simp only [World.exec, Step.withoutEcho, h.mirrors.doc, h.mirrors.listeners]
    rfl
  | dispatch node text =>
    obtain ⟨hdone, hcount⟩ := h.dispatch hcall node text
    exact ⟨hdone, congrArg Outcome.count hcount⟩
  | listen node script =>
    obtain ⟨hmade, hcallback⟩ := h.newCallback script
    simp only [World.exec, Step.withoutEcho]
    rw [hcallback]
    exact ⟨hmade.listen (hmade.attached.host (hostChanged_listen _ node _)), rfl⟩
  | apply subject node value => exact h.apply hcall told subject node value
  | mount options settings => exact h.mountOutcome options settings
  | mountConfig format text =>
    cases hread : ViewConfig.read format text with
    | error e =>
      simp only [World.exec, Step.withoutEcho, hread]
      exact ⟨h, rfl⟩
    | ok config =>
      simp only [World.exec, Step.withoutEcho, hread]
      exact h.mountOutcome config.options config.settings
  | clone handle =>
    refine h.onView handle fun id view {x y} hxy => ?_
    obtain ⟨hmade, hcopy⟩ := hxy.newHandle id
    exact ⟨hmade, congrArg (Outcome.mounted · view.root 0) hcopy⟩
  | drop handle =>
    obtain ⟨hdone, hheld⟩ := h.dropHandle handle
    exact ⟨hdone, congrArg Outcome.flag hheld⟩
  | get handle | data handle | bindingCount handle | watchedKeys handle =>
    exact h.onView handle fun id view {x y} hxy => ⟨hxy, rfl⟩
  | viewInfo handle =>
    refine h.onView handle fun id view {x y} hxy => ⟨hxy, ?_⟩
    rw [hxy.mirrors.doc]
    rfl
  | write handle key operand =>
    exact h.onView handle fun id view {x y} hxy =>
      ⟨hxy.changed id (.store (·.set (Text.trim key) (operand.eval told))), rfl⟩
  | set handle key operand =>
    refine h.onView handle fun id view {x y} hxy => ?_
    have hwritten := hxy.changed id (.store (·.set (Text.trim key) (operand.eval told)))
    obtain ⟨hdone, hcount⟩ := hwritten.notifyFrom hcall id (Text.trim key) none (by simp)
    exact ⟨hdone, congrArg Outcome.count hcount⟩
  | notify handle key =>
    refine h.onView handle fun id view {x y} hxy => ?_
    obtain ⟨hdone, hcount⟩ := hxy.notifyFrom hcall id (Text.trim key) none (by simp)
    exact ⟨hdone, congrArg Outcome.count hcount⟩
  | watch handle key script => exact h.watch told handle key script
  | dispose handle =>
    exact h.onView handle fun id view {x y} hxy => ⟨hxy.changed id .dispose, rfl⟩

/-! ## Runs -/

private theorem execScripted (hcall : Tuned c d) (h : Together start on off) (callback : Callback)
    (told : Option Value) (step : Step) :
    Together start (on.execScripted c callback told step)
      (off.execScripted d callback told step.withoutEcho) := by
  obtain ⟨hdone, houtcome⟩ := h.exec hcall told step
  have hdid := hdone.emit (.did callback step (on.exec c told step).2) trivial
  unfold World.execScripted
  dsimp only
  rw [houtcome]
  exact hdid

end Together

/-- Callbacks move on together with the same callbacks without echoes, however deep they nest. -/
theorem tuned_call (behaviour : Behaviour) (depth : Nat) :
    Tuned (call behaviour depth) (call behaviour.withoutEcho depth) := by
  induction depth with
  | zero => exact fun start callback notice on off h => h.emit (.exhausted callback) trivial
  | succ depth ih =>
    intro start callback notice on off h
    have hcounted := (h.emit (.called callback notice) trivial).countCall callback
    unfold call
    dsimp only
    rw [h.mirrors.callCount, Behaviour.withoutEcho, List.foldl_map]
    exact hcounted.foldl _ fun _ _ step hxy => hxy.execScripted ih callback notice.told step

private theorem Together.run (h : Together start on off) (behaviour : Behaviour) (depth : Nat)
    (step : Step) : Alike start (on.run behaviour depth step)
      (off.run behaviour.withoutEcho depth step.withoutEcho) :=
  h.exec (tuned_call behaviour depth) none step

theorem Together.runAll (h : Together start on off) (behaviour : Behaviour) (depth : Nat)
    (steps : List Step) : Together start (on.runAll behaviour depth steps)
      (off.runAll behaviour.withoutEcho depth (steps.map Step.withoutEcho)) := by
  rw [World.runAll, World.runAll, List.foldl_map]
  exact h.foldl steps fun _ _ step hxy => (hxy.run behaviour depth step).1

/-! ## What is the same in both runs -/

private theorem Joint.filterMap_trace {α : Type} {f : Moment → Option α}
    (hf : ∀ m : Moment, f m.withoutEcho = f m)
    (hbegan : ∀ id key origin views, f ⟨.frameBegan id key origin, views⟩ = none)
    {p q : World × World} (h : Joint p q) : ∃ new echoed : List α,
      q.1.trace.filterMap f = echoed ++ (new ++ p.1.trace.filterMap f) ∧
      q.2.trace.filterMap f = new ++ p.2.trace.filterMap f ∧
      (echoed = [] ∨ ∃ id node key text views, echoed = List.filterMap f
        [⟨.changed (.setValue node text), views⟩,
          ⟨.applied id (.model node key) (some (.string text)), views⟩]) := by
  have hmap : ∀ moments : List Moment,
      (moments.map Moment.withoutEcho).filterMap f = moments.filterMap f := by
    intro moments
    have hcomp : f ∘ Moment.withoutEcho = f := funext hf
    rw [List.filterMap_map, hcomp]
  cases h with
  | silent _ hon hoff => exact ⟨[], [], congrArg _ hon, congrArg _ hoff, Or.inl rfl⟩
  | event m _ _ hon hoff =>
    refine ⟨[m].filterMap f, [], ?_, ?_, Or.inl rfl⟩
    · rw [hon, List.nil_append, ← List.filterMap_append]
      rfl
    · have hsame : [m].filterMap f = [m.withoutEcho].filterMap f := (hmap [m]).symm
      rw [hoff, hsame, ← List.filterMap_append]
      rfl
  | @echo on off x y id key node text view shown began passed _ hx hy _ _ _ _ _ =>
    refine ⟨(shown ++ opening id key none began passed).filterMap f, _, ?_, ?_,
      Or.inr ⟨id, node, key, text, x.views, rfl⟩⟩
    · rw [← List.filterMap_append, ← List.filterMap_append, List.append_assoc, ← hx]
      rfl
    · have hopening : (opening id key (some node) began passed).filterMap f =
          (opening id key none began passed).filterMap f := by
        simp only [opening, List.filterMap_cons, hbegan]
      rw [hy, List.filterMap_append, List.filterMap_append, hmap, hmap, hopening,
        List.filterMap_append, List.append_assoc]

private theorem Joints.heard {p q : World × World} (h : Joints p q)
    (hp : p.2.trace.filterMap Moment.heard? = p.1.trace.filterMap Moment.heard?) :
    q.2.trace.filterMap Moment.heard? = q.1.trace.filterMap Moment.heard? := by
  induction h with
  | refl => exact hp
  | tail _ hmove ih =>
    obtain ⟨new, echoed, hon, hoff, hechoed⟩ :=
      hmove.filterMap_trace Moment.heard?_withoutEcho fun _ _ _ _ => rfl
    have hnone : echoed = [] := by
      rcases hechoed with rfl | ⟨id, node, key, text, views, rfl⟩ <;> rfl
    rw [hon, hoff, ih, hnone]
    rfl

private theorem Joints.changes {p q : World × World} (h : Joints p q)
    (hp : (p.2.trace.filterMap Moment.change?).Sublist (p.1.trace.filterMap Moment.change?)) :
    (q.2.trace.filterMap Moment.change?).Sublist (q.1.trace.filterMap Moment.change?) := by
  induction h with
  | refl => exact hp
  | tail _ hmove ih =>
    obtain ⟨new, echoed, hon, hoff, -⟩ :=
      hmove.filterMap_trace Moment.change?_withoutEcho fun _ _ _ _ => rfl
    rw [hon, hoff]
    exact (ih.append_left new).trans (List.sublist_append_right _ _)

/-- In every run of steps and callbacks, nothing but changes of inputs comes of echoes. The run
without them moves on together with it: the same document and view models, the same calls with the
same values and stores in the same order, and the same outcomes. The two differ only where a
notification begins because an input was changed, and its view model echoes: in the first pass the
model binding of the input sets the value that the input has, and is left out without echoes. -/
theorem runAll_echo {doc : Document} (hdoc : doc.Reachable) (behaviour : Behaviour) (depth : Nat)
    (steps : List Step) (step : Step) :
    let on := (ofDocument doc).runAll behaviour depth steps
    let off := (ofDocument doc).runAll behaviour.withoutEcho depth (steps.map Step.withoutEcho)
    Joints (ofDocument doc, ofDocument doc) (on, off) ∧ on.Mirrors off ∧
      off.trace.filterMap Moment.heard? = on.trace.filterMap Moment.heard? ∧
      (off.trace.filterMap Moment.change?).Sublist (on.trace.filterMap Moment.change?) ∧
        (off.run behaviour.withoutEcho depth step.withoutEcho).2 =
          (on.run behaviour depth step).2.withoutEcho := by
  intro on off
  have hattached : (ofDocument doc).Attached :=
    ⟨hdoc, by simp [ofDocument], by simp [ofDocument]⟩
  have hmirrors : (ofDocument doc).Mirrors (ofDocument doc) :=
    ⟨rfl, rfl, rfl, rfl, by simp [ofDocument]⟩
  have htogether := (Together.refl hattached hmirrors).runAll behaviour depth steps
  exact ⟨htogether.joints, htogether.mirrors, htogether.joints.heard rfl,
    htogether.joints.changes (List.Sublist.refl _), (htogether.run behaviour depth step).2⟩

/-- An input that shows a name. -/
def namedInput : Document :=
  (Document.empty.appendElement Document.root "input" [⟨"v-model", "name"⟩]).1

/-- A callback that corrects the first name that it is told. -/
def correcting : Behaviour := fun _ calls _ =>
  if calls = 0 then [.set 0 "name" (.literal (.string "Ada"))] else []

/-- A view model that echoes is mounted and watched, and the user types a name. -/
def typedName : List Step :=
  [.mount { target := .node Document.root } { echo := true }, .watch 0 "name" 0, .dispatch 1 "ada"]

/-- What the user has typed is written back once, before it is corrected. -/
theorem typedName_echo :
    let on := (ofDocument namedInput).runAll correcting 9 typedName
    let off := (ofDocument namedInput).runAll correcting.withoutEcho 9
      (typedName.map Step.withoutEcho)
    (on.trace.filterMap Moment.change? =
        [.setValue 1 "Ada", .setValue 1 "ada", .listen 1, .setValue 1 ""] ∧
      off.trace.filterMap Moment.change? = [.setValue 1 "Ada", .listen 1, .setValue 1 ""]) ∧
    Joints (ofDocument namedInput, ofDocument namedInput) (on, off) ∧ on.Mirrors off ∧
      off.trace.filterMap Moment.heard? = on.trace.filterMap Moment.heard? ∧
      (off.trace.filterMap Moment.change?).Sublist (on.trace.filterMap Moment.change?) ∧
        (off.run correcting.withoutEcho 9 (Step.data 0).withoutEcho).2 =
          (on.run correcting 9 (.data 0)).2.withoutEcho := by
  intro on off
  have hdoc : namedInput.Reachable :=
    (Document.edits_appendElement .empty Document.root "input" _).reachable .empty
  exact ⟨by decide +kernel, runAll_echo hdoc correcting 9 typedName (.data 0)⟩

end World
end ViewBinding
