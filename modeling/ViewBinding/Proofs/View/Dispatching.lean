import Mathlib
import ViewBinding.Proofs.View.Bookkeeping

/-!
# Changes and their listeners

What happens to listeners in a run, as a tree: a change that is dispatched tells the listeners that
its input has at that time, each with all that its script does, and further changes among it
(`Dispatched`). Nothing else tells listeners. Every step unfolds into such a tree, however deep
callbacks nest (`World.runAll_dispatches`).
-/

namespace ViewBinding

/-- A callback is called, or is too deep inside others to take its steps. -/
def Event.IsCall : Event → Prop
  | .called .. | .exhausted _ => True
  | _ => False

private theorem Event.OfNotification.not_isCall {id : ViewId} {e : Event}
    (he : e.OfNotification id) : ¬ e.IsCall := by
  cases e with
  | called | exhausted => exact he.elim
  | _ => exact not_false

namespace World

/-! ## What happens to listeners -/

/-- No listener is added, and no callback is called. -/
structure Idle (w after : World) : Prop where
  listeners : after.listeners = w.listeners
  trace : ∃ new, after.trace = new ++ w.trace ∧ ∀ m ∈ new, ¬ m.event.IsCall

section

variable (behaviour : Behaviour)

mutual

/-- A callback is called: it takes the steps of its script, unless it is too deep inside others. -/
inductive Called : Nat → Callback → Notice → World → World → Prop
  | tooDeep {callback notice w} : Called 0 callback notice w (w.emit (.exhausted callback))
  | ran {depth callback notice w after} :
      Took depth callback (behaviour callback.script (w.callCount callback) notice.told)
        ((w.emit (.called callback notice)).countCall callback) after →
          Called (depth + 1) callback notice w after

/-- A callback takes steps one after another. -/
inductive Took : Nat → Callback → List Step → World → World → Prop
  | nil {depth callback w} : Took depth callback [] w w
  | cons {depth callback step rest outcome w mid after} : Stepped depth step outcome w mid →
      Took depth callback rest (mid.emit (.did callback step outcome)) after →
        Took depth callback (step :: rest) w after

/-- A step is taken, with its outcome. -/
inductive Stepped : Nat → Step → Outcome → World → World → Prop
  | dispatch {depth node text count w after} : Dispatched depth node text count w after →
      Stepped depth (.dispatch node text) (.count count) w after
  | other {depth step outcome w after} : (∀ node text, step ≠ .dispatch node text) →
      Aside depth w after → Stepped depth step outcome w after

/-- A change of an input is dispatched: the listeners that the node has now are told, once it has
its value, and their number is the outcome. Listeners that are added meanwhile are not among them.
A node without a value has none to tell. -/
inductive Dispatched : Nat → NodeId → String → Nat → World → World → Prop
  | refused {depth node text w} : w.doc.supportsValue node = false →
      Dispatched depth node text 0 w w
  | told {depth node text w added after} : w.doc.supportsValue node = true →
      (w.doc.setValue node text).value? node = some text →
      Told depth node text (w.listenersOf node) (w.withDoc (w.doc.setValue node text)) after →
      after.listeners = w.listeners ++ added →
      (∀ entry ∈ added, entry.2 ∉ w.listenersOf node) →
        Dispatched depth node text (w.listenersOf node).length w after

/-- Listeners are told one after another that a node was given a text. -/
inductive Told : Nat → NodeId → String → List Listener → World → World → Prop
  | nil {depth node text w} : Told depth node text [] w w
  | callback {depth node text callback rest w mid after} :
      Called depth callback (.changed text) w mid → Told depth node text rest mid after →
        Told depth node text (.callback callback :: rest) w after
  /-- A view model that is still alive answers the text by notifications. -/
  | model {depth node text id key rest w mid after} :
      w.fire (call behaviour depth) node text (.model id key) = mid → Aside depth w mid →
        Told depth node text rest mid after → Told depth node text (.model id key :: rest) w after

/-- Listeners may be added and watchers called; only the scripts of these dispatch changes. -/
inductive Aside : Nat → World → World → Prop
  | idle {depth w after} : Idle w after → Aside depth w after
  | listen {depth} (w : World) (node : NodeId) (listener : Listener) :
      Aside depth w (w.listen node listener)
  | watched {depth callback value w after} : Called depth callback (.watched value) w after →
      Aside depth w after
  | trans {depth a b c} : Aside depth a b → Aside depth b c → Aside depth a c

end

end

/-! ## What a trace says of it -/

/-- What happens while a listener is told a text: a callback is called with it first of all. -/
def IsTold (text : String) : Listener → List Moment → Prop
  | .callback callback, moments => ∃ inner first, moments = inner ++ [first] ∧
      (first.event = .called callback (.changed text) ∨ first.event = .exhausted callback)
  | .model .., _ => True

section

variable {behaviour : Behaviour}

private theorem Idle.grows {w after : World} (h : Idle w after) : w.Grows after := by
  obtain ⟨new, hnew, -⟩ := h.trace
  exact ⟨new, hnew⟩

-- By the structure of the tree; only the calls are looked at, and the rest just grows the trace.
mutual

private theorem Called.hears {depth : Nat} {callback : Callback} {notice : Notice} {w after : World}
    (h : Called behaviour depth callback notice w after) :
    ∃ inner first, after.trace = inner ++ first :: w.trace ∧
      (first.event = .called callback notice ∨ first.event = .exhausted callback) := by
  match h with
  | .tooDeep => exact ⟨[], _, rfl, .inr rfl⟩
  | .ran htook =>
    obtain ⟨inner, hinner⟩ := htook.grows
    exact ⟨inner, _, hinner, .inl rfl⟩
termination_by structural h

private theorem Took.grows {depth : Nat} {callback : Callback} {steps : List Step} {w after : World}
    (h : Took behaviour depth callback steps w after) : w.Grows after := by
  match h with
  | .nil => exact ⟨[], rfl⟩
  | .cons hstep hrest => exact hstep.grows.trans (Grows.trans ⟨[_], rfl⟩ hrest.grows)
termination_by structural h

private theorem Stepped.grows {depth : Nat} {step : Step} {outcome : Outcome} {w after : World}
    (h : Stepped behaviour depth step outcome w after) : w.Grows after := by
  match h with
  | .dispatch hdispatched => exact hdispatched.grows
  | .other _ haside => exact haside.grows
termination_by structural h

private theorem Dispatched.grows {depth : Nat} {node : NodeId} {text : String} {count : Nat}
    {w after : World} (h : Dispatched behaviour depth node text count w after) :
    w.Grows after := by
  match h with
  | .refused _ => exact ⟨[], rfl⟩
  | .told _ _ htold _ _ =>
    obtain ⟨parts, hparts, -⟩ := htold.hears
    exact ⟨_, hparts⟩
termination_by structural h

/-- The trace has one part for each listener, in the order in which they are told. -/
theorem Told.hears {depth : Nat} {node : NodeId} {text : String} {listeners : List Listener}
    {w after : World} (h : Told behaviour depth node text listeners w after) :
    ∃ parts, after.trace = parts.reverse.flatten ++ w.trace ∧
      List.Forall₂ (IsTold text) listeners parts := by
  match h with
  | .nil => exact ⟨[], rfl, .nil⟩
  | .callback hcalled hrest =>
    obtain ⟨inner, first, hfirst, hevent⟩ := hcalled.hears
    obtain ⟨parts, hparts, hall⟩ := hrest.hears
    refine ⟨(inner ++ [first]) :: parts, ?_, .cons ⟨inner, first, rfl, hevent⟩ hall⟩
    rw [hparts, hfirst]
    simp
  | .model _ haside hrest =>
    obtain ⟨inner, hinner⟩ := haside.grows
    obtain ⟨parts, hparts, hall⟩ := hrest.hears
    refine ⟨inner :: parts, ?_, .cons trivial hall⟩
    rw [hparts, hinner]
    simp
termination_by structural h

private theorem Aside.grows {depth : Nat} {w after : World} (h : Aside behaviour depth w after) :
    w.Grows after := by
  match h with
  | .idle hidle => exact hidle.grows
  | .listen w node listener =>
    unfold listen
    split <;> exact ⟨[], rfl⟩
  | .watched hcalled =>
    obtain ⟨inner, first, hfirst, -⟩ := hcalled.hears
    exact ⟨inner ++ [first], by rw [hfirst, List.append_assoc]; rfl⟩
  | .trans hab hbc => exact hab.grows.trans hbc.grows
termination_by structural h

end

private theorem Dispatched.hears {depth : Nat} {node : NodeId} {text : String} {count : Nat}
    {w after : World} (h : Dispatched behaviour depth node text count w after)
    (hsupports : w.doc.supportsValue node = true) : count = (w.listenersOf node).length ∧
      ∃ parts, after.trace = parts.reverse.flatten ++ w.trace ∧
        List.Forall₂ (IsTold text) (w.listenersOf node) parts := by
  cases h with
  | refused hnone =>
    rw [hnone] at hsupports
    cases hsupports
  | told _ _ htold _ _ => exact ⟨rfl, htold.hears⟩

end

/-! ## What listens was made before -/

/-- The view model or the callback of a listener has been made. -/
def Knows (w : World) : Listener → Prop
  | .model id _ => id < w.views.size
  | .callback callback => callback.registration < w.calls.size

/-- All that listens has been made. -/
def Listed (w : World) : Prop := ∀ entry ∈ w.listeners, w.Knows entry.2

/-- Listeners were only added, and these were made meanwhile. -/
structure Later (w after : World) : Prop where
  calls : w.calls.size ≤ after.calls.size
  views : w.views.size ≤ after.views.size
  listeners : ∃ added, after.listeners = w.listeners ++ added ∧
    ∀ entry ∈ added, ¬ w.Knows entry.2 ∧ after.Knows entry.2

/-- Listeners are only added, and what happens is as told if all that listens has been made: only
then are listeners that are added different from those that a change is told to. -/
structure Regular (S : World → World → Prop) (w after : World) : Prop where
  later : w.Later after
  holds : w.Listed → S w after

variable {w after : World}

private theorem Later.knows (h : w.Later after) {listener : Listener} (hknows : w.Knows listener) :
    after.Knows listener := by
  cases listener with
  | model id key => exact hknows.trans_le h.views
  | callback callback => exact hknows.trans_le h.calls

theorem Later.of_eq (hcalls : w.calls.size ≤ after.calls.size)
    (hviews : w.views.size ≤ after.views.size) (hlisteners : after.listeners = w.listeners) :
    w.Later after :=
  ⟨hcalls, hviews, [], by rw [hlisteners, List.append_nil], by simp⟩

theorem Later.refl (w : World) : w.Later w := .of_eq le_rfl le_rfl rfl

private theorem later_emit (w : World) (e : Event) : w.Later (w.emit e) := .of_eq le_rfl le_rfl rfl

private theorem later_withDoc (w : World) (doc : Document) : w.Later (w.withDoc doc) :=
  .of_eq le_rfl le_rfl rfl

theorem Later.trans {a b c : World} (hab : a.Later b) (hbc : b.Later c) : a.Later c := by
  obtain ⟨added, hadded, hnew⟩ := hab.listeners
  obtain ⟨more, hmore, hnewer⟩ := hbc.listeners
  refine ⟨hab.calls.trans hbc.calls, hab.views.trans hbc.views, added ++ more, ?_, ?_⟩
  · rw [hmore, hadded, List.append_assoc]
  · intro entry hentry
    rcases List.mem_append.mp hentry with hentry | hentry
    · exact ⟨(hnew entry hentry).1, hbc.knows (hnew entry hentry).2⟩
    · exact ⟨fun h => (hnewer entry hentry).1 (hab.knows h), (hnewer entry hentry).2⟩

private theorem Later.listed (h : w.Later after) (hlisted : w.Listed) : after.Listed := by
  obtain ⟨added, hadded, hnew⟩ := h.listeners
  intro entry hentry
  rw [hadded] at hentry
  rcases List.mem_append.mp hentry with hentry | hentry
  · exact h.knows (hlisted entry hentry)
  · exact (hnew entry hentry).2

private theorem Later.exists_added (h : w.Later after) (hlisted : w.Listed) (node : NodeId) :
    ∃ added, after.listeners = w.listeners ++ added ∧
      ∀ entry ∈ added, entry.2 ∉ w.listenersOf node := by
  obtain ⟨added, hadded, hnew⟩ := h.listeners
  refine ⟨added, hadded, fun entry hentry htold => (hnew entry hentry).1 ?_⟩
  obtain ⟨old, hold, heq⟩ := List.mem_map.mp htold
  exact heq ▸ hlisted old (List.mem_filter.mp hold).1

theorem Regular.trans {S T U : World → World → Prop} {a b c : World}
    (hjoin : S a b → T b c → U a c) (hab : Regular S a b) (hbc : Regular T b c) :
    Regular U a c :=
  ⟨hab.later.trans hbc.later,
    fun hlisted => hjoin (hab.holds hlisted) (hbc.holds (hab.later.listed hlisted))⟩

private theorem Regular.imp {S T : World → World → Prop} (h : Regular S w after)
    (himp : S w after → T w after) : Regular T w after :=
  ⟨h.later, fun hlisted => himp (h.holds hlisted)⟩

/-! ## Steps that dispatch nothing -/

/-- Callbacks run as told. -/
def Behaves (behaviour : Behaviour) (depth : Nat) : Prop :=
  ∀ callback notice w,
    Regular (Called behaviour depth callback notice) w (call behaviour depth callback notice w)

variable {behaviour : Behaviour} {depth : Nat}

theorem Idle.refl (w : World) : Idle w w := ⟨rfl, [], rfl, by simp⟩

private theorem regular_of_eq (hcalls : w.calls.size ≤ after.calls.size)
    (hviews : w.views.size ≤ after.views.size) (hlisteners : after.listeners = w.listeners)
    (htrace : after.trace = w.trace) : Regular (Aside behaviour depth) w after :=
  ⟨.of_eq hcalls hviews hlisteners, fun _ => .idle ⟨hlisteners, [], htrace, by simp⟩⟩

private theorem regular_refl (w : World) : Regular (Aside behaviour depth) w w :=
  regular_of_eq le_rfl le_rfl rfl rfl

private theorem Regular.aside_trans {a b c : World} (hab : Regular (Aside behaviour depth) a b)
    (hbc : Regular (Aside behaviour depth) b c) : Regular (Aside behaviour depth) a c :=
  hab.trans .trans hbc

private theorem regular_emit (w : World) {e : Event} (he : ¬ e.IsCall) :
    Regular (Aside behaviour depth) w (w.emit e) :=
  ⟨later_emit w e, fun _ => .idle ⟨rfl, [⟨e, w.views⟩], rfl, by simpa using he⟩⟩

private theorem regular_modifyView (w : World) (id : ViewId) (f : View → View) :
    Regular (Aside behaviour depth) w (w.modifyView id f) :=
  regular_of_eq le_rfl (by simp [modifyView]) rfl rfl

private theorem regular_withDoc (w : World) (doc : Document) :
    Regular (Aside behaviour depth) w (w.withDoc doc) :=
  regular_of_eq le_rfl le_rfl rfl rfl

private theorem regular_perform (w : World) (change : HostChange) :
    Regular (Aside behaviour depth) w (w.perform change) :=
  (regular_emit w (e := .changed change) id).aside_trans (regular_withDoc _ _)

private theorem guarded_aside (id : ViewId) (start : World) :
    Guarded id (fun _ => True) (Regular (Aside behaviour depth) start) where
  watchers _ _ _ _ := trivial
  modifyView _ hw := hw.aside_trans (regular_modifyView _ _ _)
  emit he hw := hw.aside_trans (regular_emit _ he.not_isCall)
  perform _ _ hw := hw.aside_trans (regular_perform _ _)

private theorem Behaves.heeds (hcall : Behaves behaviour depth) (start : World) :
    Heeds (call behaviour depth) (fun _ => True) (Regular (Aside behaviour depth) start) :=
  fun _ callback _ value w hw => hw.aside_trans ((hcall callback (.watched value) w).imp .watched)

private theorem Behaves.notifyFrom (hcall : Behaves behaviour depth) (w : World) (id : ViewId)
    (key : String) (origin : Option NodeId) :
    Regular (Aside behaviour depth) w (w.notifyFrom (call behaviour depth) id key origin).1 :=
  (guarded_aside id w).notifyFrom (hcall.heeds w) key origin (regular_refl w)

private theorem regular_writeValue (w : World) (id : ViewId) (key : String) (value : Value) :
    Regular (Aside behaviour depth) w (w.writeValue id key value) :=
  regular_modifyView w id _

private theorem Behaves.handleChange (hcall : Behaves behaviour depth) (w : World) (id : ViewId)
    (node : NodeId) (key text : String) :
    Regular (Aside behaviour depth) w (w.handleChange (call behaviour depth) id node key text) := by
  unfold World.handleChange
  split
  · exact regular_refl w
  split
  · exact regular_refl w
  · exact (regular_writeValue w id key _).aside_trans (hcall.notifyFrom _ id key _)

private theorem regular_pinned {α : Type} (w : World) (id : ViewId) {action : World → World × α}
    (h : ∀ w, Regular (Aside behaviour depth) w (action w).1) :
    Regular (Aside behaviour depth) w (w.pinned id action).1 :=
  ((regular_modifyView w id _).aside_trans (h _)).aside_trans (regular_modifyView _ id _)

private theorem regular_onView (w : World) (handle : Nat)
    {action : ViewId → View → World → World × Outcome}
    (h : ∀ id view w, Regular (Aside behaviour depth) w (action id view w).1) :
    Regular (Aside behaviour depth) w (w.onView handle action).1 := by
  unfold onView
  split
  · exact regular_refl w
  split
  · exact regular_refl w
  · exact regular_pinned w _ (h _ _)

private theorem regular_newCallback (w : World) (script : ScriptId) :
    Regular (Aside behaviour depth) w (w.newCallback script).1 :=
  regular_of_eq (by simp [newCallback]) le_rfl rfl rfl

private theorem listen_eq (w : World) (node : NodeId) (listener : Listener) :
    ∃ added, w.listen node listener = { w with listeners := w.listeners ++ added } ∧
      ∀ entry ∈ added, entry.2 = listener := by
  unfold listen
  split
  · exact ⟨[(node, listener)], rfl, by simp⟩
  · exact ⟨[], by simp, by simp⟩

private theorem regular_listen (w : World) (node : NodeId) (script : ScriptId) :
    Regular (Aside behaviour depth) w
      ((w.newCallback script).1.listen node (.callback (w.newCallback script).2)) where
  later := by
    obtain ⟨added, hlisten, hadded⟩ :=
      (w.newCallback script).1.listen_eq node (.callback (w.newCallback script).2)
    rw [hlisten]
    refine ⟨by simp [newCallback], le_rfl, added, rfl, fun entry hentry => ?_⟩
    rw [hadded entry hentry]
    simp [Knows, newCallback]
  holds hlisted := ((regular_newCallback w script).holds hlisted).trans (.listen _ node _)

private theorem aside_foldl_listen (behaviour : Behaviour) (depth : Nat) (id : ViewId)
    (inputs : List (NodeId × String)) (w : World) :
    ∃ after added, inputs.foldl
        (fun w (node, key) => (w.perform (.listen node)).listen node (.model id key)) w = after ∧
      Aside behaviour depth w after ∧ after.calls = w.calls ∧ after.views = w.views ∧
        after.listeners = w.listeners ++ added ∧
          ∀ entry ∈ added, ∃ key, entry.2 = .model id key := by
  induction inputs generalizing w with
  | nil => exact ⟨w, [], rfl, .idle (.refl w), rfl, rfl, (List.append_nil _).symm, by simp⟩
  | cons input rest ih =>
    have hchanged : Aside behaviour depth w (w.perform (.listen input.1)) :=
      .idle ⟨rfl, [⟨.changed (.listen input.1), w.views⟩], rfl, by simp [Event.IsCall]⟩
    have hlistens := hchanged.trans (.listen _ input.1 (.model id input.2))
    obtain ⟨own, hlisten, hown⟩ :=
      (w.perform (.listen input.1)).listen_eq input.1 (.model id input.2)
    rw [hlisten] at hlistens
    obtain ⟨after, added, hafter, haside, hcalls, hviews, hadded, hmodel⟩ :=
      ih ((w.perform (.listen input.1)).listen input.1 (.model id input.2))
    rw [hlisten] at haside hcalls hviews hadded
    refine ⟨after, own ++ added, hafter, hlistens.trans haside, hcalls, hviews, ?_, ?_⟩
    · rw [hadded, ← List.append_assoc]
      rfl
    · intro entry hentry
      rcases List.mem_append.mp hentry with hentry | hentry
      · exact ⟨input.2, hown entry hentry⟩
      · exact hmodel entry hentry

private theorem regular_mount (w : World) (options : MountOptions) (settings : Settings) :
    Regular (Aside behaviour depth) w (w.mount options settings).1 := by
  unfold mount
  split
  · exact regular_refl w
  rename_i root _
  generalize compile w.doc options.store settings root = compiled
  dsimp only
  generalize compiled.bindings.filterMap
    (fun b => b.change? (shownText (options.store.get? b.key))) = changes
  have hbound := foldl_of_trans (R := Regular (Aside behaviour depth)) regular_refl
    Regular.aside_trans (fun w change => regular_emit w (e := .changed change) not_false) changes w
  have hkept := views_foldl (f := fun w change => w.emit (.changed change)) (fun _ _ => rfl)
    changes w
  generalize changes.foldl (fun w change => w.emit (.changed change)) w = bound at hbound hkept ⊢
  obtain ⟨after, added, hafter, haside, hcalls, hviews, hadded, hmodel⟩ :=
    aside_foldl_listen behaviour depth w.views.size
      compiled.modelInputs (({ bound with
        doc := compiled.doc
        views := w.views.push (.mounted root settings options.store compiled.bindings) } :
          World).emit (.mounted w.views.size compiled.bindings))
  rw [hafter]
  have hsize : after.views.size = bound.views.size + 1 := by
    rw [hviews, hkept]
    exact Array.size_push _
  have hlater : bound.Later (after.newHandle w.views.size).1 := by
    refine ⟨le_of_eq (congrArg Array.size hcalls.symm), hsize.ge.trans' (Nat.le_succ _), added,
      hadded, fun entry hentry => ?_⟩
    obtain ⟨key, hkey⟩ := hmodel entry hentry
    rw [hkey]
    change ¬ w.views.size < bound.views.size ∧ w.views.size < after.views.size
    rw [hsize, hkept]
    exact ⟨Nat.lt_irrefl _, Nat.lt_succ_self _⟩
  have hmounted : Idle bound (({ bound with
      doc := compiled.doc
      views := w.views.push (.mounted root settings options.store compiled.bindings) } :
        World).emit (.mounted w.views.size compiled.bindings)) :=
    ⟨rfl, [⟨.mounted w.views.size compiled.bindings, _⟩], rfl, by simp [Event.IsCall]⟩
  have hhandle : Idle after (after.newHandle w.views.size).1 := ⟨rfl, [], rfl, by simp⟩
  exact ⟨hbound.later.trans hlater, fun hlisted =>
    (hbound.holds hlisted).trans (.trans (.idle hmounted) (haside.trans (.idle hhandle)))⟩

private theorem regular_mountOutcome {result : World × Except MountError (Nat × NodeId × Nat)}
    (h : Regular (Aside behaviour depth) w result.1) :
    Regular (Aside behaviour depth) w (mountOutcome result).1 := by
  rcases result with ⟨after, e | ⟨handle, root, walks⟩⟩ <;> exact h

private theorem regular_exec_ofHost (told : Option Value) (w : World) {step : Step}
    (hstep : step.OfHost) :
    Regular (Aside behaviour depth) w (w.exec (call behaviour depth) told step).1 := by
  obtain ⟨doc, outcome, -, -, hexec⟩ := exec_ofHost hstep w.doc
  rw [hexec _ told w rfl]
  exact regular_withDoc w doc

private theorem Behaves.exec_other (hcall : Behaves behaviour depth) (told : Option Value)
    (w : World) {step : Step} (hstep : ∀ node text, step ≠ .dispatch node text) :
    Regular (Aside behaviour depth) w (w.exec (call behaviour depth) told step).1 := by
  cases step with
  | createElement | createText | createComment | appendChild | setAttribute | appendElement
  | appendText | parseInto | getAttribute | inspect | query | dump | resolve | setText | setValue =>
    exact regular_exec_ofHost told w trivial
  | dispatch node text => exact absurd rfl (hstep node text)
  | documentInfo => exact regular_refl w
  | listen node script => exact regular_listen w node script
  | apply subject node value =>
    have htried : ∀ (made : World) (b : Binding), Regular (Aside behaviour depth) made
        ((made.emit (.tried b value)).applyBinding (call behaviour depth) b value) := fun made b =>
      (guarded_aside 0 made).applyBinding (hcall.heeds made) trivial value
        (regular_emit made not_false)
    cases subject with
    | interpolation target text =>
      cases h : Template.parse? .standard text <;>
        simp only [World.exec, subjectBinding, h, Option.map_none, Option.map_some]
      · exact regular_refl w
      · exact htried w _
    | text target key => exact htried w (.text target key)
    | model target key => exact htried w (.model target key)
    | watch key script =>
      exact (regular_newCallback w script).aside_trans (htried _ (.watch key _))
  | mount options settings => exact regular_mountOutcome (regular_mount w _ _)
  | mountConfig format text =>
    cases h : ViewConfig.read format text <;> simp only [exec, h]
    · exact regular_refl w
    · exact regular_mountOutcome (regular_mount w _ _)
  | clone handle =>
    exact regular_onView w handle fun _ _ _ => regular_of_eq le_rfl le_rfl rfl rfl
  | drop handle => exact regular_of_eq le_rfl le_rfl rfl rfl
  | get handle | data handle | bindingCount handle | watchedKeys handle | viewInfo handle =>
    exact regular_onView w handle fun _ _ w => regular_refl w
  | write handle key operand =>
    exact regular_onView w handle fun id _ w => regular_writeValue w id _ _
  | set handle key operand =>
    exact regular_onView w handle fun id _ w =>
      (regular_writeValue w id _ _).aside_trans (hcall.notifyFrom _ id _ none)
  | notify handle key =>
    exact regular_onView w handle fun id _ w => hcall.notifyFrom w id _ none
  | watch handle key script =>
    refine regular_onView w handle fun id view w => ?_
    dsimp only
    split
    · exact regular_refl w
    · exact ((regular_newCallback w script).aside_trans (regular_modifyView _ id _)).aside_trans
        (regular_emit _ not_false)
  | dispose handle => exact regular_onView w handle fun id _ w => regular_modifyView w id _

/-! ## Steps that dispatch a change -/

private theorem Behaves.fire_model (hcall : Behaves behaviour depth) (node : NodeId) (text : String)
    (id : ViewId) (key : String) (w : World) : Regular (Aside behaviour depth) w
      (w.fire (call behaviour depth) node text (.model id key)) := by
  unfold World.fire
  dsimp only
  split
  · exact regular_pinned w id fun w => hcall.handleChange w id node key text
  · exact regular_refl w

private theorem Behaves.told (hcall : Behaves behaviour depth) (node : NodeId) (text : String)
    (listeners : List Listener) (w : World) :
    Regular (Told behaviour depth node text listeners) w
      (listeners.foldl (fire (call behaviour depth) node text) w) := by
  induction listeners generalizing w with
  | nil => exact ⟨.refl w, fun _ => .nil⟩
  | cons listener rest ih =>
    cases listener with
    | callback callback => exact (hcall callback (.changed text) w).trans .callback (ih _)
    | model id key => exact (hcall.fire_model node text id key w).trans (.model rfl) (ih _)

private theorem Behaves.dispatch (hcall : Behaves behaviour depth) (w : World) (node : NodeId)
    (text : String) :
    Regular (Dispatched behaviour depth node text (w.dispatch (call behaviour depth) node text).2) w
      (w.dispatch (call behaviour depth) node text).1 := by
  unfold World.dispatch
  split
  · rename_i hsupports
    have htold := hcall.told node text (w.listenersOf node) (w.withDoc (w.doc.setValue node text))
    have hlater := (later_withDoc w (w.doc.setValue node text)).trans htold.later
    have hvalue : (w.doc.setValue node text).value? node = some text := by
      obtain ⟨old, hold⟩ := Option.isSome_iff_exists.mp hsupports
      rw [Document.value?_setValue, if_pos rfl, hold]
      rfl
    refine ⟨hlater, fun hlisted => ?_⟩
    obtain ⟨added, hadded, hnew⟩ := hlater.exists_added hlisted node
    exact .told hsupports hvalue (htold.holds hlisted) hadded hnew
  · rename_i hsupports
    exact ⟨.refl w, fun _ => .refused (eq_false_of_ne_true hsupports)⟩

private theorem Behaves.exec (hcall : Behaves behaviour depth) (told : Option Value) (w : World)
    (step : Step) :
    Regular (Stepped behaviour depth step (w.exec (call behaviour depth) told step).2) w
      (w.exec (call behaviour depth) told step).1 := by
  by_cases hother : ∀ node text, step ≠ .dispatch node text
  · exact (hcall.exec_other told w hother).imp (.other hother)
  · push Not at hother
    obtain ⟨node, text, rfl⟩ := hother
    exact (hcall.dispatch w node text).imp .dispatch

private theorem Behaves.took (hcall : Behaves behaviour depth) (callback : Callback)
    (told : Option Value) (steps : List Step) (w : World) :
    Regular (Took behaviour depth callback steps) w
      (steps.foldl (execScripted (call behaviour depth) callback told) w) := by
  induction steps generalizing w with
  | nil => exact ⟨.refl w, fun _ => .nil⟩
  | cons step rest ih =>
    have hstep := hcall.exec told w step
    have hdid := hstep.later.trans
      (later_emit _ (.did callback step (w.exec (call behaviour depth) told step).2))
    have hrest := ih (execScripted (call behaviour depth) callback told w step)
    exact ⟨hdid.trans hrest.later, fun hlisted =>
      .cons (hstep.holds hlisted) (hrest.holds (hdid.listed hlisted))⟩

private theorem behaves_call (behaviour : Behaviour) (depth : Nat) : Behaves behaviour depth := by
  intro callback notice w
  induction depth generalizing callback notice w with
  | zero => exact ⟨later_emit w _, fun _ => .tooDeep⟩
  | succ depth ih =>
    have htook := Behaves.took ih callback notice.told
      (behaviour callback.script (w.callCount callback) notice.told)
      ((w.emit (.called callback notice)).countCall callback)
    have hcounted : w.Later ((w.emit (.called callback notice)).countCall callback) :=
      .of_eq (by simp [countCall, emit]) le_rfl rfl
    exact ⟨hcounted.trans htook.later, fun hlisted => .ran (htook.holds (hcounted.listed hlisted))⟩

/-! ## Runs -/

private theorem listed_runAll (doc : Document) (behaviour : Behaviour) (depth : Nat)
    (steps : List Step) : ((ofDocument doc).runAll behaviour depth steps).Listed := by
  have hlater := foldl_of_trans (R := Later) Later.refl Later.trans
    (fun w step => ((behaves_call behaviour depth).exec none w step).later) steps (ofDocument doc)
  exact hlater.listed (by simp [Listed, ofDocument])

private theorem listenersOf_listen (w : World) (node other : NodeId) (listener : Listener) :
    (w.listen node listener).listenersOf other =
      if w.doc.contains node = true ∧ other = node then w.listenersOf other ++ [listener]
      else w.listenersOf other := by
  unfold listen
  by_cases hnode : w.doc.contains node = true
  · by_cases hother : other = node
    · simp [hnode, hother, listenersOf]
    · simp [hnode, hother, listenersOf, Ne.symm hother]
  · simp [hnode]

/-- A change that is dispatched tells the listeners that its node has then, each once, in the order
of registration, and with the text of the change, whatever they do: they may add listeners, write
values and texts, and dispatch further changes. So the trace has one part for each of them. A node
without a value has none to tell. What is added meanwhile stands behind them, for its own node, and
is told only by changes that are dispatched later. All calls of listeners in a run come about in this
way; writing a value or a text changes the document alone. -/
theorem runAll_dispatches (doc : Document) (behaviour : Behaviour) (depth : Nat)
    (steps : List Step) :
    let w := (ofDocument doc).runAll behaviour depth steps
    (∀ node text, w.doc.supportsValue node = false →
      w.run behaviour depth (.dispatch node text) = (w, .count 0)) ∧
    (∀ node text, w.doc.supportsValue node = true → ∃ after parts,
      w.run behaviour depth (.dispatch node text) = (after, .count (w.listenersOf node).length) ∧
        Dispatched behaviour depth node text (w.listenersOf node).length w after ∧
          after.trace = parts.reverse.flatten ++ w.trace ∧
            List.Forall₂ (IsTold text) (w.listenersOf node) parts) ∧
    (∀ (x : World) node listener other, (x.listen node listener).listenersOf other =
      if x.doc.contains node = true ∧ other = node then x.listenersOf other ++ [listener]
      else x.listenersOf other) ∧
    (∀ step, Stepped behaviour depth step (w.run behaviour depth step).2 w
      (w.run behaviour depth step).1) ∧
    ∀ call told (x : World) node text step, step = .setValue node text ∨ step = .setText node text →
      ∃ edited, x.exec call told step = (x.withDoc edited, .done) := by
  intro w
  have hlisted : w.Listed := listed_runAll doc behaviour depth steps
  have hbehaves := behaves_call behaviour depth
  refine ⟨fun node text hnone => ?_, fun node text hsupports => ?_,
    fun x node listener other => listenersOf_listen x node other listener, fun step => ?_, ?_⟩
  · simp [run, World.exec, World.dispatch, hnone]
  · have hdispatched := (hbehaves.dispatch w node text).holds hlisted
    obtain ⟨hcount, parts, hparts, hall⟩ := hdispatched.hears hsupports
    have hrun : w.run behaviour depth (.dispatch node text) =
        ((w.dispatch (call behaviour depth) node text).1, .count (w.listenersOf node).length) := by
      rw [← hcount]
      rfl
    exact ⟨_, parts, hrun, hcount ▸ hdispatched, hparts, hall⟩
  · exact (hbehaves.exec none w step).holds hlisted
  · rintro call told x node text step (rfl | rfl) <;> exact ⟨_, rfl⟩

/-- A listener that, on its first call, adds another one and dispatches a change again. -/
def reentrant : Behaviour := fun script calls _ =>
  if script = 0 ∧ calls = 0 then [.listen 1 1, .dispatch 1 "b"] else []

/-- An input with such a listener. -/
def reentrantInput : World :=
  (ofDocument .empty).runAll reentrant 3 [.appendElement 0 "input" [], .listen 1 0]

/-- The inner change is told to both listeners, the outer one to the first only. -/
theorem reentrantInput_dispatches :
    ∃ after parts, reentrantInput.run reentrant 3 (.dispatch 1 "a") = (after, .count 1) ∧
      Dispatched reentrant 3 1 "a" 1 reentrantInput after ∧
        after.trace = parts.reverse.flatten ++ reentrantInput.trace ∧
          List.Forall₂ (IsTold "a") (reentrantInput.listenersOf 1) parts ∧
            after.calls = #[2, 1] := by
  have hsupports : reentrantInput.doc.supportsValue 1 = true := by decide +kernel
  have hlength : (reentrantInput.listenersOf 1).length = 1 := by decide +kernel
  have hcalls : (reentrantInput.run reentrant 3 (.dispatch 1 "a")).1.calls = #[2, 1] := by
    decide +kernel
  obtain ⟨-, hdispatch, -⟩ :=
    runAll_dispatches .empty reentrant 3 [.appendElement 0 "input" [], .listen 1 0]
  obtain ⟨after, parts, hrun, hdispatched, hparts, htold⟩ := hdispatch 1 "a" hsupports
  change reentrantInput.run reentrant 3 _ = _ at hrun
  change Dispatched _ _ _ _ (reentrantInput.listenersOf 1).length reentrantInput _ at hdispatched
  rw [hrun] at hcalls
  exact ⟨after, parts, hlength ▸ hrun, hlength ▸ hdispatched, hparts, htold, hcalls⟩

end World
end ViewBinding
