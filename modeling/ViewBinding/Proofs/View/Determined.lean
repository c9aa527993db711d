import Mathlib
import ViewBinding.Proofs.Document.Overlay
import ViewBinding.Proofs.View.Forests
import ViewBinding.Proofs.View.InStep

/-!
# The view is determined by the store

Everything that is done through a view model leaves the document as it was at first but for what
bindings show (`laid_runAll`), and in the end they show what is in the store. So two runs from one
document that end with the same texts in the store end with the same markup and the same values,
whatever has been set and notified on the way and in which order (`runAll_determined`).
-/

namespace ViewBinding

variable {bindings : List Binding}

theorem View.Notified.wired {f : View → View} (hf : Notified f) {v : View}
    (h : v.Wired bindings) : (f v).Wired bindings := by
  cases hf with
  | beginFrame | beginPass | endPass | clear => exact ⟨h.alive, h.registry, h.deferred⟩
  | fold key => exact (World.markDirty_wired h key).1
  | endFrame => exact View.Wired.settle ⟨h.alive, h.registry, h.deferred⟩

/-- Nobody watches the view model, and it holds these data. -/
structure View.Unwatched (store : Store) (v : View) : Prop where
  registry : ∀ key, ∀ b ∈ v.registry.watchers key, b.isWatch = false
  deferred : v.deferred = []
  store : v.store = store

private theorem View.Notified.unwatched {f : View → View} (hf : Notified f) {store : Store}
    {v : View} (h : v.Unwatched store) : (f v).Unwatched store := by
  cases hf with
  | beginFrame | beginPass | endPass | clear => exact ⟨h.registry, h.deferred, h.store⟩
  | fold key =>
    obtain ⟨dirty, hmarked⟩ := v.markDirty_eq key
    dsimp only
    rw [hmarked]
    exact ⟨h.registry, h.deferred, h.store⟩
  | endFrame =>
    dsimp only
    unfold View.settle
    split
    · exact ⟨h.registry, h.deferred, h.store⟩
    split
    · exact ⟨by simp, rfl, h.store⟩
    · refine ⟨fun key b hb => h.registry key b ?_, rfl, h.store⟩
      simpa [Registry.watchers_addAll, h.deferred] using hb

namespace World

open Trace

/-- The view model stands alone on the document, and its bindings have changed nothing there but
what they show. -/
structure Laid (initial : Document) (bindings : List Binding) (w : World) : Prop where
  wired : w.Wired bindings initial.size
  overlaid : initial.Overlaid bindings w.doc

variable {initial : Document} {call : Caller} {w after : World}

/-! ## What is done through the view model -/

private theorem Laid.congr (h : w.Laid initial bindings) (hviews : after.views = w.views)
    (hhandles : after.handles = w.handles) (hlisteners : after.listeners = w.listeners)
    (hdoc : after.doc = w.doc) : after.Laid initial bindings :=
  ⟨h.wired.congr hviews hhandles hlisteners hdoc, hdoc ▸ h.overlaid⟩

private theorem Laid.emit (h : w.Laid initial bindings) (e : Event) :
    (w.emit e).Laid initial bindings :=
  h.congr rfl rfl rfl rfl

private theorem Laid.modifyView (h : w.Laid initial bindings) {f : View → View}
    (hf : (f (w.view 0)).Wired bindings) : (w.modifyView 0 f).Laid initial bindings :=
  ⟨h.wired.modifyView hf, h.overlaid⟩

private theorem guarded_laid (initial : Document) (bindings : List Binding) :
    Guarded 0 (fun b => b.isWatch = true ∨ b ∈ bindings) (Laid initial bindings) where
  watchers := by
    intro w h key b hb
    rw [watchers_eq h.wired.lt_size] at hb
    exact (h.wired.key_eq hb).imp_right And.left
  modifyView := fun hf h => h.modifyView (hf.wired h.wired.view)
  emit := fun _ h => h.emit _
  perform := by
    intro w b shown change hb hchange h
    rcases hb with hwatch | hb
    · cases b with
      | watch => cases hchange
      | interpolation | text | model => cases hwatch
    · exact ⟨h.wired.perform change, h.overlaid.perform hb (h.wired.fits b hb) hchange⟩

private theorem Laid.writeValue (h : w.Laid initial bindings) (key : String) (value : Value) :
    (w.writeValue 0 key value).Laid initial bindings :=
  ⟨h.wired.writeValue key value, h.overlaid⟩

private theorem Laid.setValue (h : w.Laid initial bindings) (node : NodeId) (text : String) :
    (w.withDoc (w.doc.setValue node text)).Laid initial bindings :=
  ⟨h.wired.setValue node text, h.overlaid.setValue node text⟩

private theorem Laid.pins (h : w.Laid initial bindings) (f : Nat → Nat) :
    (w.modifyView 0 fun v => { v with pins := f v.pins }).Laid initial bindings :=
  h.modifyView ⟨h.wired.view.alive, h.wired.view.registry, h.wired.view.deferred⟩

private theorem Laid.onView (h : w.Laid initial bindings) (handle : Nat)
    {action : ViewId → View → World → World × Outcome}
    (haction : ∀ view (w : World), w.Laid initial bindings →
      (action 0 view w).1.Laid initial bindings) :
    (w.onView handle action).1.Laid initial bindings := by
  unfold World.onView
  split
  · exact h
  rename_i id hid
  obtain rfl := h.wired.reach?_eq hid
  split
  · exact h
  · exact (haction _ _ (h.pins (· + 1))).pins (· - 1)

section

variable (hcall : ∀ callback notice (w : World), w.Laid initial bindings →
  (call callback notice w).Laid initial bindings)

include hcall

private theorem Laid.notifyFrom (h : w.Laid initial bindings) (key : String)
    (origin : Option NodeId) : (w.notifyFrom call 0 key origin).1.Laid initial bindings :=
  (guarded_laid initial bindings).notifyFrom (fun _ _ _ _ => hcall _ _) key origin h

private theorem Laid.handleChange (h : w.Laid initial bindings) (node : NodeId)
    (key text : String) : (w.handleChange call 0 node key text).Laid initial bindings := by
  unfold World.handleChange
  split
  · exact h
  split
  · exact h
  · exact Laid.notifyFrom hcall (h.writeValue key _) key _

private theorem Laid.dispatch (h : w.Laid initial bindings) (node : NodeId) (text : String) :
    (w.dispatch call node text).1.Laid initial bindings := by
  unfold World.dispatch
  split
  · have hchanged := h.setValue node text
    by_cases hbound : ∃ key, .model node key ∈ bindings
    · obtain ⟨key, hmodel⟩ := hbound
      have hpinned := hchanged.pins (· + 1)
      rw [h.wired.listenersOf_model hmodel]
      change (World.fire call node text (w.withDoc (w.doc.setValue node text))
        (.model 0 key)).Laid initial bindings
      rw [fire, if_pos hchanged.wired.isAlive]
      exact (Laid.handleChange hcall hpinned node key text).pins (· - 1)
    · rw [h.wired.listenersOf_eq_nil]
      · exact hchanged
      · intro b hb hcell
        cases b with
        | model id key =>
          obtain rfl : id = node := by simpa [Binding.cell?] using hcell
          exact hbound ⟨key, hb⟩
        | interpolation | text | watch => simp [Binding.cell?] at hcell
  · exact h

private theorem Laid.exec (h : w.Laid initial bindings) (told : Option Value) {step : Step}
    (hstep : step.throughView = true) : (w.exec call told step).1.Laid initial bindings := by
  cases step with
  | get handle key => exact h.onView handle fun _ _ h => h
  | set handle key operand =>
    exact h.onView handle fun _ _ h => Laid.notifyFrom hcall (h.writeValue _ _) _ _
  | notify handle key => exact h.onView handle fun _ _ h => Laid.notifyFrom hcall h _ _
  | watch handle key script =>
    apply h.onView handle
    intro view w h
    dsimp only
    split
    · exact h
    · have hmade : (w.newCallback script).1.Laid initial bindings := h.congr rfl rfl rfl rfl
      exact (hmade.modifyView (hmade.wired.view.register _ _)).emit _
  | dispatch node text => exact Laid.dispatch hcall h node text
  | _ => simp [Step.throughView] at hstep

end

private theorem laid_call {behaviour : Behaviour} (hbehaviour : ThroughView behaviour) (depth : Nat)
    (callback : Callback) (notice : Notice) (w : World) (h : w.Laid initial bindings) :
    (World.call behaviour depth callback notice w).Laid initial bindings := by
  induction depth generalizing callback notice w with
  | zero => exact h.emit _
  | succ depth ih =>
    have hcounted : ((w.emit (.called callback notice)).countCall callback).Laid initial bindings :=
      h.congr rfl rfl rfl rfl
    exact List.foldlRecOn _ _ hcounted fun w hw step hstep =>
      (Laid.exec ih hw notice.told (hbehaviour _ _ _ step hstep)).emit _

/-- Steps through the view model change nothing on the document but what bindings show, whatever
callbacks do through it meanwhile. -/
theorem laid_runAll {behaviour : Behaviour} (hbehaviour : ThroughView behaviour) (depth : Nat)
    {steps : List Step} (hsteps : ∀ step ∈ steps, step.throughView = true)
    (h : w.Laid initial bindings) : (w.runAll behaviour depth steps).Laid initial bindings :=
  List.foldlRecOn _ _ h fun _ hw step hstep =>
    Laid.exec (laid_call hbehaviour depth) hw none (hsteps step hstep)

private theorem overlaid_mount {doc : Document} (hdoc : doc.Reachable) (options : MountOptions)
    (settings : Settings) {root : NodeId} (hroot : options.target.resolve doc = .ok root) :
    doc.Overlaid (compile doc options.store settings root).bindings
      ((ofDocument doc).mount options settings).1.doc := by
  have hwf := hdoc.wellFormed
  obtain ⟨hcompiled, -⟩ := mount_eq (ofDocument doc) options settings hroot rfl
    (contains_modelInputs hwf options.store settings root) rfl
  rw [hcompiled]
  exact hwf.overlaid_compile options.store settings root

/-! ## When it is over -/

/-- What is known of a run through a view model between two steps. -/
structure Settled (initial : Document) (bindings : List Binding) (w : World) : Prop where
  made : w.Made
  inStep : w.InStep bindings initial.size
  idle : (w.view 0).inFlight = []
  overlaid : initial.Overlaid bindings w.doc

private theorem settled_mount {doc : Document} (hdoc : doc.Reachable) (options : MountOptions)
    (settings : Settings) {root : NodeId} (hroot : options.target.resolve doc = .ok root) :
    ((ofDocument doc).mount options settings).1.Settled doc
      (compile doc options.store settings root).bindings := by
  obtain ⟨hinStep, hidle⟩ := inStep_mount hdoc options settings hroot rfl
  have hmade : (ofDocument doc).Made := ⟨hdoc, by simp [ofDocument]⟩
  exact ⟨hmade.mount options settings, hinStep, hidle, overlaid_mount hdoc options settings hroot⟩

private theorem Settled.runAll (h : w.Settled initial bindings) {behaviour : Behaviour}
    (hbehaviour : ThroughView behaviour) (depth : Nat) {steps : List Step}
    (hsteps : ∀ step ∈ steps, step.throughView = true) :
    (w.runAll behaviour depth steps).Settled initial bindings := by
  obtain ⟨hinStep, hevolves, -⟩ := follows_runAll hbehaviour depth hsteps w h.inStep
  have hlaid : w.Laid initial bindings := ⟨h.inStep.wired, h.overlaid⟩
  exact ⟨made_runAll behaviour depth steps h.made, hinStep, (hevolves.inFlight 0).trans h.idle,
    (laid_runAll hbehaviour depth hsteps hlaid).overlaid⟩

private theorem Settled.holds (h : w.Settled initial bindings) {b : Binding} (hb : b ∈ bindings) :
    b.Holds w.doc initial.size ((w.view 0).store.render b.key) := by
  rw [← shownText_get?]
  exact h.inStep.lit b hb (by simp [h.idle])

/-- Two documents that were one at first look alike: the nodes that there were have the same markup,
and the inputs that a view model has bound have the texts of its data as values. -/
structure LooksLike (initial : Document) (view : View) (a b : Document) : Prop where
  markup : ∀ node < initial.size, a.innerMarkup node = b.innerMarkup node
  values : ∀ key node, .model node key ∈ view.registry.watchers key →
    a.value? node = some (view.store.render key) ∧ b.value? node = some (view.store.render key)

private theorem Settled.looksLike (hwf : initial.WellFormed) (h : w.Settled initial bindings)
    (hafter : after.Settled initial bindings) (hsame : ∀ b ∈ bindings,
      (w.view 0).store.render b.key = (after.view 0).store.render b.key) :
    LooksLike initial (w.view 0) w.doc after.doc := by
  have hother : ∀ b ∈ bindings,
      b.Holds after.doc initial.size ((w.view 0).store.render b.key) := by
    intro b hb
    rw [hsame b hb]
    exact hafter.holds hb
  refine ⟨fun node hnode => ?_, fun key node hmodel => ?_⟩
  · exact Document.Overlaid.innerMarkup_eq hwf h.overlaid hafter.overlaid
      (fun b hb => ⟨_, h.holds hb, hother b hb⟩) h.made.doc.wellFormed
      hafter.made.doc.wellFormed hnode
  · rcases h.inStep.wired.key_eq hmodel with hwatch | ⟨hb, -⟩
    · cases hwatch
    · exact ⟨h.holds hb, hother _ hb⟩

/-! ## Notifications that nobody hears -/

/-- There is a view model that nobody watches, with these data. -/
structure Unheard (store : Store) (w : World) : Prop where
  size : 0 < w.views.size
  view : (w.view 0).Unwatched store

private theorem Unheard.modifyView {store : Store} (h : w.Unheard store) {f : View → View}
    (hf : (f (w.view 0)).Unwatched store) : (w.modifyView 0 f).Unheard store where
  size := by
    rw [size_views_modifyView]
    exact h.size
  view := by
    rw [view_modifyView_self h.size]
    exact hf

private theorem guarded_unheard (store : Store) :
    Guarded 0 (fun b => b.isWatch = false) (Unheard store) where
  watchers := by
    intro w h key b hb
    rw [watchers_eq h.size] at hb
    exact h.view.registry key b hb
  modifyView := fun hf h => h.modifyView (hf.unwatched h.view)
  emit := fun _ h => ⟨h.size, h.view⟩
  perform := fun _ _ h => ⟨h.size, h.view⟩

private theorem Unheard.exec_notify {store : Store} (h : w.Unheard store) {old : Nat}
    (hwired : w.Wired bindings old) (call : Caller) (told : Option Value) (handle : Nat)
    (key : String) : (w.exec call told (.notify handle key)).1.Unheard store := by
  have hpins : ∀ {w : World} (f : Nat → Nat), w.Unheard store →
      (w.modifyView 0 fun v => { v with pins := f v.pins }).Unheard store :=
    fun f h => h.modifyView ⟨h.view.registry, h.view.deferred, h.view.store⟩
  -- There is no callback that could be called.
  have hheeds : Heeds call (fun b => b.isWatch = false) (Unheard store) :=
    fun _ _ hwatch => by cases hwatch
  simp only [World.exec, World.onView]
  split
  · exact h
  rename_i id hid
  obtain rfl := hwired.reach?_eq hid
  split
  · exact h
  · exact hpins (· - 1) ((guarded_unheard store).notifyFrom hheeds _ none (hpins (· + 1) h))

private theorem Unheard.runAll_notify {store : Store} (h : w.Unheard store)
    (hsettled : w.Settled initial bindings) {behaviour : Behaviour}
    (hbehaviour : ThroughView behaviour) (depth : Nat) {steps : List Step}
    (hsteps : ∀ step ∈ steps, ∃ handle key, step = .notify handle key) :
    (w.runAll behaviour depth steps).Unheard store := by
  induction steps generalizing w with
  | nil => exact h
  | cons step rest ih =>
    obtain ⟨⟨handle, key, rfl⟩, hrest⟩ := List.forall_mem_cons.mp hsteps
    have hnext : (w.runAll behaviour depth [.notify handle key]).Settled initial bindings :=
      hsettled.runAll hbehaviour depth (by simp [Step.throughView])
    exact ih (h.exec_notify hsettled.inStep.wired _ none handle key) hnext hrest

/-! ## Whole runs -/

private theorem runAll_mount (doc : Document) (behaviour : Behaviour) (depth : Nat)
    (options : MountOptions) (settings : Settings) (steps : List Step) :
    (ofDocument doc).runAll behaviour depth (.mount options settings :: steps) =
      ((ofDocument doc).mount options settings).1.runAll behaviour depth steps := by
  have hfirst : ((ofDocument doc).run behaviour depth (.mount options settings)).1 =
      ((ofDocument doc).mount options settings).1 := by
    simp only [run, exec, mountOutcome]
    split <;> simp_all
  rw [← hfirst]
  rfl

/-- Two view models that were mounted alike on one document, and driven each in its own way through
its handle, have the same bindings. If they end with the same texts for the keys of these, then all
nodes that the document had, it itself included, end with the same markup, and the bound inputs with
these texts as values. If nobody watches, notifications after that change nothing of it, whichever
keys they are of and however many. -/
theorem runAll_determined {doc : Document} (hdoc : doc.Reachable) (settings : Settings)
    {root : NodeId} (options₁ options₂ : MountOptions)
    (hroot₁ : options₁.target.resolve doc = .ok root)
    (hroot₂ : options₂.target.resolve doc = .ok root) {behaviour₁ behaviour₂ : Behaviour}
    (hbehaviour₁ : ThroughView behaviour₁) (hbehaviour₂ : ThroughView behaviour₂)
    (depth₁ depth₂ : Nat) {steps₁ steps₂ : List Step}
    (hsteps₁ : ∀ step ∈ steps₁, step.throughView = true)
    (hsteps₂ : ∀ step ∈ steps₂, step.throughView = true) :
    let w₁ := (ofDocument doc).runAll behaviour₁ depth₁ (.mount options₁ settings :: steps₁)
    let w₂ := (ofDocument doc).runAll behaviour₂ depth₂ (.mount options₂ settings :: steps₂)
    ∃ view₁ view₂, w₁.views[0]? = some view₁ ∧ w₂.views[0]? = some view₂ ∧
      (∀ key, (view₁.registry.watchers key).filter (fun b => !b.isWatch) =
        (view₂.registry.watchers key).filter fun b => !b.isWatch) ∧
      ((∀ key, ∀ b ∈ view₁.registry.watchers key, b.isWatch = false →
          view₁.store.render key = view₂.store.render key) →
        LooksLike doc view₁ w₁.doc w₂.doc) ∧
      ((∀ key, ∀ b ∈ view₁.registry.watchers key, b.isWatch = false) →
        ∀ notices : List Step, (∀ step ∈ notices, ∃ handle key, step = .notify handle key) →
          LooksLike doc view₁ w₁.doc (w₁.runAll behaviour₁ depth₁ notices).doc) := by
  intro w₁ w₂
  have hwf := hdoc.wellFormed
  obtain ⟨bindings, hbindings⟩ :
      ∃ bindings, (compile doc options₁.store settings root).bindings = bindings := ⟨_, rfl⟩
  have hsettled₁ : w₁.Settled doc bindings := by
    rw [← hbindings]
    simp only [w₁, runAll_mount]
    exact (settled_mount hdoc options₁ settings hroot₁).runAll hbehaviour₁ depth₁ hsteps₁
  have hsettled₂ : w₂.Settled doc bindings := by
    rw [← hbindings, bindings_compile hwf options₁.store options₂.store settings root]
    simp only [w₂, runAll_mount]
    exact (settled_mount hdoc options₂ settings hroot₂).runAll hbehaviour₂ depth₂ hsteps₂
  have hwired₁ := hsettled₁.inStep.wired
  have hwired₂ := hsettled₂.inStep.wired
  refine ⟨w₁.view 0, w₂.view 0, getElem?_views hwired₁.lt_size, getElem?_views hwired₂.lt_size,
    fun key => ?_, fun hsame => ?_, fun hunwatched notices hnotices => ?_⟩
  · rw [hwired₁.view.registry, hwired₂.view.registry]
  · refine hsettled₁.looksLike hwf hsettled₂ fun b hb => ?_
    obtain ⟨hmem, hview⟩ := hwired₁.mem_watchers hb rfl
    exact hsame b.key b hmem hview
  · have hthrough : ∀ step ∈ notices, step.throughView = true := by
      intro step hstep
      obtain ⟨handle, key, rfl⟩ := hnotices step hstep
      rfl
    have hdeferred : (w₁.view 0).deferred = [] :=
      hsettled₁.inStep.sound.ready.waiting 0 hsettled₁.idle
    have hunheard : w₁.Unheard (w₁.view 0).store :=
      ⟨hwired₁.lt_size, hunwatched, hdeferred, rfl⟩
    have hstore := (hunheard.runAll_notify hsettled₁ hbehaviour₁ depth₁ hnotices).view.store
    refine hsettled₁.looksLike hwf (hsettled₁.runAll hbehaviour₁ depth₁ hthrough) fun b _ => ?_
    rw [hstore]

/-- The name is typed, changed and notified, and at last changed again. -/
def corrections : List Step :=
  [.dispatch 3 "Ada", .set 0 "name" (.literal (.string "Bob")), .notify 0 "name", .notify 0 "name",
    .set 0 "name" (.literal (.string "Eve"))]

theorem greetingForm_determined :
    let w₁ := (ofDocument greetingForm).runAll wrapping 9
      (.mount { target := .node Document.root } {} :: corrections)
    let w₂ := (ofDocument greetingForm).runAll wrapping 9
      [.mount { target := .node Document.root, data := some (.ofList [("name", .bool true)]) } {},
        .dispatch 3 "Eve"]
    w₁.doc.size ≠ w₂.doc.size ∧
      w₁.doc.innerMarkup Document.root = w₂.doc.innerMarkup Document.root ∧
      w₁.doc.value? 3 = some "Eve" ∧ w₂.doc.value? 3 = some "Eve" ∧
      (w₁.runAll wrapping 9 [.notify 0 "name", .notify 0 "name"]).doc.innerMarkup Document.root =
        w₁.doc.innerMarkup Document.root := by
  intro w₁ w₂
  have hdoc : greetingForm.Reachable :=
    .appendElement _ _ _ (.appendText _ _ (.appendElement _ _ _ .empty))
  have hroot : (Target.node Document.root).resolve greetingForm = .ok Document.root := by
    decide +kernel
  have hbehaviour : ThroughView wrapping := by
    intro script calls told step hstep
    rw [List.mem_singleton.mp hstep]
    rfl
  have hcorrections : ∀ step ∈ corrections, step.throughView = true := by
    simp [corrections, Step.throughView]
  have hdispatch : ∀ step ∈ [Step.dispatch 3 "Eve"], step.throughView = true := by
    simp [Step.throughView]
  have hsize : w₁.doc.size = 9 ∧ w₂.doc.size = 6 := by decide +kernel
  have hnames : (w₁.views[0]?.map fun v => v.store.render "name") = some "Eve" ∧
      (w₂.views[0]?.map fun v => v.store.render "name") = some "Eve" := by decide +kernel
  have hentries : (w₁.views[0]?.map fun v => v.registry.entries) =
      some [("name", [.text 1 "name",
        .interpolation 2 ⟨"Hi ", "\x7b\x7bname\x7d\x7d", "name", ""⟩, .model 3 "name"])] := by
    decide +kernel
  obtain ⟨view₁, view₂, hview₁, hview₂, -, hsame, hnotified⟩ := runAll_determined hdoc {}
    { target := .node Document.root }
    { target := .node Document.root, data := some (.ofList [("name", .bool true)]) }
    hroot hroot hbehaviour hbehaviour 9 9 hcorrections hdispatch
  simp only [w₁, w₂, hview₁, hview₂, Option.map_some, Option.some.injEq] at hnames hentries
  have hwatchers : ∀ key, ∀ b ∈ view₁.registry.watchers key, b.isWatch = false ∧ key = "name" := by
    intro key b hb
    rw [Registry.watchers, hentries] at hb
    by_cases hkey : "name" = key
    · simp only [Dict.get?, hkey, if_true, Option.getD_some, List.mem_cons, List.not_mem_nil,
        or_false] at hb
      rcases hb with rfl | rfl | rfl <;> exact ⟨rfl, hkey.symm⟩
    · simp [Dict.get?, hkey] at hb
  have hinput : .model 3 "name" ∈ view₁.registry.watchers "name" := by
    simp [Registry.watchers, hentries, Dict.get?]
  obtain ⟨hmarkup, hvalues⟩ := hsame fun key b hb _ => by
    rw [(hwatchers key b hb).2, hnames.1, hnames.2]
  have hvalue := hvalues "name" 3 hinput
  rw [hnames.1] at hvalue
  obtain ⟨hquiet, -⟩ := hnotified (fun key b hb => (hwatchers key b hb).1)
    [.notify 0 "name", .notify 0 "name"] (by simp)
  have hroot_lt : Document.root < greetingForm.size := hdoc.wellFormed.root_lt_size
  refine ⟨?_, hmarkup _ hroot_lt, hvalue.1, hvalue.2, (hquiet _ hroot_lt).symm⟩
  rw [hsize.1, hsize.2]
  decide

end World
end ViewBinding
