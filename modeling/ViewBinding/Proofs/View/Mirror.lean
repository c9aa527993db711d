import Mathlib
import ViewBinding.Proofs.View.Attached
import ViewBinding.Proofs.View.Bookkeeping

/-!
# Two runs side by side

A run, and the same run in which no view model echoes. The two worlds mirror each other (`Mirrors`)
after each joint move (`Joint`): both do the same, unless a change of an input is written back to it
in one of them. Notifications are such moves when callbacks are (`Together.notifyFrom`).
-/

namespace ViewBinding

/-! ## Without echoes -/

/-- The same settings for a view model that does not echo. -/
def Settings.withoutEcho (settings : Settings) : Settings := { settings with echo := false }

def View.withoutEcho (v : View) : View := { v with settings := v.settings.withoutEcho }

private theorem View.register_withoutEcho (v : View) (b : Binding) :
    v.withoutEcho.register b = (v.register b).withoutEcho := by
  rw [register, register, apply_ite View.withoutEcho]
  rfl

private theorem View.settle_withoutEcho (v : View) :
    v.withoutEcho.settle = v.settle.withoutEcho := by
  rw [settle, settle, apply_ite View.withoutEcho, apply_ite View.withoutEcho]
  rfl

private theorem View.markDirty_withoutEcho (v : View) (key : String) :
    v.withoutEcho.markDirty key = (v.markDirty key).withoutEcho := by
  rw [markDirty, markDirty, apply_ite View.withoutEcho]
  rfl

private theorem View.Notified.withoutEcho {f : View → View} (hf : Notified f) (v : View) :
    f v.withoutEcho = (f v).withoutEcho := by
  cases hf with
  | beginFrame | beginPass | endPass | clear => rfl
  | fold key => exact v.markDirty_withoutEcho key
  | endFrame => exact View.settle_withoutEcho { v with inFlight := v.inFlight.tail }

private theorem View.Change.withoutEcho {f : View → View} (hf : Change f) (v : View) :
    f v.withoutEcho = (f v).withoutEcho := by
  cases hf <;> rfl

/-- The same step, mounting a view model that does not echo. -/
def Step.withoutEcho : Step → Step
  | .mount options settings => .mount options settings.withoutEcho
  | .mountConfig format text =>
    match ViewConfig.read format text with
    | .ok config => .mount config.options config.settings.withoutEcho
    | .error _ => .mountConfig format text
  | step => step

def Outcome.withoutEcho : Outcome → Outcome
  | .viewInfo info => .viewInfo { info with settings := info.settings.withoutEcho }
  | outcome => outcome

/-- Callbacks that take the same steps and mount view models that do not echo. -/
def Behaviour.withoutEcho (behaviour : Behaviour) : Behaviour :=
  fun script calls told => (behaviour script calls told).map Step.withoutEcho

def Event.withoutEcho : Event → Event
  | .did callback step outcome => .did callback step.withoutEcho outcome.withoutEcho
  | e => e

def Moment.withoutEcho (m : Moment) : Moment :=
  ⟨m.event.withoutEcho, m.views.map View.withoutEcho⟩

/-- A notification leaves out an input only for a view model that does not echo. -/
def Moment.Spares (m : Moment) : Prop :=
  match m.event with
  | .frameBegan id _ (some _) => ∃ view, m.views[id]? = some view ∧ view.settings.echo = false
  | _ => True

/-- A notification begins, perhaps with an input whose change it answers, and its first pass. -/
def Trace.opening (id : ViewId) (key : String) (origin : Option NodeId)
    (began passed : Array View) : List Moment :=
  [⟨.passBegan id key false, passed⟩, ⟨.frameBegan id key origin, began⟩]

/-- What bindings do in a pass while no callback is called, and no value is written to an input. -/
def Event.Shows (id : ViewId) (node : NodeId) : Event → Prop
  | .applied view b _ => view = id ∧ b.isWatch = false ∧ b.cell? ≠ some (.value node)
  | .changed change => change.cell? ≠ some (.value node)
  | _ => False

namespace World

open Trace

/-- Two worlds are the same, but no view model of the second one echoes. -/
structure Mirrors (on off : World) : Prop where
  doc : off.doc = on.doc
  listeners : off.listeners = on.listeners
  handles : off.handles = on.handles
  calls : off.calls = on.calls
  views : off.views = on.views.map View.withoutEcho

/-- Two worlds move on together and mirror each other again. Either the same happens in both, if
anything, or a notification begins in both because an input was changed. Then its first pass shows
the same in both until it comes to the model binding of the input. In the world whose view model
echoes this sets the value that the input has; in the other it is left out. -/
inductive Joint : World × World → World × World → Prop
  | silent {on off on' off' : World} : on'.Mirrors off' → on'.trace = on.trace →
      off'.trace = off.trace → Joint (on, off) (on', off')
  | event {on off on' off' : World} (m : Moment) : on'.Mirrors off' → m.Spares →
      on'.trace = m :: on.trace → off'.trace = m.withoutEcho :: off.trace →
        Joint (on, off) (on', off')
  | echo {on off x y : World} {id : ViewId} {key : String} {node : NodeId} {text : String}
      {view : View} {shown : List Moment} {began passed : Array View} :
      x.Mirrors y →
      x.trace = shown ++ (opening id key none began passed ++ on.trace) →
      y.trace = shown.map Moment.withoutEcho ++
        ((opening id key (some node) began passed).map Moment.withoutEcho ++ off.trace) →
      (∀ m ∈ shown, m.event.Shows id node) →
      x.views[id]? = some view → view.settings.echo = true →
      view.store.get? key = some (.string text) → x.doc.value? node = some text →
        Joint (on, off)
          ((x.emit (.applied id (.model node key) (some (.string text)))).perform
            (.setValue node text), y)

/-- One joint move after another. -/
abbrev Joints : World × World → World × World → Prop := Relation.ReflTransGen Joint

variable {on off : World} {id : ViewId}

/-! ## What mirrored worlds have in common -/

namespace Mirrors

theorem getElem?_views (h : on.Mirrors off) (id : ViewId) :
    off.views[id]? = on.views[id]?.map View.withoutEcho := by
  rw [h.views, Array.getElem?_map]

theorem size_views (h : on.Mirrors off) : off.views.size = on.views.size := by
  rw [h.views, Array.size_map]

private theorem watchers (h : on.Mirrors off) (id : ViewId) (key : String) :
    off.watchers id key = on.watchers id key := by
  rw [World.watchers, World.watchers, h.getElem?_views]
  cases on.views[id]? <;> rfl

private theorem isDisposed (h : on.Mirrors off) (id : ViewId) :
    off.isDisposed id = on.isDisposed id := by
  rw [World.isDisposed, World.isDisposed, h.getElem?_views]
  cases on.views[id]? <;> rfl

private theorem isInFlight (h : on.Mirrors off) (id : ViewId) (key : String) :
    off.isInFlight id key = on.isInFlight id key := by
  rw [World.isInFlight, World.isInFlight, h.getElem?_views]
  cases on.views[id]? <;> rfl

private theorem isDirty (h : on.Mirrors off) (id : ViewId) (key : String) :
    off.isDirty id key = on.isDirty id key := by
  rw [World.isDirty, World.isDirty, h.getElem?_views]
  cases on.views[id]? <;> rfl

theorem isAlive (h : on.Mirrors off) (id : ViewId) : off.isAlive id = on.isAlive id := by
  rw [World.isAlive, World.isAlive, h.handles, h.getElem?_views]
  cases on.views[id]? <;> rfl

theorem reach? (h : on.Mirrors off) (handle : Nat) : off.reach? handle = on.reach? handle := by
  simp only [World.reach?, h.handles, h.isAlive]

theorem listenersOf (h : on.Mirrors off) (node : NodeId) :
    off.listenersOf node = on.listenersOf node := by
  rw [World.listenersOf, World.listenersOf, h.listeners]

theorem callCount (h : on.Mirrors off) (callback : Callback) :
    off.callCount callback = on.callCount callback := by
  rw [World.callCount, World.callCount, h.calls]

private theorem emit (h : on.Mirrors off) (e e' : Event) : (on.emit e).Mirrors (off.emit e') :=
  ⟨h.doc, h.listeners, h.handles, h.calls, h.views⟩

private theorem perform (h : on.Mirrors off) (change : HostChange) :
    (on.perform change).Mirrors (off.perform change) :=
  ⟨congrArg (·.perform change) h.doc, h.listeners, h.handles, h.calls, h.views⟩

private theorem withDoc (h : on.Mirrors off) (doc : Document) :
    (on.withDoc doc).Mirrors (off.withDoc doc) :=
  ⟨rfl, h.listeners, h.handles, h.calls, h.views⟩

private theorem modifyView (h : on.Mirrors off) (id : ViewId) {f g : View → View}
    (hfg : ∀ v, g v.withoutEcho = (f v).withoutEcho) :
    (on.modifyView id f).Mirrors (off.modifyView id g) := by
  refine ⟨h.doc, h.listeners, h.handles, h.calls, Array.ext_getElem? fun other => ?_⟩
  rw [World.modifyView, World.modifyView, Array.getElem?_modify, Array.getElem?_map,
    Array.getElem?_modify, h.getElem?_views]
  split
  · cases on.views[other]? with
    | none => rfl
    | some v => exact congrArg some (hfg v)
  · rfl

end Mirrors

/-! ## Joint runs -/

private theorem Joint.mirrors {p q : World × World} (h : Joint p q) : q.1.Mirrors q.2 := by
  cases h with
  | silent hmirrors _ _ => exact hmirrors
  | event _ hmirrors _ _ _ => exact hmirrors
  | echo hmirrors _ _ _ _ _ _ hvalue =>
    refine ⟨?_, hmirrors.listeners, hmirrors.handles, hmirrors.calls, hmirrors.views⟩
    exact hmirrors.doc.trans (Document.setValue_eq_self hvalue).symm

/-- Two worlds that mirror each other have moved on together from others. -/
structure Together (start : World × World) (on off : World) : Prop where
  attached : on.Attached
  mirrors : on.Mirrors off
  joints : Joints start (on, off)
  listeners : start.1.listeners ⊆ on.listeners

/-- Two ways to run callbacks keep worlds together. -/
def Tuned (c d : Caller) : Prop :=
  ∀ start callback notice (on off : World), Together start on off →
    Together start (c callback notice on) (d callback notice off)

variable {start : World × World} {c d : Caller} {key : String}

namespace Together

theorem refl (hattached : on.Attached) (hmirrors : on.Mirrors off) :
    Together (on, off) on off :=
  ⟨hattached, hmirrors, .refl, fun _ h => h⟩

theorem trans {on' off' : World} (h : Together start on off)
    (h' : Together (on, off) on' off') : Together start on' off' :=
  ⟨h'.attached, h'.mirrors, h.joints.trans h'.joints,
    fun _ hentry => h'.listeners (h.listeners hentry)⟩

theorem emit (h : Together start on off) (e : Event)
    (hspares : Moment.Spares ⟨e, on.views⟩) :
    Together start (on.emit e) (off.emit e.withoutEcho) := by
  have hevent : Joint (on, off) (on.emit e, off.emit e.withoutEcho) := by
    refine .event ⟨e, on.views⟩ (h.mirrors.emit _ _) hspares rfl ?_
    rw [World.emit, h.mirrors.views]
    rfl
  exact ⟨h.attached.emit e, hevent.mirrors, h.joints.tail hevent, h.listeners⟩

theorem silent (h : Together start on off) {on' off' : World} (hattached : on'.Attached)
    (hmirrors : on'.Mirrors off') (hon : on'.trace = on.trace) (hoff : off'.trace = off.trace)
    (hlisteners : on.listeners ⊆ on'.listeners) : Together start on' off' :=
  ⟨hattached, hmirrors, h.joints.tail (.silent hmirrors hon hoff),
    fun _ hentry => hlisteners (h.listeners hentry)⟩

theorem withDoc (h : Together start on off) {doc : Document} (hdoc : on.doc.Edits doc) :
    Together start (on.withDoc doc) (off.withDoc doc) :=
  h.silent (h.attached.withDoc hdoc) (h.mirrors.withDoc doc) rfl rfl fun _ h => h

theorem perform (h : Together start on off) (change : HostChange) :
    Together start (on.perform change) (off.perform change) :=
  (h.emit (.changed change) trivial).silent (h.attached.perform change) (h.mirrors.perform change)
    rfl rfl fun _ h => h

private theorem modifyView (h : Together start on off) (id : ViewId) {f g : View → View}
    (hf : ∀ v : View, v.Widens (f v)) (hfg : ∀ v, g v.withoutEcho = (f v).withoutEcho) :
    Together start (on.modifyView id f) (off.modifyView id g) :=
  h.silent (h.attached.modifyView id hf) (h.mirrors.modifyView id hfg) rfl rfl fun _ h => h

theorem foldl {α : Type} {f g : World → α → World} (list : List α) (h : Together start on off)
    (hstep : ∀ on off a, Together start on off → Together start (f on a) (g off a)) :
    Together start (list.foldl f on) (list.foldl g off) := by
  induction list generalizing on off with
  | nil => exact h
  | cons a rest ih => exact ih (hstep on off a h)

/-! ## Notifications -/

theorem applyBinding (hcall : Tuned c d) (h : Together start on off) (b : Binding)
    (value : Option Value) :
    Together start (on.applyBinding c b value) (off.applyBinding d b value) := by
  unfold World.applyBinding
  split
  · exact hcall _ _ _ _ _ h
  split
  · exact h.perform _
  · exact h

private theorem visitBinding (hcall : Tuned c d) (h : Together start on off) (id : ViewId)
    (key : String) (origin : Option NodeId) (viewOnly : Bool) (b : Binding) :
    Together start (World.visitBinding c id key origin viewOnly on b)
      (World.visitBinding d id key origin viewOnly off b) := by
  have hview := h.mirrors.getElem?_views id
  cases hon : on.views[id]? with
  | none =>
    rw [hon] at hview
    simp only [World.visitBinding, hon, hview, Option.map_none]
    exact h
  | some view =>
    rw [hon] at hview
    have hoff : World.visitBinding d id key origin viewOnly off b =
        if view.disposed || (viewOnly && b.isWatch) || origin.any b.isModelOf then off
        else (off.emit (.applied id b (view.store.get? key))).applyBinding d b
          (view.store.get? key) := visitBinding_of_view hview
    rw [visitBinding_of_view hon, hoff]
    by_cases hskip : (view.disposed || (viewOnly && b.isWatch) || origin.any b.isModelOf) = true
    · rw [if_pos hskip, if_pos hskip]
      exact h
    · rw [if_neg hskip, if_neg hskip]
      exact (h.emit (.applied id b _) trivial).applyBinding hcall b _

private theorem foldl_visitBinding (hcall : Tuned c d) (h : Together start on off) (id : ViewId)
    (key : String) (origin : Option NodeId) (viewOnly : Bool) (bindings : List Binding) :
    Together start (bindings.foldl (World.visitBinding c id key origin viewOnly) on)
      (bindings.foldl (World.visitBinding d id key origin viewOnly) off) :=
  h.foldl bindings fun _ _ b hab => hab.visitBinding hcall id key origin viewOnly b

theorem changed (h : Together start on off) (id : ViewId) {f : View → View}
    (hf : View.Change f) : Together start (on.modifyView id f) (off.modifyView id f) :=
  h.modifyView id hf.widens hf.withoutEcho

theorem register (h : Together start on off) (id : ViewId) {b : Binding} (hb : b.isWatch = true) :
    Together start (on.modifyView id (·.register b)) (off.modifyView id (·.register b)) :=
  h.modifyView id (fun v => v.widens_register hb) fun v => v.register_withoutEcho b

private theorem notified (h : Together start on off) (id : ViewId) {f : View → View}
    (hf : View.Notified f) : Together start (on.modifyView id f) (off.modifyView id f) :=
  h.modifyView id hf.widens hf.withoutEcho

private theorem runPass (hcall : Tuned c d) (h : Together start on off) (id : ViewId) (key : String)
    (origin : Option NodeId) (viewOnly : Bool) :
    Together start (on.runPass c id key origin viewOnly).1
        (off.runPass d id key origin viewOnly).1 ∧
      (off.runPass d id key origin viewOnly).2 = (on.runPass c id key origin viewOnly).2 := by
  unfold World.runPass
  rw [h.mirrors.watchers]
  have hbegan := (h.notified id .beginPass).emit (.passBegan id key viewOnly) trivial
  have hran := hbegan.foldl_visitBinding hcall id key origin viewOnly (on.watchers id key)
  exact ⟨(hran.notified id .endPass).emit (.passEnded id key) trivial, rfl⟩

private theorem repeatPasses (hcall : Tuned c d) (h : Together start on off) (id : ViewId)
    (key : String) (remaining ran : Nat) :
    Together start (on.repeatPasses c id key remaining ran).1
        (off.repeatPasses d id key remaining ran).1 ∧
      (off.repeatPasses d id key remaining ran).2 = (on.repeatPasses c id key remaining ran).2 := by
  induction remaining generalizing on off ran with
  | zero =>
    unfold World.repeatPasses
    have hcleared := h.notified id (.clear key)
    dsimp only
    rw [h.mirrors.isDirty, hcleared.mirrors.isDisposed]
    split
    · exact ⟨(hcleared.runPass hcall id key none true).1, rfl⟩
    · exact ⟨hcleared, rfl⟩
  | succ remaining ih =>
    unfold World.repeatPasses
    have hcleared := h.notified id (.clear key)
    dsimp only
    rw [h.mirrors.isDirty, hcleared.mirrors.isDisposed]
    split
    · obtain ⟨hpassed, hcount⟩ := hcleared.runPass hcall id key none false
      rw [hcount]
      exact ih hpassed _
    · exact ⟨hcleared, rfl⟩

private theorem finish (hcall : Tuned c d) (h : Together start on off) (id : ViewId) (key : String)
    (count : Nat) :
    Together start
      ((on.repeatPasses c id key (maxPasses - 1) count).1.endFrame id key
        (on.repeatPasses c id key (maxPasses - 1) count).2)
      ((off.repeatPasses d id key (maxPasses - 1) count).1.endFrame id key
        (off.repeatPasses d id key (maxPasses - 1) count).2) ∧
      (off.repeatPasses d id key (maxPasses - 1) count).2 =
        (on.repeatPasses c id key (maxPasses - 1) count).2 := by
  obtain ⟨hlast, hran⟩ := h.repeatPasses hcall id key (maxPasses - 1) count
  rw [hran]
  exact ⟨(hlast.notified id .endFrame).emit (.frameEnded id key _) trivial, rfl⟩

/-- A notification that began in both worlds for the same reason. -/
theorem notifyFrom (hcall : Tuned c d) (h : Together start on off) (id : ViewId) (key : String)
    (origin : Option NodeId) (hecho : origin.isSome = true →
      ∀ view, on.views[id]? = some view → view.settings.echo = false) :
    Together start (on.notifyFrom c id key origin).1 (off.notifyFrom d id key origin).1 ∧
      (off.notifyFrom d id key origin).2 = (on.notifyFrom c id key origin).2 := by
  have hdisposed := h.mirrors.isDisposed id
  have hkey := h.mirrors.isInFlight id key
  cases hon : on.isDisposed id with
  | true =>
    rw [World.notifyFrom, World.notifyFrom, hdisposed, if_pos hon, if_pos hon]
    exact ⟨h, rfl⟩
  | false =>
    rw [hon] at hdisposed
    cases hidle : on.isInFlight id key with
    | true =>
      rw [World.notifyFrom, World.notifyFrom, hdisposed, hon, hkey, if_pos hidle, if_pos hidle]
      exact ⟨(h.notified id (.fold key)).emit (.folded id key) trivial, rfl⟩
    | false =>
      rw [hidle] at hkey
      rw [notifyFrom_of_idle hon hidle, notifyFrom_of_idle hdisposed hkey]
      have hbegan : Together start (on.beginFrame id key origin)
          (off.beginFrame id key origin) := by
        refine (h.notified id (.beginFrame key)).emit (.frameBegan id key origin) ?_
        cases origin with
        | none => trivial
        | some node =>
          have hview := World.getElem?_views (lt_size_of_isDisposed_eq_false hon)
          have hsilent : (on.view id).settings.echo = false := hecho rfl _ hview
          exact ⟨_, getElem?_modifyView_self hview _, hsilent⟩
      obtain ⟨hfirst, hcount⟩ := hbegan.runPass hcall id key origin false
      dsimp only
      rw [hcount]
      exact hfirst.finish hcall id key _

end Together

/-! ## Changes of inputs -/

/-- In the first pass that an input's change leads to, before the model binding of the input: the
input has its value, which the store has too, and bindings have shown the same in both worlds since
the notification began. -/
structure Awaits (on off : World) (id : ViewId) (key : String) (node : NodeId) (text : String)
    (x y : World) : Prop where
  attached : x.Attached
  mirrors : x.Mirrors y
  listeners : x.listeners = on.listeners
  view : ∃ view, x.views[id]? = some view ∧ view.disposed = false ∧ view.settings.echo = true ∧
    view.store.get? key = some (.string text)
  value : x.doc.value? node = some text
  trace : ∃ (shown : List Moment) (began passed : Array View),
    x.trace = shown ++ (opening id key none began passed ++ on.trace) ∧
    y.trace = shown.map Moment.withoutEcho ++
      ((opening id key (some node) began passed).map Moment.withoutEcho ++ off.trace) ∧
    ∀ m ∈ shown, m.event.Shows id node

namespace Awaits

variable {x y : World} {node : NodeId} {text : String}

private theorem visitBinding (c d : Caller) (h : Awaits on off id key node text x y) {b : Binding}
    (hwatch : b.isWatch = false) (hcell : b.cell? ≠ some (.value node)) :
    Awaits on off id key node text (World.visitBinding c id key none false x b)
      (World.visitBinding d id key (some node) false y b) := by
  obtain ⟨view, hview, halive, hecho, hstore⟩ := h.view
  obtain ⟨change, hchange⟩ : ∃ change,
      b.change? (shownText (view.store.get? key)) = some change := by
    cases b with
    | watch => cases hwatch
    | interpolation | text | model => exact ⟨_, rfl⟩
  have hview' : y.views[id]? = some view.withoutEcho := by
    rw [h.mirrors.getElem?_views, hview]
    rfl
  have hon : World.visitBinding c id key none false x b =
      (x.emit (.applied id b (view.store.get? key))).perform change :=
    visitBinding_of_change hview halive false hchange rfl
  have hoff : World.visitBinding d id key (some node) false y b =
      (y.emit (.applied id b (view.store.get? key))).perform change :=
    visitBinding_of_change hview' halive false hchange (View.isModelOf_eq_false hcell)
  have hchanged : change.cell? ≠ some (.value node) := by rwa [← Document.cell?_of_change? hchange]
  rw [hon, hoff]
  refine ⟨(h.attached.emit _).perform change, (h.mirrors.emit _ _).perform change, h.listeners,
    ⟨view, hview, halive, hecho, hstore⟩, ?_, ?_⟩
  · have hlt : node < x.doc.size := Document.lt_size_of_supportsValue
      (by rw [Document.supportsValue, h.value]; rfl)
    exact (Document.value?_perform_of_ne hlt hchanged).trans h.value
  · obtain ⟨shown, began, passed, hx, hy, hshown⟩ := h.trace
    refine ⟨⟨.changed change, x.views⟩ ::
      ⟨.applied id b (view.store.get? key), x.views⟩ :: shown, began, passed, ?_, ?_, ?_⟩
    · rw [World.perform, World.emit, World.emit, hx]
      rfl
    · rw [World.perform, World.emit, World.emit, hy, h.mirrors.views]
      rfl
    · exact List.forall_mem_cons.mpr ⟨hchanged,
        List.forall_mem_cons.mpr ⟨⟨rfl, hwatch, hcell⟩, hshown⟩⟩

private theorem foldl_visitBinding (c d : Caller) (h : Awaits on off id key node text x y)
    {bindings : List Binding}
    (hbindings : ∀ b ∈ bindings, b.isWatch = false ∧ b.cell? ≠ some (.value node)) :
    Awaits on off id key node text (bindings.foldl (World.visitBinding c id key none false) x)
      (bindings.foldl (World.visitBinding d id key (some node) false) y) := by
  induction bindings generalizing x y with
  | nil => exact h
  | cons b rest ih =>
    obtain ⟨⟨hwatch, hcell⟩, hrest⟩ := List.forall_mem_cons.mp hbindings
    exact ih (h.visitBinding c d hwatch hcell) hrest

private theorem echo (h : Together start on off) (hawaits : Awaits on off id key node text x y) :
    Together start (World.visitBinding c id key none false x (.model node key))
      (World.visitBinding d id key (some node) false y (.model node key)) := by
  obtain ⟨view, hview, halive, hecho, hstore⟩ := hawaits.view
  obtain ⟨shown, began, passed, hx, hy, hshown⟩ := hawaits.trace
  have hon : World.visitBinding c id key none false x (.model node key) =
      (x.emit (.applied id (.model node key) (some (.string text)))).perform
        (.setValue node text) := by
    rw [← hstore]
    refine visitBinding_of_change hview halive false ?_ rfl
    rw [hstore]
    rfl
  have hview' : y.views[id]? = some view.withoutEcho := by
    rw [hawaits.mirrors.getElem?_views, hview]
    rfl
  have hoff : World.visitBinding d id key (some node) false y (.model node key) = y := by
    rw [visitBinding_of_view hview', if_pos (by simp [Binding.isModelOf])]
  have hecho : Joint (on, off)
      ((x.emit (.applied id (.model node key) (some (.string text)))).perform
        (.setValue node text), y) :=
    .echo hawaits.mirrors hx hy hshown hview hecho hstore hawaits.value
  rw [hon, hoff]
  refine ⟨(hawaits.attached.emit _).perform _, hecho.mirrors, h.joints.tail hecho, ?_⟩
  change start.1.listeners ⊆ x.listeners
  rw [hawaits.listeners]
  exact h.listeners

end Awaits

private theorem Together.awaits_beginPass (h : Together start on off) {view : View}
    (hview : on.views[id]? = some view) (halive : view.disposed = false)
    (hecho : view.settings.echo = true) {text : String}
    (hstore : view.store.get? key = some (.string text)) {node : NodeId}
    (hvalue : on.doc.value? node = some text) :
    Awaits on off id key node text ((on.beginFrame id key none).beginPass id key false)
      ((off.beginFrame id key (some node)).beginPass id key false) := by
  have hframe : (on.beginFrame id key none).Mirrors (off.beginFrame id key (some node)) :=
    (h.mirrors.modifyView id (View.Notified.beginFrame key).withoutEcho).emit _ _
  have hpass : ((on.beginFrame id key none).beginPass id key false).Mirrors
      ((off.beginFrame id key (some node)).beginPass id key false) :=
    (hframe.modifyView id View.Notified.beginPass.withoutEcho).emit _ _
  have hattached : (on.beginFrame id key none).Attached :=
    (h.attached.modifyView id (View.Notified.beginFrame key).widens).emit _
  have hbegan : (on.beginFrame id key none).views[id]? =
      some { view with inFlight := key :: view.inFlight } := getElem?_modifyView_self hview _
  refine ⟨(hattached.modifyView id View.Notified.beginPass.widens).emit _, hpass, rfl,
    ⟨_, getElem?_modifyView_self hbegan fun v => { v with passes := v.passes + 1 }, halive, hecho,
      hstore⟩, hvalue, [], _, _, rfl, ?_, by simp⟩
  change ⟨_, ((off.beginFrame id key (some node)).beginPass id key false).views⟩ ::
    ⟨_, (off.beginFrame id key (some node)).views⟩ :: off.trace = _
  rw [hpass.views, hframe.views]
  rfl

private theorem foldl_visitBinding_origin (call : Caller) (id : ViewId) (key : String)
    {node : NodeId} (viewOnly : Bool) {bindings : List Binding}
    (hbindings : ∀ b ∈ bindings, b.isModelOf node = false) (w : World) :
    bindings.foldl (visitBinding call id key (some node) viewOnly) w =
      bindings.foldl (visitBinding call id key none viewOnly) w := by
  induction bindings generalizing w with
  | nil => rfl
  | cons b rest ih =>
    obtain ⟨hb, hrest⟩ := List.forall_mem_cons.mp hbindings
    have hsame : visitBinding call id key (some node) viewOnly w b =
        visitBinding call id key none viewOnly w b := by
      unfold visitBinding
      simp [hb]
    rw [List.foldl_cons, List.foldl_cons, hsame, ih hrest]

/-- A notification that begins because an input was changed, and is written back to it in one of the
worlds. -/
theorem Together.notifyFrom_echo (hcall : Tuned c d) (h : Together start on off) {view : View}
    (hview : on.views[id]? = some view) (halive : view.disposed = false)
    (hecho : view.settings.echo = true) {text : String}
    (hstore : view.store.get? key = some (.string text)) {node : NodeId}
    (hvalue : on.doc.value? node = some text) (hmem : (node, .model id key) ∈ on.listeners) :
    Together start (on.notifyFrom c id key none).1 (off.notifyFrom d id key (some node)).1 := by
  have hon : on.isDisposed id = false := by simp only [World.isDisposed, hview, halive]
  have hoff : off.isDisposed id = false := by rw [h.mirrors.isDisposed, hon]
  have hkey := h.mirrors.isInFlight id key
  cases hidle : on.isInFlight id key with
  | true =>
    rw [World.notifyFrom, World.notifyFrom, hoff, hon, hkey, if_pos hidle, if_pos hidle]
    exact (h.notified id (.fold key)).emit (.folded id key) trivial
  | false =>
    rw [hidle] at hkey
    rw [notifyFrom_of_idle hon hidle, notifyFrom_of_idle hoff hkey]
    dsimp only
    obtain ⟨-, view', hview', hholds⟩ := h.attached.inputs node id key hmem
    obtain rfl := Option.some.inj (hview.symm.trans hview')
    obtain ⟨before, behind, hwatchers, hbefore, hbehind⟩ :=
      (h.attached.layered id view hview).split (hholds.resolve_left (by simp [halive]))
    have hmet : (on.beginFrame id key none).watchers id key =
        before ++ .model node key :: behind := by
      have hbegan : (on.beginFrame id key none).views[id]? =
          some { view with inFlight := key :: view.inFlight } := getElem?_modifyView_self hview _
      rw [← hwatchers, watchers, hbegan]
    have hmet' : (off.beginFrame id key (some node)).watchers id key =
        before ++ .model node key :: behind := by
      rw [← hmet]
      exact Mirrors.watchers ((h.mirrors.modifyView id
        (View.Notified.beginFrame key).withoutEcho).emit _ _) id key
    have hfirst : Together start ((on.beginFrame id key none).runPass c id key none false).1
        ((off.beginFrame id key (some node)).runPass d id key (some node) false).1 := by
      rw [runPass_fst, runPass_fst, hmet, hmet', List.foldl_append, List.foldl_append,
        List.foldl_cons, List.foldl_cons, foldl_visitBinding_origin d id key false hbehind]
      have hawaits := h.awaits_beginPass hview halive hecho hstore hvalue
      have hechoed := Awaits.echo (c := c) (d := d) h (hawaits.foldl_visitBinding c d hbefore)
      have hran := hechoed.foldl_visitBinding hcall id key none false behind
      exact (hran.notified id .endPass).emit (.passEnded id key) trivial
    have hcount : ((off.beginFrame id key (some node)).runPass d id key (some node) false).2 =
        ((on.beginFrame id key none).runPass c id key none false).2 := by
      change ((off.beginFrame id key (some node)).watchers id key).length =
        ((on.beginFrame id key none).watchers id key).length
      rw [hmet, hmet']
    rw [hcount]
    exact (hfirst.finish hcall id key _).1

end World
end ViewBinding
