import Mathlib
import ViewBinding.Proofs.View.Bookkeeping

/-!
# Notifications end

Scripts that stay on one view model cannot keep it busy for ever, however often they write back:
from some depth on, no run comes to the limit of nesting, and its result does not depend on the
limit (`confined_run_returns`). What makes it so is that the keys being notified are different and
all but the innermost are watched, and that nothing is added to the registry while a pass runs.
-/

namespace ViewBinding

/-- A step on one view model, or on an input that no one else listens to. -/
def Step.ConfinedTo (id : ViewId) (w : World) : Step → Prop
  | .get handle _ | .data handle | .write handle _ _ | .set handle _ _ | .notify handle _
  | .watch handle _ _ | .dispose handle =>
    ∀ entry, w.handles[handle]? = some entry → entry.view = id
  | .dispatch node _ => ∀ listener ∈ w.listenersOf node, ∃ key, listener = .model id key
  | _ => False

namespace World

open Trace

/-- Callbacks take steps on one view model only. -/
def Confined (w : World) (behaviour : Behaviour) (id : ViewId) : Prop :=
  ∀ script calls told, ∀ step ∈ behaviour script calls told, step.ConfinedTo id w

/-- Handles and listeners stay, and no callback comes to the limit of nesting. -/
structure Stays (w after : World) : Prop where
  handles : after.handles = w.handles
  listeners : after.listeners = w.listeners
  trace : ∃ new, after.trace = new ++ w.trace ∧ ∀ m ∈ new, ∀ callback, m.event ≠ .exhausted callback

/-- A world inside a pass, with room for less than so many notifications of watched keys. -/
structure Inside (behaviour : Behaviour) (id : ViewId) (room : Nat) (w : World) : Prop where
  sound : w.Sound
  confined : w.Confined behaviour id
  busy : (w.view id).inFlight ≠ []
  room : (w.view id).registry.size < room + (w.view id).inFlight.length

/-- Two ways to run callbacks that do the same, as long as there is room. -/
structure Agree (behaviour : Behaviour) (id : ViewId) (room : Nat) (c d : Caller) : Prop where
  left : Attends c
  right : Attends d
  same : ∀ callback notice w, Inside behaviour id room w →
    c callback notice w = d callback notice w ∧ w.Stays (c callback notice w)

/-! ## What stays -/

theorem Stays.refl (w : World) : w.Stays w :=
  ⟨rfl, rfl, [], rfl, by simp⟩

theorem Stays.trans {a b c : World} (hab : a.Stays b) (hbc : b.Stays c) : a.Stays c := by
  obtain ⟨new, hnew, hcalm⟩ := hab.trace
  obtain ⟨newer, hnewer, hcalmer⟩ := hbc.trace
  refine ⟨hbc.handles.trans hab.handles, hbc.listeners.trans hab.listeners, newer ++ new, ?_, ?_⟩
  · rw [hnewer, hnew, List.append_assoc]
  · intro m hm
    rcases List.mem_append.mp hm with hm | hm
    · exact hcalmer m hm
    · exact hcalm m hm

private theorem stays_modifyView (w : World) (id : ViewId) (f : View → View) :
    w.Stays (w.modifyView id f) :=
  ⟨rfl, rfl, [], rfl, by simp⟩

private theorem stays_emit (w : World) {e : Event} (he : ∀ callback, e ≠ .exhausted callback) :
    w.Stays (w.emit e) :=
  ⟨rfl, rfl, [⟨e, w.views⟩], rfl, by simpa using he⟩

private theorem stays_perform (w : World) (change : HostChange) : w.Stays (w.perform change) :=
  ⟨rfl, rfl, [⟨.changed change, w.views⟩], rfl, by simp⟩

theorem confinedTo_congr {w after : World} (h : w.Stays after) {id : ViewId} {step : Step}
    (hstep : step.ConfinedTo id w) : step.ConfinedTo id after := by
  cases step
  all_goals
    simp only [Step.ConfinedTo, listenersOf, h.handles, h.listeners] at hstep ⊢
    try exact hstep

private theorem Confined.congr {w after : World} (h : w.Stays after) {behaviour : Behaviour}
    {id : ViewId} (hconfined : w.Confined behaviour id) : after.Confined behaviour id :=
  fun script calls told step hstep => confinedTo_congr h (hconfined script calls told step hstep)

variable {behaviour : Behaviour} {id : ViewId} {room : Nat} {c d : Caller} {w x : World}

private theorem Inside.keep {after : World} (h : Inside behaviour id room w)
    (hkeeps : w.Keeps after) (hstays : w.Stays after) : Inside behaviour id room after := by
  obtain ⟨hsound, hevolves⟩ := hkeeps h.sound
  refine ⟨hsound, h.confined.congr hstays, ?_, ?_⟩
  · rw [hevolves.inFlight]
    exact h.busy
  · rw [hevolves.inFlight, (hevolves.steady id).registry]
    · exact h.room
    · rw [h.sound.ready.running]
      exact fun hlength => h.busy (List.length_eq_zero_iff.mp hlength)

/-! ## Passes -/

private theorem Agree.applyBinding (h : Agree behaviour id room c d)
    (hw : Inside behaviour id room w) (b : Binding) (value : Option Value) :
    w.applyBinding c b value = w.applyBinding d b value ∧ w.Stays (w.applyBinding c b value) := by
  cases b with
  | watch key callback => exact h.same callback (.watched value) w hw
  | interpolation | text | model => exact ⟨rfl, stays_perform w _⟩

private theorem Agree.visitBinding (h : Agree behaviour id room c d)
    (hw : Inside behaviour id room w) (key : String) (origin : Option NodeId) (viewOnly : Bool)
    (b : Binding) :
    visitBinding c id key origin viewOnly w b = visitBinding d id key origin viewOnly w b ∧
      w.Stays (visitBinding c id key origin viewOnly w b) := by
  unfold World.visitBinding
  split
  · exact ⟨rfl, .refl w⟩
  split
  · exact ⟨rfl, .refl w⟩
  · rename_i view _ _
    have hevent : w.Stays (w.emit (.applied id b (view.store.get? key))) := stays_emit w (by simp)
    have happlied := hw.keep (keeps_emit w (e := .applied id b (view.store.get? key)) rfl (by simp))
      hevent
    obtain ⟨heq, hstays⟩ := h.applyBinding happlied b (view.store.get? key)
    exact ⟨heq, hevent.trans hstays⟩

private theorem Agree.foldl_visitBinding (h : Agree behaviour id room c d)
    (hw : Inside behaviour id room w) (key : String) (origin : Option NodeId) (viewOnly : Bool)
    (bindings : List Binding) :
    bindings.foldl (World.visitBinding c id key origin viewOnly) w =
        bindings.foldl (World.visitBinding d id key origin viewOnly) w ∧
      w.Stays (bindings.foldl (World.visitBinding c id key origin viewOnly) w) := by
  induction bindings generalizing w with
  | nil => exact ⟨rfl, .refl w⟩
  | cons b rest ih =>
    obtain ⟨heq, hstays⟩ := h.visitBinding hw key origin viewOnly b
    have hnext := hw.keep (keeps_visitBinding h.left id key origin viewOnly w b) hstays
    obtain ⟨hrest, hstays'⟩ := ih hnext
    rw [List.foldl_cons, List.foldl_cons, ← heq]
    exact ⟨hrest, hstays.trans hstays'⟩

private theorem foldl_visitBinding_viewOnly (c d : Caller) (id : ViewId) (key : String)
    (bindings : List Binding) (w : World) :
    bindings.foldl (visitBinding c id key none true) w =
        bindings.foldl (visitBinding d id key none true) w ∧
      w.Stays (bindings.foldl (visitBinding c id key none true) w) := by
  induction bindings generalizing w with
  | nil => exact ⟨rfl, .refl w⟩
  | cons b rest ih =>
    have hone : visitBinding c id key none true w b = visitBinding d id key none true w b ∧
        w.Stays (visitBinding c id key none true w b) := by
      unfold visitBinding
      split
      · exact ⟨rfl, .refl w⟩
      split
      · exact ⟨rfl, .refl w⟩
      rename_i view _ hvisit
      cases b with
      | watch => simp [Binding.isWatch] at hvisit
      | interpolation | text | model =>
        exact ⟨rfl, (stays_emit w (by simp)).trans (stays_perform _ _)⟩
    obtain ⟨hrest, hstays⟩ := ih (visitBinding c id key none true w b)
    rw [List.foldl_cons, List.foldl_cons, ← hone.1]
    exact ⟨hrest, hone.2.trans hstays⟩

private theorem stays_beginPass (x : World) (id : ViewId) (key : String) (viewOnly : Bool) :
    x.Stays (x.beginPass id key viewOnly) :=
  (stays_modifyView x id _).trans (stays_emit _ (by simp))

private theorem stays_endPass (z : World) (id : ViewId) (key : String) : z.Stays
    (z.endPass id key) :=
  (stays_modifyView z id _).trans (stays_emit _ (by simp))

/-- The world in which a notification begins: callbacks are confined, and there is room for so many
notifications of watched keys. -/
structure Outside (behaviour : Behaviour) (id : ViewId) (room : Nat) (w : World) : Prop where
  sound : w.Sound
  confined : w.Confined behaviour id
  room : (w.view id).registry.size ≤ room + (w.view id).inFlight.length

private theorem Agree.runPass_full (h : Agree behaviour id room c d)
    (hw : Outside behaviour id room w) (hid : id < w.views.size) {key : String}
    (hmid : w.Midframe id key x) (hstays : w.Stays x) (hfull : true ∉ passesOf id key x.trace)
    (origin : Option NodeId) :
    x.runPass c id key origin false = x.runPass d id key origin false ∧
      x.Stays (x.runPass c id key origin false).1 := by
  have hidx := hmid.lt_size hid
  have hbegin := stays_beginPass x id key false
  have hran : (x.watchers id key).foldl (World.visitBinding c id key origin false)
        (x.beginPass id key false) =
      (x.watchers id key).foldl (World.visitBinding d id key origin false) (x.beginPass id key false) ∧
      (x.beginPass id key false).Stays ((x.watchers id key).foldl
        (World.visitBinding c id key origin false) (x.beginPass id key false)) := by
    by_cases hnil : x.watchers id key = []
    · rw [hnil]
      exact ⟨rfl, .refl _⟩
    · rw [watchers_eq hidx] at hnil
      apply h.foldl_visitBinding
      have hview := view_beginPass x hidx key false id
      rw [if_pos rfl] at hview
      refine ⟨hmid.sound_beginPass hw.sound hid hnil hfull,
        hw.confined.congr (hstays.trans hbegin), ?_, ?_⟩
      · rw [hview, hmid.inFlight_self]
        simp
      · have hroom := hw.room
        rw [hview, hmid.registry, hmid.inFlight_self, List.length_cons]
        omega
  refine ⟨?_, ?_⟩
  · exact Prod.ext (congrArg (·.endPass id key) hran.1) rfl
  · rw [runPass_fst]
    exact (hbegin.trans hran.2).trans (stays_endPass _ id key)

private theorem runPass_viewOnly (c d : Caller) (x : World) (id : ViewId) (key : String) :
    x.runPass c id key none true = x.runPass d id key none true ∧
      x.Stays (x.runPass c id key none true).1 := by
  obtain ⟨heq, hstays⟩ := foldl_visitBinding_viewOnly c d id key (x.watchers id key)
    (x.beginPass id key true)
  refine ⟨Prod.ext (congrArg (·.endPass id key) heq) rfl, ?_⟩
  rw [runPass_fst]
  exact ((stays_beginPass x id key true).trans hstays).trans (stays_endPass _ id key)

/-! ## Notifications -/

private theorem Agree.repeatPasses (h : Agree behaviour id room c d)
    (hw : Outside behaviour id room w) (hid : id < w.views.size) {key : String}
    (hkey : key ∉ (w.view id).inFlight) {remaining count : Nat} (ran : Nat)
    (hx : Between w id key count x) (hstays : w.Stays x) :
    x.repeatPasses c id key remaining ran = x.repeatPasses d id key remaining ran ∧
      x.Stays (x.repeatPasses c id key remaining ran).1 := by
  induction remaining generalizing x count ran with
  | zero =>
    unfold World.repeatPasses
    dsimp only
    split
    · obtain ⟨heq, hpass⟩ := runPass_viewOnly c d (x.modifyView id (·.clearDirty key)) id key
      rw [← heq]
      exact ⟨rfl, (stays_modifyView x id _).trans hpass⟩
    · exact ⟨rfl, stays_modifyView x id _⟩
  | succ remaining ih =>
    have hidx := hx.mid.lt_size hid
    have hcleared := hx.mid.clearDirty hw.sound hid hkey
    have hclear := stays_modifyView x id (·.clearDirty key)
    have hfull : true ∉ passesOf id key (x.modifyView id (·.clearDirty key)).trace := by
      rw [show (x.modifyView id (·.clearDirty key)).trace = x.trace from rfl, hx.passes]
      simp
    unfold World.repeatPasses
    dsimp only
    split
    · obtain ⟨heq, hpass⟩ := h.runPass_full hw hid hcleared (hstays.trans hclear) hfull none
      have hbetween := Between.runPass h.left hw.sound hid hkey hcleared hx.passes
        fun new hnew => (hx.met new hnew).mono fun i k => due_clearDirty hidx
      rw [← heq]
      obtain ⟨hrest, hlast⟩ := ih _ hbetween ((hstays.trans hclear).trans hpass)
      exact ⟨hrest, (hclear.trans hpass).trans hlast⟩
    · exact ⟨rfl, hclear⟩

private theorem stays_beginFrame (w : World) (id : ViewId) (key : String) (origin : Option NodeId) :
    w.Stays (w.beginFrame id key origin) :=
  (stays_modifyView w id _).trans (stays_emit _ (by simp))

private theorem stays_endFrame (x : World) (id : ViewId) (key : String) (ran : Nat) :
    x.Stays (x.endFrame id key ran) :=
  (stays_modifyView x id _).trans (stays_emit _ (by simp))

private theorem Agree.notifyFrom (h : Agree behaviour id room c d)
    (hw : Outside behaviour id room w) (key : String) (origin : Option NodeId) :
    w.notifyFrom c id key origin = w.notifyFrom d id key origin ∧
      w.Stays (w.notifyFrom c id key origin).1 := by
  by_cases hdisposed : w.isDisposed id = true
  · rw [World.notifyFrom, World.notifyFrom, if_pos hdisposed, if_pos hdisposed]
    exact ⟨rfl, .refl w⟩
  have hid : id < w.views.size := lt_size_of_isDisposed_eq_false (by simpa using hdisposed)
  by_cases hkey : key ∈ (w.view id).inFlight
  · have hflying : w.isInFlight id key = true := by
      rw [isInFlight_eq hid]
      simpa using hkey
    rw [World.notifyFrom, World.notifyFrom, if_neg hdisposed, if_neg hdisposed, if_pos hflying,
      if_pos hflying]
    exact ⟨rfl, (stays_modifyView w id _).trans (stays_emit _ (by simp))⟩
  rw [isDisposed_eq hid, Bool.not_eq_true] at hdisposed
  have hmid := midframe_beginFrame hw.sound hid hkey origin
  have hbegan := stays_beginFrame w id key origin
  have hnone : passesOf id key (w.beginFrame id key origin).trace = [] := by
    simp [World.beginFrame, World.emit, passesOf]
  obtain ⟨hfirst, hfirstStays⟩ := h.runPass_full hw hid hmid hbegan (by simp [hnone]) origin
  obtain ⟨hlast, hlastStays⟩ := h.repeatPasses hw hid hkey
    ((w.beginFrame id key origin).runPass c id key origin false).2
    (between_first h.left hw.sound hid hkey origin) (hbegan.trans hfirstStays)
  rw [notifyFrom_eq_endFrame hid hdisposed hkey, notifyFrom_eq_endFrame hid hdisposed hkey]
  dsimp only
  rw [← hfirst, ← hlast]
  exact ⟨rfl, ((hbegan.trans hfirstStays).trans hlastStays).trans (stays_endFrame _ id key _)⟩

/-! ## Steps -/

private theorem Outside.keep {after : World} (h : Outside behaviour id room w)
    (hsound : after.Sound) (hstays : w.Stays after)
    (hinFlight : (after.view id).inFlight = (w.view id).inFlight)
    (hregistry : (after.view id).registry = (w.view id).registry) :
    Outside behaviour id room after := by
  refine ⟨hsound, h.confined.congr hstays, ?_⟩
  rw [hinFlight, hregistry]
  exact h.room

private theorem Outside.keep_of_busy {after : World} (h : Outside behaviour id room w)
    (hbusy : (w.view id).inFlight ≠ []) (hkeeps : w.Keeps after) (hstays : w.Stays after) :
    Outside behaviour id room after ∧ (after.view id).inFlight ≠ [] := by
  obtain ⟨hsound, hevolves⟩ := hkeeps h.sound
  have hinFlight := hevolves.inFlight id
  refine ⟨h.keep hsound hstays hinFlight ((hevolves.steady id).registry ?_), by rwa [hinFlight]⟩
  rw [h.sound.ready.running]
  exact fun hlength => hbusy (List.length_eq_zero_iff.mp hlength)

private theorem Outside.modifyView (h : Outside behaviour id room w) (other : ViewId)
    {f : View → View} (hf : View.Change f) (hregistry : ∀ v, (f v).registry = v.registry) :
    Outside behaviour id room (w.modifyView other f) := by
  obtain ⟨hsound, hevolves⟩ := keeps_modifyView w other hf h.sound
  apply h.keep hsound (stays_modifyView w other f) (hevolves.inFlight id)
  exact view_modifyView_induction (motive := fun v v' => v'.registry = v.registry) w other
    (fun _ => rfl) hregistry id

private theorem Outside.writeValue (h : Outside behaviour id room w) (key : String)
    (value : Value) : Outside behaviour id room (w.writeValue id key value) :=
  h.modifyView id (.store (·.set key value)) fun _ => rfl

private theorem Outside.pinned {α : Type} (h : Outside behaviour id room w) (other : ViewId)
    {a b : World → World × α}
    (hsame : ∀ x, Outside behaviour id room x → a x = b x ∧ x.Stays (a x).1) :
    w.pinned other a = w.pinned other b ∧ w.Stays (w.pinned other a).1 := by
  have hpin := h.modifyView other (.pins (· + 1)) (fun _ => rfl)
  have hpinStays := stays_modifyView w other fun v => { v with pins := v.pins + 1 }
  obtain ⟨heq, hstays⟩ := hsame _ hpin
  unfold World.pinned
  rw [← heq]
  exact ⟨rfl, (hpinStays.trans hstays).trans (stays_modifyView _ other _)⟩

private theorem Agree.handleChange (h : Agree behaviour id room c d)
    (hw : Outside behaviour id room w) (node : NodeId) (key text : String) :
    w.handleChange c id node key text = w.handleChange d id node key text ∧
      w.Stays (w.handleChange c id node key text) := by
  unfold World.handleChange
  split
  · exact ⟨rfl, .refl w⟩
  split
  · exact ⟨rfl, .refl w⟩
  rename_i view _ _
  have hwritten := hw.writeValue key (.string ((w.doc.value? node).getD text))
  obtain ⟨heq, hstays⟩ := h.notifyFrom hwritten key (if view.settings.echo then none else some node)
  exact ⟨congrArg Prod.fst heq, (stays_modifyView w id _).trans hstays⟩

private theorem Agree.fire (h : Agree behaviour id room c d) (hw : Outside behaviour id room w)
    (node : NodeId) (text key : String) :
    fire c node text w (.model id key) = fire d node text w (.model id key) ∧
      w.Stays (fire c node text w (.model id key)) := by
  unfold World.fire
  dsimp only
  split
  · obtain ⟨heq, hstays⟩ := hw.pinned id (a := fun w => (w.handleChange c id node key text, ()))
      (b := fun w => (w.handleChange d id node key text, ())) fun x hx => by
        obtain ⟨heq, hstays⟩ := h.handleChange hx node key text
        exact ⟨by rw [heq], hstays⟩
    exact ⟨congrArg Prod.fst heq, hstays⟩
  · exact ⟨rfl, .refl w⟩

private theorem Outside.onView (h : Outside behaviour id room w) {handle : Nat}
    (hhandle : ∀ entry, w.handles[handle]? = some entry → entry.view = id)
    {a b : ViewId → View → World → World × Outcome}
    (hsame : ∀ view x, Outside behaviour id room x →
      a id view x = b id view x ∧ x.Stays (a id view x).1) :
    w.onView handle a = w.onView handle b ∧ w.Stays (w.onView handle a).1 := by
  unfold World.onView
  split
  · exact ⟨rfl, .refl w⟩
  rename_i other hreach
  have hother : other = id := by
    obtain ⟨entry, hentry, halive⟩ := Option.bind_eq_some_iff.mp hreach
    split at halive
    · rw [← Option.some.inj halive]
      exact hhandle entry hentry
    · cases halive
  subst hother
  split
  · exact ⟨rfl, .refl w⟩
  · exact h.pinned other (hsame _)

private theorem stays_onView (w : World) (handle : Nat)
    {action : ViewId → View → World → World × Outcome}
    (h : ∀ other view (x : World), x.Stays (action other view x).1) :
    w.Stays (w.onView handle action).1 := by
  unfold World.onView
  split
  · exact .refl w
  split
  · exact .refl w
  · exact ((stays_modifyView w _ _).trans (h _ _ _)).trans (stays_modifyView _ _ _)

private theorem stays_newCallback (w : World) (script : ScriptId) : w.Stays
    (w.newCallback script).1 :=
  ⟨rfl, rfl, [], rfl, by simp⟩

private theorem Agree.exec_of_handle (h : Agree behaviour id room c d)
    (hw : Outside behaviour id room w) (told : Option Value) {step : Step}
    (hstep : step.ConfinedTo id w) (hdispatch : ∀ node text, step ≠ .dispatch node text) :
    w.exec c told step = w.exec d told step ∧ w.Stays (w.exec c told step).1 := by
  cases step with
  | get | data => exact ⟨rfl, stays_onView w _ fun _ _ x => .refl x⟩
  | write handle key operand =>
    exact ⟨rfl, stays_onView w handle fun other _ x => stays_modifyView x other _⟩
  | set handle key operand =>
    simp only [World.exec]
    apply hw.onView hstep
    intro view x hx
    have hwritten := hx.writeValue (Text.trim key) (operand.eval told)
    obtain ⟨heq, hstays⟩ := h.notifyFrom hwritten (Text.trim key) none
    rw [← heq]
    exact ⟨rfl, (stays_modifyView x id _).trans hstays⟩
  | notify handle key =>
    simp only [World.exec]
    apply hw.onView hstep
    intro view x hx
    obtain ⟨heq, hstays⟩ := h.notifyFrom hx (Text.trim key) none
    rw [← heq]
    exact ⟨rfl, hstays⟩
  | watch handle key script =>
    refine ⟨rfl, stays_onView w handle fun other view x => ?_⟩
    dsimp only
    split
    · exact .refl x
    · have hregistered := stays_modifyView (x.newCallback script).1 other
        (·.register (.watch (Text.trim key) (x.newCallback script).2))
      exact ((stays_newCallback x script).trans hregistered).trans (stays_emit _ (by simp))
  | dispose handle =>
    exact ⟨rfl, stays_onView w handle fun other _ x => stays_modifyView x other _⟩
  | dispatch node text => exact absurd rfl (hdispatch node text)
  | _ => exact hstep.elim

private theorem Agree.foldl_fire (h : Agree behaviour id room c d) (node : NodeId) (text : String)
    {listeners : List Listener} (hown : ∀ listener ∈ listeners, ∃ key, listener = .model id key)
    (hw : Outside behaviour id room w) (hbusy : (w.view id).inFlight ≠ []) :
    listeners.foldl (World.fire c node text) w = listeners.foldl (World.fire d node text) w ∧
      w.Stays (listeners.foldl (World.fire c node text) w) := by
  induction listeners generalizing w with
  | nil => exact ⟨rfl, .refl w⟩
  | cons listener rest ih =>
    obtain ⟨⟨key, rfl⟩, hrest⟩ := List.forall_mem_cons.mp hown
    obtain ⟨heq, hstays⟩ := h.fire hw node text key
    obtain ⟨hnext, hbusy'⟩ := hw.keep_of_busy hbusy
      ((turns_fire w node text (.model id key)).moves.keeps h.left) hstays
    obtain ⟨hlater, hstays'⟩ := ih hrest hnext hbusy'
    rw [List.foldl_cons, List.foldl_cons, ← heq]
    exact ⟨hlater, hstays.trans hstays'⟩

private theorem stays_withDoc (w : World) (doc : Document) : w.Stays (w.withDoc doc) :=
  ⟨rfl, rfl, [], rfl, by simp⟩

private theorem Outside.withDoc (h : Outside behaviour id room w) (doc : Document) :
    Outside behaviour id room (w.withDoc doc) :=
  have hkeeps : w.Keeps (w.withDoc doc) := keeps_host rfl rfl
  h.keep (hkeeps h.sound).1 (stays_withDoc w doc) rfl rfl

theorem dispatch_eq (c : Caller) (w : World) (node : NodeId) (text : String) :
    w.dispatch c node text =
      if w.doc.supportsValue node then
        ((w.listenersOf node).foldl (World.fire c node text)
          (w.withDoc (w.doc.setValue node text)), (w.listenersOf node).length)
      else (w, 0) := rfl

private theorem Agree.exec (h : Agree behaviour id room c d) (hw : Outside behaviour id room w)
    (hbusy : (w.view id).inFlight ≠ []) (told : Option Value) {step : Step}
    (hstep : step.ConfinedTo id w) :
    w.exec c told step = w.exec d told step ∧ w.Stays (w.exec c told step).1 := by
  by_cases hdispatch : ∃ node text, step = .dispatch node text
  · obtain ⟨node, text, rfl⟩ := hdispatch
    simp only [World.exec, dispatch_eq]
    split
    · obtain ⟨heq, hstays⟩ := h.foldl_fire node text hstep (hw.withDoc (w.doc.setValue node text))
        hbusy
      rw [← heq]
      exact ⟨rfl, (stays_withDoc w _).trans hstays⟩
    · exact ⟨rfl, .refl w⟩
  · exact h.exec_of_handle hw told hstep fun node text he => hdispatch ⟨node, text, he⟩

private theorem Agree.foldl_execScripted (h : Agree behaviour id room c d) (callback : Callback)
    (told : Option Value) {steps : List Step} (hw : Outside behaviour id room w)
    (hbusy : (w.view id).inFlight ≠ []) (hsteps : ∀ step ∈ steps, step.ConfinedTo id w) :
    steps.foldl (execScripted c callback told) w = steps.foldl (execScripted d callback told) w ∧
      w.Stays (steps.foldl (execScripted c callback told) w) := by
  induction steps generalizing w with
  | nil =>
    rw [List.foldl_nil, List.foldl_nil]
    exact ⟨rfl, .refl w⟩
  | cons step rest ih =>
    have hstep : step.ConfinedTo id w := hsteps step List.mem_cons_self
    have hrest : ∀ later ∈ rest, later.ConfinedTo id w :=
      fun later hlater => hsteps later (List.mem_cons_of_mem step hlater)
    obtain ⟨heq, hstays⟩ := h.exec hw hbusy told hstep
    have hone : execScripted c callback told w step = execScripted d callback told w step := by
      unfold execScripted
      rw [heq]
    have hdid : w.Stays (execScripted c callback told w step) := by
      have hevent : (w.exec c told step).1.Stays
          ((w.exec c told step).1.emit (.did callback step (w.exec c told step).2)) :=
        stays_emit _ (by simp)
      exact hstays.trans hevent
    obtain ⟨hnext, hbusy'⟩ := hw.keep_of_busy hbusy (keeps_execScripted h.left callback told w step)
      hdid
    obtain ⟨hlater, hstays'⟩ := ih hnext hbusy' fun step hmem => confinedTo_congr hdid (hrest step hmem)
    rw [List.foldl_cons, List.foldl_cons, ← hone]
    exact ⟨hlater, hdid.trans hstays'⟩

/-- With room for fewer than so many notifications of watched keys, any limit of nesting from that
on will do. Each call takes up a part of the room, since it is made in a notification of its own. -/
theorem agree_call (behaviour : Behaviour) (id : ViewId) (room : Nat) {m n : Nat} (hm : room ≤ m)
    (hn : room ≤ n) : Agree behaviour id room (call behaviour m) (call behaviour n) := by
  induction room generalizing m n with
  | zero =>
    refine ⟨attends_call behaviour m, attends_call behaviour n, ?_⟩
    intro callback notice w hw
    have hle := length_inFlight_le (hw.sound.booked.queues id).inFlight (hw.sound.ready.watched id)
    have hroom := hw.room
    omega
  | succ room ih =>
    refine ⟨attends_call behaviour m, attends_call behaviour n, ?_⟩
    intro callback notice w hw
    cases m with
    | zero => omega
    | succ m =>
      cases n with
      | zero => omega
      | succ n =>
        have hagree := ih (Nat.le_of_succ_le_succ hm) (Nat.le_of_succ_le_succ hn)
        have hcalled : w.Stays ((w.emit (.called callback notice)).countCall callback) :=
          (stays_emit w (by simp)).trans ⟨rfl, rfl, [], rfl, by simp⟩
        have hkeeps : w.Keeps ((w.emit (.called callback notice)).countCall callback) :=
          (keeps_emit w rfl (by simp)).trans (keeps_host rfl rfl)
        have hinside := hw.keep hkeeps hcalled
        have houtside : Outside behaviour id room
            ((w.emit (.called callback notice)).countCall callback) :=
          ⟨hinside.sound, hinside.confined, by have := hinside.room; omega⟩
        obtain ⟨heq, hstays⟩ := hagree.foldl_execScripted callback notice.told houtside
          hinside.busy (hinside.confined callback.script (w.callCount callback) notice.told)
        exact ⟨heq, hcalled.trans hstays⟩

/-! ## Steps at top level -/

private theorem outside_of_sound (hsound : w.Sound) (hconfined : w.Confined behaviour id) :
    Outside behaviour id (w.view id).registry.size w :=
  ⟨hsound, hconfined, Nat.le_add_right _ _⟩

private theorem foldl_fire_returns (node : NodeId) (text : String) {listeners : List Listener}
    (hown : ∀ listener ∈ listeners, ∃ key, listener = .model id key) (hsound : w.Sound)
    (hconfined : w.Confined behaviour id) :
    ∃ enough after, w.Stays after ∧ ∀ depth, enough ≤ depth →
      listeners.foldl (World.fire (call behaviour depth) node text) w = after := by
  induction listeners generalizing w with
  | nil => exact ⟨0, w, .refl w, fun _ _ => rfl⟩
  | cons listener rest ih =>
    obtain ⟨key, rfl⟩ := hown _ List.mem_cons_self
    have hfire := fun depth (hdepth : (w.view id).registry.size ≤ depth) =>
      (agree_call behaviour id _ (Nat.le_refl _) hdepth).fire (outside_of_sound hsound hconfined)
        node text key
    obtain ⟨-, hstays⟩ := hfire _ (Nat.le_refl _)
    have hnext := ((turns_fire w node text (.model id key)).moves.keeps
      (attends_call behaviour (w.view id).registry.size) hsound).1
    obtain ⟨enough, after, hlater, hafter⟩ := ih
      (fun other hother => hown other (List.mem_cons_of_mem _ hother)) hnext
      (hconfined.congr hstays)
    refine ⟨max (w.view id).registry.size enough, after, hstays.trans hlater, ?_⟩
    intro depth hdepth
    rw [List.foldl_cons, ← (hfire depth ((Nat.le_max_left _ _).trans hdepth)).1]
    exact hafter depth ((Nat.le_max_right _ _).trans hdepth)

private theorem run_returns (hsound : w.Sound) (hconfined : w.Confined behaviour id) {step : Step}
    (hstep : step.ConfinedTo id w) :
    ∃ enough after outcome, w.Stays after ∧ ∀ depth, enough ≤ depth →
      run behaviour depth w step = (after, outcome) := by
  by_cases hdispatch : ∃ node text, step = .dispatch node text
  · obtain ⟨node, text, rfl⟩ := hdispatch
    have hwritten : w.Keeps (w.withDoc (w.doc.setValue node text)) := keeps_host rfl rfl
    have hstays := stays_withDoc w (w.doc.setValue node text)
    obtain ⟨enough, after, hlater, hafter⟩ := foldl_fire_returns node text hstep
      (hwritten hsound).1 (hconfined.congr hstays)
    by_cases hvalue : w.doc.supportsValue node = true
    · refine ⟨enough, after, .count (w.listenersOf node).length, hstays.trans hlater, ?_⟩
      intro depth hdepth
      simp only [run, World.exec, dispatch_eq, if_pos hvalue]
      rw [hafter depth hdepth]
    · refine ⟨0, w, .count 0, .refl w, fun depth _ => ?_⟩
      simp only [run, World.exec, dispatch_eq, if_neg hvalue]
  · have hexec := fun depth (hdepth : (w.view id).registry.size ≤ depth) =>
      (agree_call behaviour id _ (Nat.le_refl _) hdepth).exec_of_handle
        (outside_of_sound hsound hconfined) none hstep fun node text he => hdispatch ⟨node, text, he⟩
    obtain ⟨-, hstays⟩ := hexec _ (Nat.le_refl _)
    exact ⟨_, _, _, hstays, fun depth hdepth => (hexec depth hdepth).1.symm⟩

/-- Whatever confined callbacks write back, a step comes to its end: from some limit of nesting on,
its result is the same and no callback comes to the limit. Never are more notifications in progress
than there are watched keys and one, each makes up to `maxPasses` passes with watchers and perhaps
one without after them, and none calls a callback any more once it makes that one. -/
theorem confined_run_returns (hrest : w.AtRest) (hconfined : w.Confined behaviour id) {step : Step}
    (hstep : step.ConfinedTo id w) :
    ∃ enough after outcome,
      (∀ depth, enough ≤ depth →
        run behaviour depth { w with trace := [] } step = (after, outcome)) ∧
      ∀ later m past, after.trace = later ++ m :: past →
        (∀ callback, m.event ≠ .exhausted callback) ∧
        (∀ view : View, m.views[id]? = some view →
          (openFrames id (m :: past)).length ≤ view.registry.size + 1) ∧
        (∀ key ran, m.event = .frameEnded id key ran → FrameShape (passesOf id key past)) ∧
        ∀ callback notice, m.event = .called callback notice →
          ∀ key ∈ openFrames id past, true ∉ passesOf id key past := by
  obtain ⟨enough, after, outcome, hstays, hrun⟩ :=
    run_returns (w := { w with trace := [] }) hrest.sound hconfined hstep
  refine ⟨enough, after, outcome, hrun, ?_⟩
  obtain ⟨hsound, -⟩ := keeps_run behaviour enough { w with trace := [] } step hrest.sound
  rw [hrun enough (Nat.le_refl _)] at hsound
  intro later m past htrace
  have hlawful := hsound.booked.lawful later m past htrace
  refine ⟨?_, ?_, hlawful.shape id, ?_⟩
  · obtain ⟨new, hnew, hcalm⟩ := hstays.trace
    apply hcalm m
    have hall : new = later ++ m :: past := by
      rw [← htrace, hnew]
      exact (List.append_nil new).symm
    rw [hall]
    simp
  · intro view hview
    rw [← hlawful.stack id view hview]
    exact hlawful.nesting id view hview
  · exact fun callback notice hcalled => hlawful.silent callback notice hcalled id

/-- Callbacks that set their own key on every call. -/
def selfFeeding : Behaviour := fun _ _ _ => [.set 0 "count" .increment]

/-- A view model with such a callback on its key. -/
def selfFed : World :=
  (ofDocument .empty).runAll selfFeeding 0
    [.mount { target := .node Document.root } {}, .watch 0 "count" 0]

theorem selfFed_returns :
    selfFed.AtRest ∧ selfFed.Confined selfFeeding 0 ∧
      ∃ enough after outcome,
        (∀ depth, enough ≤ depth →
          run selfFeeding depth { selfFed with trace := [] } (.notify 0 "count") =
            (after, outcome)) ∧
        ∀ later m past, after.trace = later ++ m :: past →
          ∀ callback, m.event ≠ .exhausted callback := by
  have hrest : selfFed.AtRest := atRest_runAll _ _ _ _
  have hhandles : selfFed.handles = #[{ view := 0 }] := by decide +kernel
  have hhandle : ∀ entry, selfFed.handles[0]? = some entry → entry.view = 0 := by
    intro entry hentry
    rw [hhandles] at hentry
    rw [← Option.some.inj hentry]
    rfl
  have hconfined : selfFed.Confined selfFeeding 0 := by
    intro script calls told step hstep
    rw [List.mem_singleton.mp hstep]
    exact hhandle
  have hstep : (Step.notify 0 "count").ConfinedTo 0 selfFed := hhandle
  obtain ⟨enough, after, outcome, hrun, hlaws⟩ := confined_run_returns hrest hconfined hstep
  exact ⟨hrest, hconfined, enough, after, outcome, hrun,
    fun later m past htrace => (hlaws later m past htrace).1⟩

end World
end ViewBinding
