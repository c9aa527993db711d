import Mathlib
import ViewBinding.Proofs.View.Lifetime
import ViewBinding.Proofs.View.Records

/-!
# After a view model is disposed of

Once a view model is disposed of, however deep in its notifications, no binding of it is added or
applied any more, nothing is notified, and its registry is empty as soon as no notification is in
progress (`World.runAll_silent`). The same comes of dropping the last handle to it.
-/

namespace ViewBinding

open Trace

/-- Among these view models one is disposed of. -/
def DisposedIn (views : Array View) (id : ViewId) : Prop :=
  ∃ view, views[id]? = some view ∧ view.disposed = true

/-- What only a view model does that is not disposed of: a binding is added or applied, or a
notification or a pass begins. -/
def Event.Stirs (id : ViewId) : Event → Prop
  | .frameBegan view _ _ | .passBegan view _ _ | .applied view _ _ | .mounted view _
  | .registered view _ => view = id
  | _ => False

private theorem Event.Stirs.subject? {id : ViewId} {e : Event} (h : e.Stirs id) :
    e.subject? = some id := by
  cases e
  all_goals first
    | exact congrArg some h
    | exact h.elim

/-- A watcher that is called is not called by the view model: it has just been applied by another,
or by a step to which it belongs. -/
def Moment.CallsElsewhere (id : ViewId) (m : Moment) (past : List Moment) : Prop :=
  ∀ callback value, m.event = .called callback (.watched value) →
    ∃ cause ∈ past.head?, ∃ key, cause.event = .tried (.watch key callback) value ∨
      ∃ other, other ≠ id ∧ cause.event = .applied other (.watch key callback) value

private theorem Moment.Fair.callsElsewhere {id : ViewId} {m : Moment} {past : List Moment}
    (h : m.Fair past) (hpast : ∀ cause ∈ past.head?, ∀ b value, cause.event ≠ .applied id b value) :
    m.CallsElsewhere id past := by
  intro callback value he
  have hevent := h.event
  rw [he] at hevent
  obtain ⟨cause, hcause, key, htried | ⟨other, happlied⟩⟩ := hevent
  · exact ⟨cause, hcause, key, Or.inl htried⟩
  · refine ⟨cause, hcause, key, Or.inr ⟨other, ?_, happlied⟩⟩
    rintro rfl
    exact hpast cause hcause _ value happlied

private theorem Trace.FairTrace.callsElsewhere {id : ViewId} {m : Moment}
    {trace after before rest : List Moment} (h : FairTrace trace)
    (htrace : trace = after ++ m :: (before ++ rest))
    (hbefore : ∀ m' ∈ before, ¬m'.event.Stirs id)
    (hrest : ∀ cause ∈ rest.head?, ∀ b value, cause.event ≠ .applied id b value) :
    m.CallsElsewhere id (before ++ rest) := by
  refine (h after m _ htrace).callsElsewhere fun cause hcause b value happlied => ?_
  cases before with
  | nil => exact hrest cause hcause b value happlied
  | cons first before =>
    obtain rfl := Option.some.inj hcause
    refine hbefore first List.mem_cons_self ?_
    rw [happlied]
    rfl

/-- If the view model is disposed of at a moment, then it stays so and does nothing later. -/
def Moment.Hushes (id : ViewId) (later m : Moment) : Prop :=
  DisposedIn m.views id → DisposedIn later.views id ∧ ¬later.event.Stirs id

namespace World

/-- What happens from one world to another, in which a view model is silent once it is disposed
of. -/
structure Silences (id : ViewId) (w after : World) : Prop where
  stays : DisposedIn w.views id → DisposedIn after.views id
  trace : ∃ new, after.trace = new ++ w.trace ∧ new.Pairwise (Moment.Hushes id) ∧
    (∀ m ∈ new, DisposedIn m.views id → DisposedIn after.views id) ∧
    (DisposedIn w.views id → ∀ m ∈ new, DisposedIn m.views id ∧ ¬m.event.Stirs id)

variable {call : Caller} {w after : World} {frames frames' : List Frame} {id : ViewId}
  {handle : Nat}

theorem Silences.refl (id : ViewId) (w : World) : Silences id w w :=
  ⟨fun h => h, [], rfl, .nil, by simp, by simp⟩

theorem Silences.trans {a b c : World} (hab : Silences id a b) (hbc : Silences id b c) :
    Silences id a c := by
  obtain ⟨new, hnew, hpairs, hshown, hquiet⟩ := hab.trace
  obtain ⟨newer, hnewer, hpairs', hshown', hquiet'⟩ := hbc.trace
  refine ⟨fun h => hbc.stays (hab.stays h), newer ++ new,
    by rw [hnewer, hnew, List.append_assoc], ?_, fun m hm => ?_, fun h m hm => ?_⟩
  · exact List.pairwise_append.mpr ⟨hpairs', hpairs,
      fun later hlater m hm hdisposed => hquiet' (hshown m hm hdisposed) later hlater⟩
  · rcases List.mem_append.mp hm with hm | hm
    · exact hshown' m hm
    · exact fun h => hbc.stays (hshown m hm h)
  · rcases List.mem_append.mp hm with hm | hm
    · exact hquiet' (hab.stays h) m hm
    · exact hquiet h m hm

private theorem silences_views (htrace : after.trace = w.trace)
    (hstays : DisposedIn w.views id → DisposedIn after.views id) : Silences id w after :=
  ⟨hstays, [], htrace, .nil, by simp, by simp⟩

private theorem silences_event {e : Event} (htrace : after.trace = ⟨e, after.views⟩ :: w.trace)
    (hstays : DisposedIn w.views id → DisposedIn after.views id)
    (he : DisposedIn w.views id → ¬e.Stirs id) : Silences id w after :=
  ⟨hstays, [⟨e, after.views⟩], htrace, List.pairwise_singleton _ _, by simp,
    fun h => by simpa using ⟨hstays h, he h⟩⟩

private theorem silences_emit (w : World) {e : Event} (he : DisposedIn w.views id → ¬e.Stirs id) :
    Silences id w (w.emit e) :=
  silences_event rfl (fun h => h) he

private theorem silences_plain (w : World) {e : Event} (he : e.Plain) : Silences id w
    (w.emit e) := by
  refine silences_emit w fun _ hstirs => ?_
  have hsubject := hstirs.subject?
  rw [he.subject?] at hsubject
  cases hsubject

private theorem silences_modifyView (w : World) (other : ViewId) {f : View → View}
    (hf : ∀ v, v.disposed = true → (f v).disposed = true) :
    Silences id w (w.modifyView other f) := by
  refine silences_views rfl ?_
  rintro ⟨view, hview, hdisposed⟩
  by_cases hother : other = id
  · exact ⟨f view, by simp [modifyView, Array.getElem?_modify, hother, hview], hf view hdisposed⟩
  · exact ⟨view, by simp [modifyView, Array.getElem?_modify, hother, hview], hdisposed⟩

private theorem ne_of_isDisposed {other : ViewId} (halive : w.isDisposed other = false)
    (h : DisposedIn w.views id) : other ≠ id := by
  rintro rfl
  obtain ⟨view, hview, hdisposed⟩ := h
  rw [isDisposed, hview] at halive
  exact absurd (halive.symm.trans hdisposed) (by decide)

private theorem silences_modifyView_emit (w : World) (other : ViewId) {f : View → View} {e : Event}
    (hf : ∀ v, v.disposed = true → (f v).disposed = true)
    (he : DisposedIn w.views id → ¬e.Stirs id) :
    Silences id w ((w.modifyView other f).emit e) :=
  silences_event rfl (silences_modifyView w other hf).stays he

private theorem Act.silences (h : Act (w, frames) (after, frames')) : Silences id w after := by
  cases h with
  | host _ hviews htrace => exact silences_views htrace (by rw [hviews]; exact fun h => h)
  | emit _ _ he _ => exact silences_plain w he
  | @tried _ _ _ b value _ _ heffect hviews htrace =>
    have htried : Silences id w (w.emit (.tried b value)) := silences_plain w trivial
    exact (htried.trans (silences_plain _ heffect.plain)).trans
      (silences_views htrace (by rw [hviews]; exact fun h => h))
  | view _ other _ hf =>
    refine silences_modifyView w other fun v hv => ?_
    cases hf with
    | pins | store => exact hv
    | dispose => rfl
  | registered _ other b _ halive =>
    refine silences_modifyView_emit w other (fun v hv => ?_) (ne_of_isDisposed halive)
    obtain ⟨_, _, h⟩ := v.register_eq b
    rw [h, hv]
  | mounted _ root settings store bindings _ =>
    refine silences_event rfl ?_ ?_
    · rintro ⟨view, hview, hdisposed⟩
      have hlt : id < w.views.size := (Array.getElem?_eq_some_iff.mp hview).1
      refine ⟨view, ?_, hdisposed⟩
      change (w.views.push _)[id]? = some view
      rw [Array.getElem?_push, if_neg (Nat.ne_of_lt hlt), hview]
    · rintro ⟨view, hview, -⟩ hid
      have hlt : id < w.views.size := (Array.getElem?_eq_some_iff.mp hview).1
      exact absurd hid (Ne.symm (Nat.ne_of_lt hlt))
  | fold _ other key _ _ =>
    refine silences_modifyView_emit w other (fun v hv => ?_) fun _ h => h
    obtain ⟨_, h⟩ := v.markDirty_eq key
    rw [h, hv]
  | beginFrame _ other key origin _ halive _ _ =>
    exact silences_modifyView_emit w other (fun _ hv => hv) (ne_of_isDisposed halive)
  | beginPass _ _ other key origin viewOnly halive =>
    exact silences_modifyView_emit w other (fun _ hv => hv) (ne_of_isDisposed halive)
  | skip _ => exact .refl id w
  | @apply _ _ _ other key origin viewOnly b rest view e homits hview heffect hviews htrace =>
    have halive : w.isDisposed other = false := by
      rw [omits, Bool.or_assoc, Bool.or_eq_false_iff] at homits
      exact homits.1
    have happlied : Silences id w (w.emit (.applied other b (view.store.get? key))) :=
      silences_emit w (ne_of_isDisposed halive)
    exact (happlied.trans (silences_plain _ heffect.plain)).trans
      (silences_views htrace (by rw [hviews]; exact fun h => h))
  | endPass _ _ other key origin viewOnly =>
    exact silences_modifyView_emit w other (fun _ hv => hv) fun _ h => h
  | clear _ _ other key => exact silences_modifyView w other fun _ hv => hv
  | endFrame _ _ other key ran =>
    refine silences_modifyView_emit w other (fun v hv => ?_) fun _ h => h
    obtain ⟨_, _, h⟩ := View.settle_eq { v with inFlight := v.inFlight.tail }
    rw [h, hv]

private theorem Acts.silences {s s' : World × List Frame} (h : Acts s s') :
    Silences id s.1 s'.1 := by
  induction h with
  | refl => exact .refl id s.1
  | tail _ hact ih => exact ih.trans hact.silences

private theorem silences_runAll (behaviour : Behaviour) (depth : Nat) (steps : List Step)
    (w : World) : Silences id w (w.runAll behaviour depth steps) :=
  (acts_runAll behaviour depth w steps).silences

/-! ## Calls on a view model that is disposed of -/

private theorem modifyView_modifyView (w : World) (id : ViewId) (f g : View → View) :
    (w.modifyView id f).modifyView id g = w.modifyView id fun v => g (f v) := by
  have hviews : (w.views.modify id f).modify id g = w.views.modify id fun v => g (f v) := by
    apply Array.ext_getElem?
    intro i
    simp only [Array.getElem?_modify]
    split
    · rw [Option.map_map]
      rfl
    · rfl
  simp only [modifyView, hviews]

private theorem modifyView_eq_self (w : World) (id : ViewId) {f : View → View} (hf : ∀ v, f v = v) :
    w.modifyView id f = w := by
  have hviews : w.views.modify id f = w.views := by
    apply Array.ext_getElem?
    intro i
    simp only [Array.getElem?_modify]
    split
    · rw [show f = fun v => v from funext hf, Option.map_id']
    · rfl
  simp only [modifyView, hviews]

private theorem pinned_eq_self {α : Type} (w : World) (id : ViewId) {action : World → World × α}
    {a : α} (h : action (w.modifyView id fun v => { v with pins := v.pins + 1 }) =
      (w.modifyView id fun v => { v with pins := v.pins + 1 }, a)) :
    w.pinned id action = (w, a) := by
  rw [pinned, h]
  dsimp only
  rw [modifyView_modifyView, modifyView_eq_self w id fun v => by simp]

private theorem pinned_eq_writeValue {α : Type} (w : World) (id : ViewId)
    {action : World → World × α} {key : String} {value : Value} {a : α}
    (h : action (w.modifyView id fun v => { v with pins := v.pins + 1 }) =
      ((w.modifyView id fun v => { v with pins := v.pins + 1 }).writeValue id key value, a)) :
    w.pinned id action = (w.writeValue id key value, a) := by
  rw [pinned, h]
  dsimp only [writeValue]
  rw [modifyView_modifyView, modifyView_modifyView]
  simp

theorem onView_eq {handle : Nat} {view : View} (hreach : w.reach? handle = some id)
    (hview : w.views[id]? = some view) (action : ViewId → View → World → World × Outcome) :
    w.onView handle action = w.pinned id (action id view) := by
  simp only [onView, hreach, hview]

/-- What comes of calls on a view model that is disposed of, and of the passes that are in progress
on it. -/
structure Inert (w : World) (id : ViewId) (view : View) : Prop where
  /-- The rest of a pass applies nothing. -/
  passes : ∀ call key origin viewOnly (bindings : List Binding),
    bindings.foldl (visitBinding call id key origin viewOnly) w = w
  /-- No other pass follows. -/
  repeats : ∀ call key remaining ran, w.repeatPasses call id key remaining ran =
    (w.modifyView id (·.clearDirty key), ran)
  /-- A change of an input to which the view model listens does nothing to it or the document. -/
  change : ∀ call node text key, fire call node text w (.model id key) = w
  notify : ∀ call told handle key, w.reach? handle = some id →
    w.exec call told (.notify handle key) = (w, .count 0)
  set : ∀ call told handle key operand, w.reach? handle = some id →
    w.exec call told (.set handle key operand) =
      (w.writeValue id (Text.trim key) (operand.eval told), .count 0)
  write : ∀ call told handle key operand, w.reach? handle = some id →
    w.exec call told (.write handle key operand) =
      (w.writeValue id (Text.trim key) (operand.eval told),
        .value (view.store.get? (Text.trim key)))
  watch : ∀ call told handle key script, w.reach? handle = some id →
    w.exec call told (.watch handle key script) = (w, .done)

private theorem visitBinding_of_disposed (h : DisposedIn w.views id) (key : String)
    (origin : Option NodeId) (viewOnly : Bool) (b : Binding) :
    visitBinding call id key origin viewOnly w b = w := by
  obtain ⟨view, hview, hdisposed⟩ := h
  simp [visitBinding, hview, hdisposed]

theorem notifyFrom_of_disposed (h : DisposedIn w.views id) (key : String)
    (origin : Option NodeId) : w.notifyFrom call id key origin = (w, 0) := by
  obtain ⟨view, hview, hdisposed⟩ := h
  simp [notifyFrom, isDisposed, hview, hdisposed]

private theorem disposedIn_modifyView (h : DisposedIn w.views id) {f : View → View}
    (hf : ∀ v, v.disposed = true → (f v).disposed = true) :
    DisposedIn (w.modifyView id f).views id :=
  (silences_modifyView w id hf).stays h

private theorem disposedIn_writeValue (h : DisposedIn w.views id) (key : String) (value : Value) :
    DisposedIn (w.writeValue id key value).views id :=
  disposedIn_modifyView h fun _ hv => hv

private theorem inert_of_disposed {view : View} (hview : w.views[id]? = some view)
    (hdisposed : view.disposed = true) : w.Inert id view := by
  have h : DisposedIn w.views id := ⟨view, hview, hdisposed⟩
  have hpinned : DisposedIn (w.modifyView id fun v => { v with pins := v.pins + 1 }).views id :=
    disposedIn_modifyView h fun _ hv => hv
  refine ⟨fun call key origin viewOnly bindings => ?_, fun call key remaining ran => ?_,
    fun call node text key => ?_,
    fun call told handle key hreach => ?_, fun call told handle key operand hreach => ?_,
    fun call told handle key operand hreach => ?_, fun call told handle key script hreach => ?_⟩
  · induction bindings with
    | nil => rfl
    | cons b rest ih => rw [List.foldl_cons, visitBinding_of_disposed h, ih]
  · obtain ⟨v, hv, hd⟩ := disposedIn_modifyView (f := (·.clearDirty key)) h fun _ hv => hv
    have hcleared : (w.modifyView id (·.clearDirty key)).isDisposed id = true := by
      simp [isDisposed, hv, hd]
    cases remaining <;> simp [repeatPasses, hcleared]
  · unfold fire
    dsimp only
    split
    · rw [pinned_eq_self (a := ())]
      obtain ⟨v, hv, hd⟩ := hpinned
      simp [handleChange, hv, hd]
    · rfl
  · simp only [exec, onView_eq hreach hview]
    exact pinned_eq_self w id (by rw [notifyFrom_of_disposed hpinned])
  · simp only [exec, onView_eq hreach hview]
    refine pinned_eq_writeValue w id ?_
    rw [notifyFrom_of_disposed (disposedIn_writeValue hpinned _ _)]
  · simp only [exec, onView_eq hreach hview]
    exact pinned_eq_writeValue w id rfl
  · simp only [exec, onView_eq hreach hview]
    exact pinned_eq_self w id (if_pos hdisposed)

private theorem disposedIn_dispose (told : Option Value) (hreach : w.reach? handle = some id)
    (hid : id < w.views.size) : DisposedIn (w.exec call told (.dispose handle)).1.views id := by
  have hdisposed : DisposedIn ((w.modifyView id fun v =>
      { v with pins := v.pins + 1 }).modifyView id View.dispose).views id := by
    rw [modifyView_modifyView]
    refine ⟨View.dispose { w.view id with pins := (w.view id).pins + 1 }, ?_, rfl⟩
    simp [modifyView, Array.getElem?_modify, getElem?_views hid]
  simp only [exec, onView_eq hreach (getElem?_views hid), pinned]
  exact disposedIn_modifyView hdisposed fun _ hv => hv

private theorem counts_of_empty {view : View} (hview : w.views[id]? = some view)
    (hempty : view.registry = .empty) (told : Option Value)
    (hreach : w.reach? handle = some id) (key : String) :
    w.exec call told (.bindingCount handle key) = (w, .count 0) ∧
      w.exec call told (.watchedKeys handle) = (w, .count 0) := by
  simp only [exec, onView_eq hreach hview, hempty]
  exact ⟨pinned_eq_self w id rfl, pinned_eq_self w id rfl⟩

/-! ## Runs -/

private theorem runAll_append (behaviour : Behaviour) (depth : Nat) (w : World) (a b : List Step) :
    w.runAll behaviour depth (a ++ b) = (w.runAll behaviour depth a).runAll behaviour depth b := by
  simp [runAll]

private theorem dropped_of_drop (doc : Document) (behaviour : Behaviour) (depth : Nat)
    (steps : List Step) {after : World}
    (hafter : (((ofDocument doc).runAll behaviour depth steps).run behaviour depth
      (.drop handle)).1 = after)
    (hid : id < ((ofDocument doc).runAll behaviour depth steps).views.size)
    (hlast : ∀ h ∈ after.handles, h.view = id → h.held = false) : after.Dropped id := by
  subst hafter
  refine ⟨hid, isAlive_eq_false_iff.mpr ⟨hlast, fun view hview => ?_⟩⟩
  have hbefore : ((ofDocument doc).runAll behaviour depth steps).views[id]? = some view := hview
  rw [← view_of_getElem? hbefore]
  exact pins_runAll doc behaviour depth steps id

private theorem Dropped.fire (h : w.Dropped id) (node : NodeId) (text key : String) :
    World.fire call node text w (.model id key) = w := by
  simp [World.fire, h.dead]

/-- From each moment on at which a view model is disposed of, it stays so, does nothing and calls no
watcher; its registry is empty when no notification of it is in progress. -/
def HushedTrace (id : ViewId) (trace : List Moment) : Prop :=
  ∀ later m past, trace = later ++ m :: past → ∀ view, m.views[id]? = some view →
    view.disposed = true → (view.inFlight = [] → view.registry = .empty) ∧
      (∀ m' ∈ later, DisposedIn m'.views id ∧ ¬m'.event.Stirs id) ∧
      ∀ after m' before, later = after ++ m' :: before →
        m'.CallsElsewhere id (before ++ m :: past)

private theorem hushed_runAll (doc : Document) (behaviour : Behaviour) (depth : Nat)
    (steps : List Step) (id : ViewId) :
    HushedTrace id ((ofDocument doc).runAll behaviour depth steps).trace := by
  intro later m past hsplit view hview hdisposed
  have hrecorded := recorded_runAll doc behaviour depth steps
  obtain ⟨hsound, -⟩ := sound_runAll doc behaviour depth steps
  have hfair := hrecorded.fair later m past hsplit
  have hquiet : ∀ m' ∈ later, DisposedIn m'.views id ∧ ¬m'.event.Stirs id := by
    have hsilences : Silences id (ofDocument doc) ((ofDocument doc).runAll behaviour depth steps) :=
      silences_runAll behaviour depth steps (ofDocument doc)
    obtain ⟨new, hnew, hpairs, -⟩ := hsilences.trace
    have hall : new = later ++ m :: past := by
      rw [← hsplit, hnew]
      simp [ofDocument]
    rw [hall] at hpairs
    exact fun m' hm' => (List.pairwise_append.mp hpairs).2.2 m' hm' m List.mem_cons_self
      ⟨view, hview, hdisposed⟩
  refine ⟨fun hidle => ?_, hquiet, ?_⟩
  · apply hfair.cleared id view hview hdisposed
    rw [← (hsound.booked.lawful later m past hsplit).stack id view hview, hidle]
  · rintro after m' before rfl
    have hlater : ((ofDocument doc).runAll behaviour depth steps).trace =
        after ++ m' :: (before ++ m :: past) := by simp [hsplit]
    refine hrecorded.fair.callsElsewhere hlater
      (fun first hfirst => (hquiet first (by simp [hfirst])).2) ?_
    intro cause hcause b value happlied
    -- A view model that applies a binding is not disposed of at that moment.
    obtain rfl := Option.some.inj hcause
    have hevent := hfair.event
    rw [happlied] at hevent
    obtain ⟨-, -, view', -, -, hview', halive, -⟩ := hevent
    rw [hview] at hview'
    rw [← Option.some.inj hview', hdisposed] at halive
    cases halive

/-- In every run, nothing comes of a view model from the moment at which it is disposed of, at top
level or by a callback at any depth: it applies and registers nothing, calls no watcher and begins
no notification or pass, its registry is empty as long as no notification of it is in progress, and
calls on it at most write to its store. From the drop of the last handle on, nothing is about the
view model any more, and it does not answer changes of inputs. -/
theorem runAll_silent (doc : Document) (behaviour : Behaviour) (depth : Nat) (steps : List Step)
    (id : ViewId) :
    let w := (ofDocument doc).runAll behaviour depth steps
    HushedTrace id w.trace ∧
    (DisposedIn w.views id → ∀ more, ∃ new view,
      (w.runAll behaviour depth more).trace = new ++ w.trace ∧
      (∀ m ∈ new, DisposedIn m.views id ∧ ¬m.event.Stirs id) ∧
      (∀ after m before, new = after ++ m :: before → m.CallsElsewhere id (before ++ w.trace)) ∧
      (w.runAll behaviour depth more).views[id]? = some view ∧ view.disposed = true ∧
        view.registry = .empty) ∧
    (∀ (x : World) call told handle, x.reach? handle = some id → id < x.views.size →
      DisposedIn (x.exec call told (.dispose handle)).1.views id) ∧
    (∀ (x : World) view, x.views[id]? = some view → view.disposed = true → x.Inert id view) ∧
    (∀ (x : World) view, x.views[id]? = some view → view.registry = .empty →
      ∀ call told handle key, x.reach? handle = some id →
        x.exec call told (.bindingCount handle key) = (x, .count 0) ∧
          x.exec call told (.watchedKeys handle) = (x, .count 0)) ∧
    (∀ handle after, (w.run behaviour depth (.drop handle)).1 = after → id < w.views.size →
      (∀ h ∈ after.handles, h.view = id → h.held = false) → after.Dropped id) ∧
    ∀ x : World, x.Dropped id →
      (∀ call node text key, fire call node text x (.model id key) = x) ∧
      (∀ told step, Leaves id x (x.exec (World.call behaviour depth) told step).1) ∧
      ∀ more, Leaves id x (x.runAll behaviour depth more) ∧
        (x.runAll behaviour depth more).Dropped id := by
  intro w
  refine ⟨hushed_runAll doc behaviour depth steps id, fun h more => ?_,
    fun x call told handle hreach hid => disposedIn_dispose told hreach hid,
    fun x view => inert_of_disposed,
    fun x view hview hempty call told handle key hreach =>
      counts_of_empty hview hempty told hreach key,
    fun handle after => dropped_of_drop doc behaviour depth steps, fun x hdropped => ⟨?_, ?_, ?_⟩⟩
  · have hsilences : Silences id w (w.runAll behaviour depth more) :=
      silences_runAll behaviour depth more w
    obtain ⟨new, hnew, -, -, hquiet⟩ := hsilences.trace
    obtain ⟨view, hview, hdisposed⟩ := hsilences.stays h
    have hrecorded := recorded_runAll doc behaviour depth (steps ++ more)
    rw [runAll_append] at hrecorded
    refine ⟨new, view, hnew, hquiet h, ?_, hview, hdisposed, ?_⟩
    · rintro after m before rfl
      have hlater : (w.runAll behaviour depth more).trace = after ++ m :: (before ++ w.trace) := by
        simp [hnew]
      exact hrecorded.fair.callsElsewhere hlater
        (fun first hfirst => (hquiet h first (by simp [hfirst])).2) fun cause hcause =>
          (recorded_runAll doc behaviour depth steps).effected cause hcause id
    · have hrecord := hrecorded.views id
      rw [view_of_getElem? hview] at hrecord
      exact hrecord.cleared hdisposed hrecord.stack
  · exact fun call node text key => hdropped.fire node text key
  · exact fun told step =>
      (exec_turns told x step).spares ((lasting_spares id).calls behaviour depth) hdropped
  · intro more
    have hleaves := (lasting_spares id).runAll behaviour depth x more hdropped
    exact ⟨hleaves, hleaves.dropped hdropped⟩

/-- A callback that disposes of the view model. -/
def disposing : Behaviour := fun script _ _ => if script = 0 then [.dispose 0] else []

/-- A count with two watchers is mounted. -/
def watchedCount : List Step :=
  [.mount { target := .node Document.root } {}, .watch 0 "count" 0, .watch 0 "count" 1]

-- The second watcher is not called when the first disposes of the view model.
example : ((ofDocument .empty).runAll disposing 9
    (watchedCount ++ [.set 0 "count" .increment])).calls = #[1, 0] := by decide +kernel

/-- When the first watcher has disposed of the view model, nothing comes of it; nor when the only
handle is dropped instead. -/
theorem watchedCount_silent :
    let set := (ofDocument .empty).runAll disposing 9 (watchedCount ++ [.set 0 "count" .increment])
    let mounted := (ofDocument .empty).runAll disposing 9 watchedCount
    (DisposedIn set.views 0 ∧ ∀ more, ∃ new view,
      (set.runAll disposing 9 more).trace = new ++ set.trace ∧
      (∀ m ∈ new, DisposedIn m.views 0 ∧ ¬m.event.Stirs 0) ∧
      (∀ after m before, new = after ++ m :: before → m.CallsElsewhere 0 (before ++ set.trace)) ∧
      (set.runAll disposing 9 more).views[0]? = some view ∧ view.disposed = true ∧
        view.registry = .empty) ∧
    (mounted.run disposing 9 (.drop 0)).1.Dropped 0 := by
  intro set mounted
  have hdisposed : DisposedIn set.views 0 := by
    have hset : set.views[0]?.map View.disposed = some true := by decide +kernel
    simpa [DisposedIn] using hset
  refine ⟨⟨hdisposed, ?_⟩, ?_⟩
  · exact (runAll_silent .empty disposing 9 _ 0).2.1 hdisposed
  · obtain ⟨-, -, -, -, -, hdropped, -⟩ := runAll_silent .empty disposing 9 watchedCount 0
    have hmounted : 0 < mounted.views.size := by decide +kernel
    have hlast : (mounted.run disposing 9 (.drop 0)).1.handles.all
        (fun h => h.view != 0 || !h.held) = true := by decide +kernel
    refine hdropped 0 _ rfl hmounted fun h hmem hview => ?_
    simpa [hview] using Array.all_eq_true'.mp hlast h hmem

end World
end ViewBinding
