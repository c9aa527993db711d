import Mathlib
import ViewBinding.Proofs.View.Moves

/-!
# The books of a world

Callbacks run while the books are closed, `World.Sound`: each notification in progress is in a pass
with watchers over some bindings. They lead to worlds whose books are closed again, and in which
what was in progress still is, `World.Evolves`. This module proves so for all that steps do apart
from notifications.
-/

namespace ViewBinding

/-- A view model on which nothing goes on, in the place of those that do not exist. -/
def View.blank : View := .mounted Document.root {} .empty []

/-- What becomes of a view model while others run: what is in progress on it stays so. -/
structure View.Steady (before after : View) : Prop where
  passes : after.passes = before.passes
  dirty : before.dirty ⊆ after.dirty
  disposed : before.disposed = true → after.disposed = true
  registry : before.passes ≠ 0 → after.registry = before.registry

/-- What becomes of a view model by a change that is not part of a notification. -/
structure View.Alike (before after : View) : Prop where
  inFlight : after.inFlight = before.inFlight
  dirty : after.dirty = before.dirty
  steady : before.Steady after
  deferred : before.passes = 0 → before.deferred = [] → after.deferred = []

namespace World

open Trace

/-- The view model with an id. -/
def view (w : World) (id : ViewId) : View := (w.views[id]?).getD .blank

/-- Every moment of a trace is lawful. -/
def LawfulTrace (trace : List Moment) : Prop :=
  ∀ later m past, trace = later ++ m :: past → m.Lawful past

/-- The queues of all view models agree with the trace, and have always done so. -/
structure Booked (w : World) : Prop where
  stack : ∀ id, (w.view id).inFlight = openFrames id w.trace
  queues : ∀ id, (w.view id).Orderly
  nesting : ∀ id, (w.view id).inFlight.length ≤ (w.view id).registry.size + 1
  lawful : LawfulTrace w.trace

/-- Every notification in progress is in a pass with watchers over some bindings. -/
structure Ready (w : World) : Prop where
  running : ∀ id, (w.view id).passes = (w.view id).inFlight.length
  waiting : ∀ id, (w.view id).inFlight = [] → (w.view id).deferred = []
  watched : ∀ id, ∀ key ∈ (w.view id).inFlight, (w.view id).registry.watchers key ≠ []
  full : ∀ id, ∀ key ∈ (w.view id).inFlight, true ∉ passesOf id key w.trace

/-- The books are right and closed. -/
structure Sound (w : World) : Prop where
  booked : w.Booked
  ready : w.Ready

/-- No notification in progress ends, and none begins or ends a pass. -/
def Quiet (w : World) (moments : List Moment) : Prop :=
  ∀ m ∈ moments, ∀ id key, m.event.frame? = some (id, key) → key ∉ (w.view id).inFlight

/-- A key is to be passed over again. -/
def Due (w : World) (id : ViewId) (key : String) : Prop := key ∈ (w.view id).dirty

/-- Of every notification that was folded, something has come, or its key is still due and the
notification that it was folded into goes on. -/
def FoldsMet (due : ViewId → String → Prop) (new past : List Moment) : Prop :=
  ∀ later id key views before, new = later ++ ⟨.folded id key, views⟩ :: before →
    Answered id key later (⟨.folded id key, views⟩ :: (before ++ past)) ∨ Cut id key later ∨
      (due id key ∧ Unended id key later)

/-- What becomes of a world while a callback runs. -/
structure Evolves (w after : World) : Prop where
  inFlight : ∀ id, (after.view id).inFlight = (w.view id).inFlight
  steady : ∀ id, (w.view id).Steady (after.view id)
  size : w.views.size ≤ after.views.size
  trace : ∃ new, after.trace = new ++ w.trace ∧ w.Quiet new ∧ FoldsMet after.Due new w.trace

/-- From closed books to closed books. -/
def Keeps (w after : World) : Prop := w.Sound → after.Sound ∧ w.Evolves after

/-! ## View models in a world -/

theorem view_of_getElem? {w : World} {id : ViewId} {view : View} (h : w.views[id]? = some view) :
    w.view id = view := by
  simp [World.view, h]

theorem getElem?_views {w : World} {id : ViewId} (h : id < w.views.size) :
    w.views[id]? = some (w.view id) := by
  simp [World.view, h]

theorem view_congr {a b : World} (h : a.views = b.views) (id : ViewId) : a.view id = b.view id := by
  rw [World.view, h, World.view]

@[simp] theorem view_emit (w : World) (e : Event) (id : ViewId) :
    (w.emit e).view id = w.view id := rfl

@[simp] theorem size_views_modifyView (w : World) (id : ViewId) (f : View → View) :
    (w.modifyView id f).views.size = w.views.size := by
  simp [modifyView]

theorem getElem?_modifyView_self {w : World} {id : ViewId} {view : View}
    (h : w.views[id]? = some view) (f : View → View) :
    (w.modifyView id f).views[id]? = some (f view) := by
  rw [modifyView, Array.getElem?_modify, if_pos rfl, h]
  rfl

theorem view_modifyView_self {w : World} {id : ViewId} (h : id < w.views.size) (f : View → View) :
    (w.modifyView id f).view id = f (w.view id) :=
  view_of_getElem? (getElem?_modifyView_self (getElem?_views h) f)

theorem view_modifyView_of_ne (w : World) {id other : ViewId} (h : other ≠ id) (f : View → View) :
    (w.modifyView id f).view other = w.view other := by
  simp [World.view, modifyView, Array.getElem?_modify, Ne.symm h]

theorem view_modifyView_of_size_le {w : World} {id : ViewId} (h : w.views.size ≤ id)
    (f : View → View) (other : ViewId) : (w.modifyView id f).view other = w.view other := by
  by_cases hne : other = id
  · subst hne
    simp [World.view, modifyView, h]
  · exact view_modifyView_of_ne w hne f

/-- What a change of a view model keeps of every view model holds of all after it. -/
theorem view_modifyView_induction {motive : View → View → Prop} (w : World) (id : ViewId)
    {f : View → View} (hrefl : ∀ v, motive v v) (hf : ∀ v, motive v (f v)) (other : ViewId) :
    motive (w.view other) ((w.modifyView id f).view other) := by
  by_cases hne : other = id
  · subst hne
    by_cases hlt : other < w.views.size
    · rw [view_modifyView_self hlt]
      exact hf _
    · rw [view_modifyView_of_size_le (Nat.not_lt.mp hlt)]
      exact hrefl _
  · rw [view_modifyView_of_ne w hne]
    exact hrefl _

theorem isDisposed_eq {w : World} {id : ViewId} (h : id < w.views.size) :
    w.isDisposed id = (w.view id).disposed := by
  rw [isDisposed, getElem?_views h]

theorem isInFlight_eq {w : World} {id : ViewId} (h : id < w.views.size) (key : String) :
    w.isInFlight id key = (w.view id).inFlight.contains key := by
  rw [isInFlight, getElem?_views h]

theorem isDirty_eq {w : World} {id : ViewId} (h : id < w.views.size) (key : String) :
    w.isDirty id key = (w.view id).dirty.contains key := by
  rw [isDirty, getElem?_views h]

theorem watchers_eq {w : World} {id : ViewId} (h : id < w.views.size) (key : String) :
    w.watchers id key = (w.view id).registry.watchers key := by
  rw [watchers, getElem?_views h]

theorem lt_size_of_isDisposed_eq_false {w : World} {id : ViewId} (h : w.isDisposed id = false) :
    id < w.views.size := by
  unfold isDisposed at h
  split at h
  · rename_i view hview
    exact (Array.getElem?_eq_some_iff.mp hview).1
  · simp at h

end World

theorem View.Steady.refl (v : View) : v.Steady v :=
  ⟨rfl, fun _ h => h, fun h => h, fun _ => rfl⟩

theorem View.Steady.trans {a b c : View} (hab : a.Steady b) (hbc : b.Steady c) : a.Steady c where
  passes := hbc.passes.trans hab.passes
  dirty := fun _ h => hbc.dirty (hab.dirty h)
  disposed := fun h => hbc.disposed (hab.disposed h)
  registry := fun h => (hbc.registry (hab.passes ▸ h)).trans (hab.registry h)

theorem View.Alike.refl (v : View) : v.Alike v :=
  ⟨rfl, rfl, .refl v, fun _ h => h⟩

private theorem View.Change.alike {f : View → View} (hf : View.Change f) (v : View) : v.Alike
    (f v) := by
  cases hf with
  | pins | store => exact ⟨rfl, rfl, ⟨rfl, fun _ h => h, fun h => h, fun _ => rfl⟩, fun _ h => h⟩
  | dispose =>
    refine ⟨rfl, rfl, ⟨rfl, fun _ h => h, fun _ => rfl, ?_⟩, fun _ _ => rfl⟩
    intro hpasses
    exact if_neg hpasses

theorem View.alike_register (v : View) (b : Binding) : v.Alike (v.register b) := by
  unfold View.register
  split
  · rename_i hpasses
    exact ⟨rfl, rfl, ⟨rfl, fun _ h => h, fun h => h, fun h => absurd hpasses h⟩, fun _ h => h⟩
  · rename_i hpasses
    exact ⟨rfl, rfl, ⟨rfl, fun _ h => h, fun h => h, fun _ => rfl⟩, fun h => absurd h hpasses⟩

namespace World

open Trace

/-! ## Closed books stay closed -/

theorem Quiet.append {w : World} {a b : List Moment} (ha : w.Quiet a) (hb : w.Quiet b) :
    w.Quiet (a ++ b) := by
  intro m hm
  rcases List.mem_append.mp hm with hm | hm
  · exact ha m hm
  · exact hb m hm

private theorem Quiet.congr {w after : World} {moments : List Moment} (h : w.Quiet moments)
    (hinFlight : ∀ id, (after.view id).inFlight = (w.view id).inFlight) : after.Quiet moments := by
  intro m hm id key hframe
  rw [hinFlight]
  exact h m hm id key hframe

theorem Quiet.frame?_ne {w : World} {moments : List Moment} (h : w.Quiet moments) {id : ViewId}
    {key : String} (hkey : key ∈ (w.view id).inFlight) :
    ∀ m ∈ moments, m.event.frame? ≠ some (id, key) :=
  fun m hm hframe => h m hm id key hframe hkey

theorem FoldsMet.nil (due : ViewId → String → Prop) (past : List Moment) : FoldsMet due [] past := by
  intro later id key views before h
  simp at h

theorem FoldsMet.mono {due due' : ViewId → String → Prop} {new past : List Moment}
    (h : FoldsMet due new past) (hdue : ∀ id key, due id key → due' id key) :
    FoldsMet due' new past := by
  intro later id key views before heq
  rcases h later id key views before heq with h | h | ⟨hkey, hopen⟩
  · exact Or.inl h
  · exact Or.inr (Or.inl h)
  · exact Or.inr (Or.inr ⟨hdue id key hkey, hopen⟩)

/-- Where two stretches of moments meet, something must come of a key that was due in the first. -/
theorem FoldsMet.append {due due' : ViewId → String → Prop} {a b past : List Moment}
    (ha : FoldsMet due a past) (hb : FoldsMet due' b (a ++ past))
    (hdue : ∀ id key later before, due id key → Unended id key later →
      later ++ before = a ++ past →
        Answered id key (b ++ later) before ∨ Cut id key (b ++ later) ∨
          (due' id key ∧ Unended id key b)) :
    FoldsMet due' (b ++ a) past := by
  intro later id key views before h
  have hfirst : ∀ gap, a = gap ++ ⟨.folded id key, views⟩ :: before →
      Answered id key (b ++ gap) (⟨.folded id key, views⟩ :: (before ++ past)) ∨
        Cut id key (b ++ gap) ∨ (due' id key ∧ Unended id key (b ++ gap)) := by
    intro gap ha'
    rcases ha gap id key views before ha' with h | h | ⟨hkey, hopen⟩
    · exact Or.inl (h.append b)
    · exact Or.inr (Or.inl (h.append b))
    · have hsplit : gap ++ ⟨.folded id key, views⟩ :: (before ++ past) = a ++ past := by
        rw [ha']
        simp
      rcases hdue id key gap _ hkey hopen hsplit with h | h | ⟨hkey', hopen'⟩
      · exact Or.inl h
      · exact Or.inr (Or.inl h)
      · exact Or.inr (Or.inr ⟨hkey', hopen'.append hopen⟩)
  rcases List.append_eq_append_iff.mp h with ⟨gap, rfl, ha'⟩ | ⟨gap, hb', hrest⟩
  · exact hfirst gap ha'
  · cases gap with
    | nil =>
      rw [List.append_nil] at hb'
      subst hb'
      simpa using hfirst [] hrest.symm
    | cons m gap =>
      obtain ⟨rfl, rfl⟩ := List.cons.inj hrest
      rcases hb later id key views gap hb' with h | h
      · exact Or.inl (by simpa using h)
      · exact Or.inr h

/-- One moment that is no folded notification ends none either. -/
theorem FoldsMet.cons {due due' : ViewId → String → Prop} {m : Moment} {new past : List Moment}
    (h : FoldsMet due new past) (hfold : ∀ id key, m.event ≠ .folded id key)
    (hdue : ∀ id key, due id key → due' id key ∧ ∀ ran, m.event ≠ .frameEnded id key ran) :
    FoldsMet due' (m :: new) past := by
  have hone : FoldsMet due' [m] (new ++ past) := by
    intro later id key views before heq
    rcases later with _ | ⟨first, later⟩
    · exact absurd (congrArg Moment.event (List.cons.inj heq).1) (hfold id key)
    · have hnil := (List.cons.inj heq).2
      simp at hnil
  apply h.append hone
  intro id key later before hkey _ _
  obtain ⟨hkey', hended⟩ := hdue id key hkey
  refine Or.inr (Or.inr ⟨hkey', ?_⟩)
  intro m' hm'
  rw [List.mem_singleton.mp hm']
  exact hended

theorem Evolves.refl (w : World) : w.Evolves w where
  inFlight := fun _ => rfl
  steady := fun _ => .refl _
  size := Nat.le_refl _
  trace := ⟨[], rfl, by intro m hm; simp at hm, .nil _ _⟩

theorem Evolves.trans {a b c : World} (hb : b.Booked) (hab : a.Evolves b) (hbc : b.Evolves c) :
    a.Evolves c := by
  obtain ⟨new, htrace, hquiet, hmet⟩ := hab.trace
  obtain ⟨newer, htrace', hquiet', hmet'⟩ := hbc.trace
  refine ⟨?_, ?_, hab.size.trans hbc.size, newer ++ new, ?_, ?_, ?_⟩
  · intro id
    rw [hbc.inFlight, hab.inFlight]
  · exact fun id => (hab.steady id).trans (hbc.steady id)
  · rw [htrace', htrace, List.append_assoc]
  · exact (hquiet'.congr fun id => (hab.inFlight id).symm).append hquiet
  · rw [htrace] at hmet'
    apply hmet.append hmet'
    intro id key later before hdue _ _
    refine Or.inr (Or.inr ⟨(hbc.steady id).dirty hdue, Unended.of_frame? ?_⟩)
    exact hquiet'.frame?_ne ((hb.queues id).dirty_subset hdue)

theorem Keeps.refl (w : World) : w.Keeps w := fun h => ⟨h, .refl w⟩

theorem Keeps.trans {a b c : World} (hab : a.Keeps b) (hbc : b.Keeps c) : a.Keeps c := by
  intro h
  obtain ⟨hb, hevolves⟩ := hab h
  obtain ⟨hc, hevolves'⟩ := hbc hb
  exact ⟨hc, hevolves.trans hb.booked hevolves'⟩

private theorem LawfulTrace.cons {trace : List Moment} (h : LawfulTrace trace) {m : Moment}
    (hm : m.Lawful trace) : LawfulTrace (m :: trace) := by
  intro later m' past heq
  cases later with
  | nil =>
    obtain ⟨rfl, rfl⟩ := List.cons.inj heq
    exact hm
  | cons first later => exact h later m' past (List.cons.inj heq).2

/-- What must hold when an event is recorded. -/
theorem booked_emit {w : World} {e : Event}
    (hstack : ∀ id, (w.view id).inFlight = openFrames id (⟨e, w.views⟩ :: w.trace))
    (hqueues : ∀ id, (w.view id).Orderly)
    (hnesting : ∀ id, (w.view id).inFlight.length ≤ (w.view id).registry.size + 1)
    (hlawful : LawfulTrace w.trace)
    (hended : ∀ id key ran, e = .frameEnded id key ran →
      (∃ outer, openFrames id w.trace = key :: outer) ∧ FrameShape (passesOf id key w.trace))
    (hsilent : ∀ callback notice, e = .called callback notice →
      ∀ id, ∀ key ∈ openFrames id w.trace, true ∉ passesOf id key w.trace) :
    (w.emit e).Booked := by
  refine ⟨hstack, hqueues, hnesting, hlawful.cons ?_⟩
  refine ⟨?_, ?_, ?_, ?_, ?_, hsilent⟩
  · intro id view hview
    rw [← view_of_getElem? hview]
    exact hstack id
  · intro id view hview
    rw [← view_of_getElem? hview]
    exact hqueues id
  · intro id view hview
    rw [← view_of_getElem? hview]
    exact hnesting id
  · exact fun id key ran he => (hended id key ran he).1
  · exact fun id key ran he => (hended id key ran he).2

theorem passesOf_cons {id : ViewId} {key : String} {m : Moment} (past : List Moment)
    (h : m.event.frame? ≠ some (id, key)) : passesOf id key (m :: past) = passesOf id key past :=
  passesOf_append [m] past (by simpa using h)

theorem Booked.emit {w : World} (h : w.Booked) {e : Event}
    (hopen : ∀ id, openFrames id (⟨e, w.views⟩ :: w.trace) = openFrames id w.trace)
    (hended : ∀ id key ran, e ≠ .frameEnded id key ran)
    (hsilent : ∀ callback notice, e = .called callback notice →
      ∀ id, ∀ key ∈ (w.view id).inFlight, true ∉ passesOf id key w.trace) : (w.emit e).Booked := by
  apply booked_emit
  · intro id
    rw [hopen]
    exact h.stack id
  · exact h.queues
  · exact h.nesting
  · exact h.lawful
  · exact fun id key ran he => absurd he (hended id key ran)
  · intro callback notice he id key hkey
    rw [← h.stack] at hkey
    exact hsilent callback notice he id key hkey

theorem evolves_emit (w : World) {e : Event} (hframe : e.frame? = none)
    (hfold : ∀ id key, e ≠ .folded id key) : w.Evolves (w.emit e) := by
  refine ⟨fun _ => rfl, fun _ => .refl _, Nat.le_refl _, [⟨e, w.views⟩], rfl, ?_, ?_⟩
  · intro m hm id key hm'
    rw [List.mem_singleton.mp hm, hframe] at hm'
    simp at hm'
  · apply (FoldsMet.nil w.Due w.trace).cons hfold
    intro id key hdue
    refine ⟨hdue, fun ran he => ?_⟩
    have hsome : e.frame? = some (id, key) := congrArg Event.frame? he
    rw [hframe] at hsome
    cases hsome

theorem booked_emit_of_frame? {w : World} (h : w.Booked) {e : Event} (hframe : e.frame? = none)
    (hsilent : ∀ callback notice, e = .called callback notice →
      ∀ id, ∀ key ∈ (w.view id).inFlight, true ∉ passesOf id key w.trace) : (w.emit e).Booked := by
  apply h.emit _ _ hsilent
  · intro id
    apply openFrames_cons_of_ne
    intro key
    rw [hframe]
    simp
  · intro id key ran he
    rw [he] at hframe
    simp [Event.frame?] at hframe

/-- An event of no notification closes no books. -/
theorem keeps_emit (w : World) {e : Event} (hframe : e.frame? = none)
    (hfold : ∀ id key, e ≠ .folded id key) : w.Keeps (w.emit e) := by
  intro h
  refine ⟨⟨booked_emit_of_frame? h.booked hframe fun _ _ _ => h.ready.full, ?_⟩,
    evolves_emit w hframe hfold⟩
  refine ⟨h.ready.running, h.ready.waiting, h.ready.watched, ?_⟩
  intro id key hkey
  rw [emit, passesOf_cons]
  · exact h.ready.full id key hkey
  · rw [hframe]
    simp

private theorem evolves_of_alike {w after : World} (htrace : after.trace = w.trace)
    (hsize : w.views.size ≤ after.views.size) (hviews : ∀ id, (w.view id).Alike (after.view id)) :
    w.Evolves after := by
  refine ⟨fun id => (hviews id).inFlight, fun id => (hviews id).steady, hsize, [], htrace, ?_, ?_⟩
  · intro m hm
    simp at hm
  · exact .nil _ _

private theorem keeps_of_alike {w after : World} (htrace : after.trace = w.trace)
    (hsize : w.views.size ≤ after.views.size) (hviews : ∀ id, (w.view id).Alike (after.view id)) :
    w.Keeps after := by
  intro h
  have hinFlight : ∀ id, (after.view id).inFlight = (w.view id).inFlight :=
    fun id => (hviews id).inFlight
  -- The registry can change only where nothing is in progress.
  have hregistry : ∀ id, (w.view id).inFlight ≠ [] →
      (after.view id).registry = (w.view id).registry := by
    intro id hne
    apply (hviews id).steady.registry
    rw [h.ready.running]
    exact fun hlength => hne (List.length_eq_zero_iff.mp hlength)
  refine ⟨⟨⟨?_, ?_, ?_, ?_⟩, ⟨?_, ?_, ?_, ?_⟩⟩, evolves_of_alike htrace hsize hviews⟩
  · intro id
    rw [hinFlight, htrace, h.booked.stack]
  · intro id
    refine ⟨?_, ?_, ?_⟩
    all_goals simp only [(hviews id).inFlight, (hviews id).dirty]
    · exact (h.booked.queues id).inFlight
    · exact (h.booked.queues id).dirty
    · exact (h.booked.queues id).dirty_subset
  · intro id
    by_cases hne : (w.view id).inFlight = []
    · rw [hinFlight, hne]
      exact Nat.zero_le _
    · rw [hinFlight, hregistry id hne]
      exact h.booked.nesting id
  · rw [htrace]
    exact h.booked.lawful
  · intro id
    rw [hinFlight, (hviews id).steady.passes, h.ready.running]
  · intro id hnil
    rw [hinFlight] at hnil
    apply (hviews id).deferred
    · rw [h.ready.running, hnil]
      rfl
    · exact h.ready.waiting id hnil
  · intro id key hkey
    rw [hinFlight] at hkey
    rw [hregistry id (List.ne_nil_of_mem hkey)]
    exact h.ready.watched id key hkey
  · intro id key hkey
    rw [hinFlight] at hkey
    rw [htrace]
    exact h.ready.full id key hkey

private theorem alike_of_views_eq {w after : World} (hviews : after.views = w.views)
    (id : ViewId) : (w.view id).Alike (after.view id) := by
  rw [view_congr hviews]
  exact .refl _

theorem keeps_host {w after : World} (hviews : after.views = w.views)
    (htrace : after.trace = w.trace) : w.Keeps after :=
  keeps_of_alike htrace (by rw [hviews]) (alike_of_views_eq hviews)

theorem keeps_perform (w : World) (change : HostChange) : w.Keeps (w.perform change) :=
  (keeps_emit w (e := .changed change) rfl (by simp)).trans (keeps_host rfl rfl)

theorem Booked.perform {w : World} (h : w.Booked) (change : HostChange) :
    (w.perform change).Booked := by
  have hevent : (w.emit (.changed change)).Booked := booked_emit_of_frame? h rfl (by simp)
  exact ⟨hevent.stack, hevent.queues, hevent.nesting, hevent.lawful⟩

theorem evolves_perform (w : World) (change : HostChange) : w.Evolves (w.perform change) := by
  have hevent : w.Evolves (w.emit (.changed change)) := evolves_emit w rfl (by simp)
  exact ⟨hevent.inFlight, hevent.steady, hevent.size, hevent.trace⟩

theorem keeps_modifyView_of_alike (w : World) (id : ViewId) {f : View → View}
    (hf : ∀ v : View, v.Alike (f v)) : w.Keeps (w.modifyView id f) := by
  apply keeps_of_alike
  · rfl
  · simp
  · exact fun other => view_modifyView_induction w id .refl hf other

theorem keeps_modifyView (w : World) (id : ViewId) {f : View → View} (hf : View.Change f) :
    w.Keeps (w.modifyView id f) :=
  keeps_modifyView_of_alike w id hf.alike

theorem keeps_registered (w : World) (id : ViewId) (b : Binding) :
    w.Keeps ((w.modifyView id (·.register b)).emit (.registered id b)) :=
  (keeps_modifyView_of_alike w id (View.alike_register · b)).trans (keeps_emit _ rfl (by simp))

theorem keeps_mounted (w : World) (root : NodeId) (settings : Settings) (store : Store)
    (bindings : List Binding) :
    w.Keeps (({ w with views := w.views.push (.mounted root settings store bindings) } :
      World).emit (.mounted w.views.size bindings)) := by
  refine Keeps.trans ?_ (keeps_emit _ rfl (by simp))
  apply keeps_of_alike
  · rfl
  · simp
  · intro id
    rw [World.view, World.view, Array.getElem?_push]
    split
    · rename_i hid
      have hnone : w.views[id]? = none := by simp [hid]
      rw [hnone]
      exact ⟨rfl, rfl, ⟨rfl, fun _ h => h, fun h => absurd h (by simp [View.blank, View.mounted]),
        fun h => absurd rfl h⟩, fun _ _ => rfl⟩
    · exact .refl _

end World
end ViewBinding
