import Mathlib
import ViewBinding.View.Run

/-!
# Reading a trace

What the moments of a trace, the latest first, say about notifications: which are in progress
(`openFrames`), the passes that each has begun (`passesOf`), and whether a pass was complete
(`CompletePass`). From these, `Moment.Lawful` says what holds at a moment, and `Answered` and `Cut`
what has come of a notification that was folded into another.
-/

namespace ViewBinding

/-- The notification that an event begins or ends, or a pass of which it begins or ends. -/
def Event.frame? : Event → Option (ViewId × String)
  | .frameBegan id key _ | .frameEnded id key _ | .passBegan id key _ | .passEnded id key =>
    some (id, key)
  | _ => none

/-- The view model whose registrations, notifications or passes an event changes. -/
def Event.subject? : Event → Option ViewId
  | .frameBegan view _ _ | .frameEnded view _ _ | .passBegan view _ _ | .passEnded view _
  | .applied view _ _ | .mounted view _ | .registered view _ => some view
  | .called .. | .did .. | .changed _ | .tried .. | .folded .. | .exhausted _ => none

/-- The events by which notifications of a view model record themselves. -/
def Event.OfNotification (id : ViewId) : Event → Prop
  | .frameBegan view _ _ | .frameEnded view _ _ | .passBegan view _ _ | .passEnded view _
  | .applied view _ _ | .folded view _ => view = id
  | _ => False

/-- Events that say nothing about what is registered, applied or being notified. -/
def Event.Plain : Event → Prop
  | .called .. | .did .. | .changed _ | .tried .. | .folded .. | .exhausted _ => True
  | _ => False

theorem Event.OfNotification.subject?_ne {id other : ViewId} {e : Event} (he : e.OfNotification id)
    (hother : id ≠ other) : e.subject? ≠ some other := by
  cases e with
  | frameBegan | frameEnded | passBegan | passEnded | applied =>
    obtain rfl := he
    exact fun hsubject => hother (Option.some.inj hsubject)
  | folded => exact (nomatch ·)
  | _ => exact he.elim

/-- A watcher is called. -/
def Event.IsWatch : Event → Prop
  | .called _ (.watched _) => True
  | _ => False

theorem Event.Plain.subject? {e : Event} (he : e.Plain) : e.subject? = none := by
  cases e <;> first | rfl | exact he.elim

/-- What becomes of a binding as it is applied to a value. -/
def Binding.Effect (b : Binding) (value : Option Value) (e : Event) : Prop :=
  match b with
  | .watch _ callback => e = .called callback (.watched value) ∨ e = .exhausted callback
  | .interpolation .. | .text .. | .model .. =>
    ∃ change, b.change? (shownText value) = some change ∧ e = .changed change

/-- The keys being notified are different, and those to pass over again are among them. -/
structure View.Orderly (view : View) : Prop where
  inFlight : view.inFlight.Nodup
  dirty : view.dirty.Nodup
  dirty_subset : view.dirty ⊆ view.inFlight

namespace Trace

/-- The keys of a view model whose notifications have begun and not ended, the innermost first. -/
def openFrames (id : ViewId) : List Moment → List String
  | [] => []
  | m :: past =>
    match m.event with
    | .frameBegan view key _ => if view = id then key :: openFrames id past else openFrames id past
    | .frameEnded view _ _ => if view = id then (openFrames id past).tail else openFrames id past
    | _ => openFrames id past

/-- The passes over a key since its last notification began, the latest first: for each, whether it
is over the view only. -/
def passesOf (id : ViewId) (key : String) : List Moment → List Bool
  | [] => []
  | m :: past =>
    match m.event with
    | .frameBegan view k _ => if view = id ∧ k = key then [] else passesOf id key past
    | .passBegan view k viewOnly =>
      if view = id ∧ k = key then viewOnly :: passesOf id key past else passesOf id key past
    | _ => passesOf id key past

/-- A notification makes up to `maxPasses` passes with watchers, and perhaps one without after as
many as that. -/
def FrameShape (passes : List Bool) : Prop :=
  (∃ n, 1 ≤ n ∧ n ≤ maxPasses ∧ passes = List.replicate n false) ∨
    passes = true :: List.replicate maxPasses false

/-- A binding is applied to the value that the store has for the key at that time. -/
def Applies (id : ViewId) (key : String) (b : Binding) (moments : List Moment) : Prop :=
  ∃ inner effect views view,
    moments = inner ++ [effect, ⟨.applied id b (view.store.get? key), views⟩] ∧
      views[id]? = some view ∧ b.Effect (view.store.get? key) effect.event

/-- Bindings are applied one after another, watchers left out of a pass over the view only. -/
inductive Visits (id : ViewId) (key : String) (viewOnly : Bool) :
    List Binding → List Moment → Prop
  | nil : Visits id key viewOnly [] []
  | skip {b rest moments} : viewOnly = true → b.isWatch = true →
      Visits id key viewOnly rest moments → Visits id key viewOnly (b :: rest) moments
  | apply {b rest own moments} : Applies id key b own →
      Visits id key viewOnly rest moments → Visits id key viewOnly (b :: rest) (moments ++ own)

/-- A pass from its beginning to its end that leaves out no binding that the key has. -/
def CompletePass (id : ViewId) (key : String) (viewOnly : Bool) (pass : List Moment) : Prop :=
  ∃ ended visits began view, pass = ended :: (visits ++ [began]) ∧
    ended.event = .passEnded id key ∧ began.event = .passBegan id key viewOnly ∧
      began.views[id]? = some view ∧ Visits id key viewOnly (view.registry.watchers key) visits

/-- The notification of a key does not end. -/
def Unended (id : ViewId) (key : String) (moments : List Moment) : Prop :=
  ∀ m ∈ moments, ∀ ran, m.event ≠ .frameEnded id key ran

/-- What comes after some moment, in the notification of a key that was in progress, is a complete
pass over the key. It is over the view only just when `maxPasses` others have been made. -/
def Answered (id : ViewId) (key : String) (later past : List Moment) : Prop :=
  ∃ after pass before viewOnly, later = after ++ (pass ++ before) ∧ Unended id key before ∧
    CompletePass id key viewOnly pass ∧
      (viewOnly = true → passesOf id key (before ++ past) = List.replicate maxPasses false)

/-- The view model is disposed of before the notification of a key has ended. -/
def Cut (id : ViewId) (key : String) (later : List Moment) : Prop :=
  ∃ after m before view, later = after ++ m :: before ∧ Unended id key before ∧
    m.views[id]? = some view ∧ view.disposed = true

end Trace

open Trace

/-- What holds at a moment, for what has happened before. -/
structure Moment.Lawful (m : Moment) (past : List Moment) : Prop where
  /-- The keys being notified are the stack of the notifications in progress. -/
  stack : ∀ (id : ViewId) (view : View), m.views[id]? = some view →
    view.inFlight = openFrames id (m :: past)
  queues : ∀ (id : ViewId) (view : View), m.views[id]? = some view → view.Orderly
  nesting : ∀ (id : ViewId) (view : View), m.views[id]? = some view →
    view.inFlight.length ≤ view.registry.size + 1
  /-- A notification ends that is the innermost in progress. -/
  innermost : ∀ id key ran, m.event = .frameEnded id key ran →
    ∃ outer, openFrames id past = key :: outer
  shape : ∀ id key ran, m.event = .frameEnded id key ran → FrameShape (passesOf id key past)
  /-- No callback is called once a notification in progress passes over the view only. -/
  silent : ∀ callback notice, m.event = .called callback notice →
    ∀ id, ∀ key ∈ openFrames id past, true ∉ passesOf id key past

namespace Trace

variable {id : ViewId} {key : String}

theorem passesOf_append (new past : List Moment)
    (h : ∀ m ∈ new, m.event.frame? ≠ some (id, key)) :
    passesOf id key (new ++ past) = passesOf id key past := by
  induction new with
  | nil => rfl
  | cons m new ih =>
    obtain ⟨hm, hnew⟩ := List.forall_mem_cons.mp h
    rw [List.cons_append, passesOf]
    split
    · rename_i view k origin hevent
      rw [hevent] at hm
      rw [if_neg, ih hnew]
      rintro ⟨rfl, rfl⟩
      exact hm rfl
    · rename_i view k viewOnly hevent
      rw [hevent] at hm
      rw [if_neg, ih hnew]
      rintro ⟨rfl, rfl⟩
      exact hm rfl
    · exact ih hnew

theorem openFrames_frameBegan {m : Moment} {origin : Option NodeId} (past : List Moment)
    (h : m.event = .frameBegan id key origin) :
    openFrames id (m :: past) = key :: openFrames id past := by
  rw [openFrames, h]
  exact if_pos rfl

theorem openFrames_frameEnded {m : Moment} {ran : Nat} (past : List Moment)
    (h : m.event = .frameEnded id key ran) :
    openFrames id (m :: past) = (openFrames id past).tail := by
  rw [openFrames, h]
  exact if_pos rfl

theorem openFrames_cons_of_ne {m : Moment} (past : List Moment)
    (h : ∀ key, m.event.frame? ≠ some (id, key)) :
    openFrames id (m :: past) = openFrames id past := by
  rw [openFrames]
  split
  · rename_i view k origin hevent
    rw [hevent] at h
    rw [if_neg]
    rintro rfl
    exact h k rfl
  · rename_i view k ran hevent
    rw [hevent] at h
    rw [if_neg]
    rintro rfl
    exact h k rfl
  · rfl

theorem Unended.append {a b : List Moment} (ha : Unended id key a) (hb : Unended id key b) :
    Unended id key (a ++ b) := by
  intro m hm
  rcases List.mem_append.mp hm with hm | hm
  · exact ha m hm
  · exact hb m hm

theorem Unended.of_frame? {moments : List Moment}
    (h : ∀ m ∈ moments, m.event.frame? ≠ some (id, key)) : Unended id key moments := by
  intro m hm ran hevent
  apply h m hm
  rw [hevent]
  rfl

theorem Answered.append {later past : List Moment} (h : Answered id key later past)
    (new : List Moment) : Answered id key (new ++ later) past := by
  obtain ⟨after, pass, before, viewOnly, rfl, hbefore, hpass⟩ := h
  exact ⟨new ++ after, pass, before, viewOnly, by simp, hbefore, hpass⟩

theorem Cut.append {later : List Moment} (h : Cut id key later) (new : List Moment) :
    Cut id key (new ++ later) := by
  obtain ⟨after, m, before, view, rfl, hbefore, hview⟩ := h
  exact ⟨new ++ after, m, before, view, by simp, hbefore, hview⟩

end Trace
end ViewBinding
