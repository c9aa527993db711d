import Mathlib
import ViewBinding.Proofs.View.History

/-!
# Reading registrations and passes from a trace

Which bindings were added to a view model, in order (`registrations`), which of them were there when
the outermost notification in progress began (`held`), and which passes are in progress, with the
bindings that each has applied (`openPasses`).
-/

namespace ViewBinding

/-- The bindings that an event adds to a view model. -/
def Event.added (id : ViewId) : Event → List Binding
  | .mounted view bindings => if view = id then bindings else []
  | .registered view b => if view = id then [b] else []
  | _ => []

/-- A pass in progress, as the trace tells it. -/
structure OpenPass where
  key : String
  viewOnly : Bool
  /-- The input whose change the notification answers, in its first pass. -/
  origin : Option NodeId
  /-- The bindings applied so far, in order. -/
  applied : List Binding

/-- Whether a pass that leaves out the model binding of an input, or all watchers, applies a
binding. -/
def Binding.isMet (origin : Option NodeId) (viewOnly : Bool) (b : Binding) : Bool :=
  !(viewOnly && b.isWatch) && !origin.any b.isModelOf

namespace Trace

/-- The bindings that were ever added to a view model, in order. -/
def registrations (id : ViewId) : List Moment → List Binding
  | [] => []
  | m :: past => registrations id past ++ m.event.added id

/-- The bindings that had been added when the outermost notification in progress began. -/
def held (id : ViewId) : List Moment → List Binding
  | [] => []
  | m :: past =>
    if openFrames id (m :: past) = [] then registrations id (m :: past) else held id past

/-- The input that a pass leaves out if it begins now: one whose change a notification answers that
has just begun. -/
def leftOut : List Moment → Option NodeId
  | ⟨.frameBegan _ _ origin, _⟩ :: _ => origin
  | _ => none

/-- The passes of a view model that have begun and not ended, the innermost first. -/
def openPasses (id : ViewId) : List Moment → List OpenPass
  | [] => []
  | m :: past =>
    match m.event with
    | .passBegan view key viewOnly =>
      if view = id then ⟨key, viewOnly, leftOut past, []⟩ :: openPasses id past
      else openPasses id past
    | .applied view b _ =>
      if view = id then
        match openPasses id past with
        | pass :: outer => { pass with applied := pass.applied ++ [b] } :: outer
        | [] => []
      else openPasses id past
    | .passEnded view _ => if view = id then (openPasses id past).tail else openPasses id past
    | _ => openPasses id past

variable {id : ViewId}

theorem registrations_append (new past : List Moment) :
    registrations id (new ++ past) = registrations id past ++ registrations id new := by
  induction new with
  | nil => simp [registrations]
  | cons m new ih => rw [List.cons_append, registrations, registrations, ih, List.append_assoc]

theorem registrations_cons {m : Moment} (past : List Moment) (h : m.event.added id = []) :
    registrations id (m :: past) = registrations id past := by
  rw [registrations, h, List.append_nil]

theorem held_of_openFrames_eq_nil {trace : List Moment} (h : openFrames id trace = []) :
    held id trace = registrations id trace := by
  cases trace with
  | nil => rfl
  | cons m past => rw [held, if_pos h]

theorem held_cons_of_openFrames_ne_nil {m : Moment} {past : List Moment}
    (h : openFrames id (m :: past) ≠ []) : held id (m :: past) = held id past := by
  rw [held, if_neg h]

/-! ## Moments that do not concern a view model -/

variable {m : Moment} (past : List Moment)

private theorem added_of_subject?_ne (h : m.event.subject? ≠ some id) : m.event.added id = [] := by
  cases he : m.event
  all_goals
    simp only [he, Event.subject?, ne_eq, Option.some.injEq] at h
    first
    | exact if_neg h
    | rfl

theorem openFrames_of_subject?_ne (h : m.event.subject? ≠ some id) :
    openFrames id (m :: past) = openFrames id past := by
  apply openFrames_cons_of_ne
  intro key hframe
  apply h
  cases he : m.event <;> simp_all [Event.frame?, Event.subject?]

theorem registrations_of_subject?_ne (h : m.event.subject? ≠ some id) :
    registrations id (m :: past) = registrations id past :=
  registrations_cons past (added_of_subject?_ne h)

theorem openPasses_of_subject?_ne (h : m.event.subject? ≠ some id) :
    openPasses id (m :: past) = openPasses id past := by
  rw [openPasses]
  cases he : m.event
  all_goals
    simp only [he, Event.subject?, ne_eq, Option.some.injEq] at h
    first
    | exact if_neg h
    | rfl

theorem held_of_subject?_ne (h : m.event.subject? ≠ some id) :
    held id (m :: past) = held id past := by
  rw [held, openFrames_of_subject?_ne past h, registrations_of_subject?_ne past h]
  split
  · rename_i hopen
    rw [held_of_openFrames_eq_nil hopen]
  · rfl

end Trace
end ViewBinding
