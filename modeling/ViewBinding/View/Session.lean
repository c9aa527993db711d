import ViewBinding.View.Run

/-!
# Sessions

Steps taken one after another on one document, by callbacks whose scripts are lists of steps that
run for a limited number of calls. Each call that takes steps uses up one of these, which bounds how
deep callbacks can nest: `Session.budget`.
-/

namespace ViewBinding

/-- A script: the steps to take on each of the first calls. -/
structure Script where
  /-- The name under which calls are reported. -/
  tag : String
  limit : Nat
  steps : List Step

structure StepReport where
  outcome : Outcome
  /-- What has happened since the step before, in order. -/
  events : List Event
  markup : String
  /-- The nodes that carry a value, with it. -/
  values : List (NodeId × String)

namespace Session

def behaviour (scripts : Array Script) : Behaviour := fun id calls _ =>
  match scripts[id]? with
  | some script => if calls < script.limit then script.steps else []
  | none => []

/-- The most calls with steps that a step can lead to by the script that it registers, for known
weights of scripts. -/
def stepWeight (weights : Array Nat) (step : Step) : Nat :=
  match step.script? with
  | some id => (weights[id]?).getD 0
  | none => 0

/-- The most calls with steps that some steps can lead to. -/
def stepsWeight (weights : Array Nat) (steps : List Step) : Nat :=
  steps.foldl (fun n step => n + stepWeight weights step) 0

/-- The most calls with steps that registering each script once can lead to. A script registers only
scripts that come before it. -/
def scriptWeights (scripts : Array Script) : Array Nat :=
  scripts.foldl
    (fun weights script =>
      weights.push (script.limit * (1 + stepsWeight weights script.steps)))
    #[]

/-- How deep callbacks can nest in a session. -/
def budget (scripts : Array Script) (steps : List Step) : Nat :=
  stepsWeight (scriptWeights scripts) steps + 1

/-- The nodes of a document that carry a value, with it. -/
def values (doc : Document) : List (NodeId × String) :=
  (List.range doc.size).filterMap fun id => (doc.value? id).map (id, ·)

def report (w : World) (outcome : Outcome) : StepReport where
  outcome := outcome
  events := w.trace.reverse.map Moment.event
  markup := w.doc.innerMarkup Document.root
  values := values w.doc

/-- Takes steps one after another. The trace begins anew with each. -/
def runSteps (behaviour : Behaviour) (depth : Nat) : World → List Step → List StepReport
  | _, [] => []
  | w, step :: rest =>
    let (after, outcome) := { w with trace := [] }.run behaviour depth step
    report after outcome :: runSteps behaviour depth after rest

def run (doc : Document) (scripts : Array Script) (steps : List Step) : List StepReport :=
  runSteps (behaviour scripts) (budget scripts steps) (.ofDocument doc) steps

end Session
end ViewBinding
