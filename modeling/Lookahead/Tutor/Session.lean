import Lookahead.Tutor.Basic

/-!
# Sessions

What a user can do with a tutor: start steps, have them solved, look at graphs and at the
table, and act on the steps that are there. A refused action leaves the state that it
carries; without a step to act on nothing happens.
-/

namespace Lookahead

inductive Operation where
  | startNullability
  | startFirst
  | startFollow
  | phaseGraph (name : String)
  | solveAll
  | table
  | advanceRound
  | solveRounds
  | resetRounds
  | checkRound (marks : List (String × Json)) (fixpoint : Json)
  | activate (kind : SetKind) (id : String)
  | deactivate (kind : SetKind) (id : String)
  | solve (kind : SetKind)
  | reset (kind : SetKind)
  | check (kind : SetKind)

namespace Tutor

/-- The nullable marks and the switch of a user compared with the last round. -/
def checkRound (step : NullabilityStep) (marks : List (String × Json)) (fixpoint : Json) :
    Action Verdict := do
  return step.rounds.checkRound (← get).grammar marks fixpoint

/-- A click on a group; a refused one changes nothing. -/
def click (kind : SetKind) (p : Propagation) (clicked : Propagation → Except Fault Propagation) :
    Action Unit := do
  let p ← ofExcept (clicked p)
  modify fun t => t.putSetStep kind p

def resetSets (kind : SetKind) (p : Propagation) : Action Unit :=
  modify fun t => t.putSetStep kind p.reset

def onRounds {α : Type} (act : NullabilityStep → Action α) : Action Unit := do
  match (← get).nullability with
  | some step => let _ ← act step
  | none => pure ()

def onSets {α : Type} (kind : SetKind) (act : Propagation → Action α) : Action Unit := do
  match (← get).setStep kind with
  | some p => let _ ← act p
  | none => pure ()

def perform : Operation → Action Unit
  | .startNullability => do let _ ← startNullability
  | .startFirst => do let _ ← startFirst
  | .startFollow => do let _ ← startFollow
  | .phaseGraph name => do let _ ← phaseGraph name
  | .solveAll => do let _ ← solveAll
  | .table => do let _ ← table
  | .advanceRound => onRounds advanceRound
  | .solveRounds => onRounds solveNullability
  | .resetRounds => onRounds resetNullability
  | .checkRound marks fixpoint => onRounds fun step => checkRound step marks fixpoint
  | .activate kind id => onSets kind fun p => click kind p fun p => p.activate id
  | .deactivate kind id => onSets kind fun p => click kind p fun p => p.deactivate id
  | .solve kind => onSets kind (solveSets kind)
  | .reset kind => onSets kind (resetSets kind)
  | .check kind => onSets kind (checkSets kind)

/-- The state that an action leaves, refused or not. -/
def left {α : Type} (act : Action α) (t : Tutor) : Tutor :=
  match act t with
  | .ok _ t => t
  | .error _ t => t

/-- The state after a sequence of operations. -/
def run (t : Tutor) (ops : List Operation) : Tutor :=
  ops.foldl (fun t op => left (perform op) t) t

end Tutor

end Lookahead
