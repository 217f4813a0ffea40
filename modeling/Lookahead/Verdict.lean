import Lookahead.Json.Text

/-!
# Verdicts on a user's step

A step is correct or has a first discrepancy, which names the node, edge, symbol or
group it concerns.
-/

namespace Lookahead

inductive DiscrepancyKind where
  | missingNode
  | missingEdge
  | extraNode
  | extraEdge
  | wrongNullability
  | fixpointMismatch
  | inactiveNode
  | staleSet
  deriving DecidableEq, Repr, Inhabited

def DiscrepancyKind.name : DiscrepancyKind → String
  | missingNode => "missingNode"
  | missingEdge => "missingEdge"
  | extraNode => "extraNode"
  | extraEdge => "extraEdge"
  | wrongNullability => "wrongNullability"
  | fixpointMismatch => "fixpointMismatch"
  | inactiveNode => "inactiveNode"
  | staleSet => "staleSet"

structure Discrepancy where
  kind : DiscrepancyKind
  name : Json
  deriving DecidableEq, Inhabited

namespace Discrepancy

/-- The name of a mismatch where the user took the fixpoint to be reached. -/
def toggled : String := "toggled"

def untoggled : String := "untoggled"

/-- The message with the name as it is spelled. -/
def wording (d : Discrepancy) : Text.Loose :=
  let name := d.name.spelling
  match d.kind with
  | .missingNode => "You are missing a node in your graph: " ++ name
  | .missingEdge => "You are missing an edge in your graph: " ++ name
  | .extraNode => "You have an unnecessary node in your graph: " ++ name
  | .extraEdge => "You have an unnecessary edge in your graph: " ++ name
  | .wrongNullability =>
    "There is something wrong with your step! Reconsider your assignment of " ++ name ++ "!"
  | .fixpointMismatch =>
    if name = toggled then
      "The fixpoint has not been reached yet! The fixpoint switch should not be toggled!"
    else
      "There should be no new changes in this step. Make sure you toggle the fixpoint switch!"
  | .inactiveNode => "There are still buttons to be clicked! (" ++ name ++ ")"
  | .staleSet =>
    "The set of " ++ name ++ " was computed before all of its predecessors were final!"

/-- The message as far as characters can show it. -/
def message (d : Discrepancy) : String := d.wording.text

end Discrepancy

inductive Verdict where
  | correct
  | wrong (d : Discrepancy)
  deriving DecidableEq, Inhabited

namespace Verdict

def ok : Verdict → Bool
  | correct => true
  | wrong _ => false

def discrepancy? : Verdict → Option Discrepancy
  | correct => none
  | wrong d => some d

def message : Verdict → String
  | correct => "Correct, well done!"
  | wrong d => d.message

@[simp] theorem ok_correct : correct.ok = true := rfl

@[simp] theorem ok_wrong (d : Discrepancy) : (wrong d).ok = false := rfl

theorem ok_iff {v : Verdict} : v.ok = true ↔ v = correct := by
  cases v <;> simp

end Verdict

end Lookahead
