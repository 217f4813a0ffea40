import Lookahead.Propagation.Solve

/-!
# Histories of a propagation

A user clicks on groups, has the propagation solved, starts again and ends the step. A
click that is refused leaves the propagation as it is.
-/

namespace Lookahead.Propagation

inductive Click where
  | activate (id : String)
  | deactivate (id : String)
  | solve
  | reset
  | finish
  deriving DecidableEq, Repr, Inhabited

/-- What a click leaves if it is accepted. -/
def clicked (p : Propagation) : Click → Except Fault Propagation
  | .activate id => p.activate id
  | .deactivate id => p.deactivate id
  | .solve => .ok p.solve.2
  | .reset => .ok p.reset
  | .finish => p.finish

/-- The propagations that clicks lead to. -/
inductive Reached (first : Propagation) : Propagation → Prop
  | start : Reached first first
  | click {p q : Propagation} (c : Click) (before : Reached first p)
      (accepted : p.clicked c = .ok q) : Reached first q

/-- Clicks on groups that were ready, one after another. -/
inductive Follows : Propagation → List String → Propagation → Prop
  | nil {p : Propagation} : Follows p [] p
  | cons {p q r : Propagation} {id : String} {ids : List String} (ready : p.status id = .ok .ready)
      (accepted : p.activate id = .ok q) (rest : Follows q ids r) : Follows p (id :: ids) r

end Lookahead.Propagation
