import Lookahead.Propagation.Solve

/-!
# The queue of a solution

Solving takes one group after another off a queue. Here the queue and the groups activated
so far are kept beside the propagation, so that every state of the loop can be looked at.
-/

namespace Lookahead.Propagation

structure Worklist where
  queue : List String
  activated : List String := []
  propagation : Propagation
  deriving DecidableEq, Inhabited

namespace Worklist

/-- Goes on without the group that was taken off the queue. -/
def drop (w : Worklist) (queue : List String) : Worklist := { w with queue }

/-- Sends the set of the group that was taken off the queue; whoever receives it comes into the
queue once more. -/
def send (w : Worklist) (id : String) (queue : List String) : Worklist :=
  { w with
    queue := queue ++ w.propagation.targets id
    propagation := w.propagation.send id }

/-- Takes the first group off the queue; an empty queue stays. -/
def pop (w : Worklist) : Worklist :=
  match w.queue with
  | [] => w
  | id :: queue =>
    match w.propagation.states.get? id with
    | none => w.drop queue
    | some s =>
      if !s.complete then w.drop queue
      else if s.active then
        if w.propagation.isDelivered id s then w.drop queue else w.send id queue
      else { w.send id queue with activated := w.activated ++ [id] }

/-- The state of the loop after a number of steps. -/
def run : (steps : Nat) → Worklist → Worklist
  | 0, w => w
  | steps + 1, w => run steps w.pop

end Worklist

/-- The queue that solving begins with. -/
def worklist (p : Propagation) : Worklist := { queue := p.order, propagation := p }

end Lookahead.Propagation
