import Lookahead.Propagation.Basic

/-!
# Solving a propagation

All groups are put into a queue. A complete group that is not active is activated;
an active group whose successors hold an outdated set sends its set again. Whoever
receives a set comes into the queue once more.

Sets only grow while snapshots are parts of the sets of their senders, so the number
of sendings is bounded by the groups, the links and the names. The bound on the steps
leaves room beyond that for states whose snapshots were overwritten.
-/

namespace Lookahead.Propagation

/-- Whether all successors hold the present set of a group. -/
def isDelivered (p : Propagation) (id : String) (s : GroupState) : Bool :=
  (p.targets id).all fun t =>
    (p.states.get? t).any fun r => r.incoming.get? id = some (some s.computed)

/-- Takes groups off the queue in order; gives those that were activated. -/
def settle : (steps : Nat) → (queue : List String) → Propagation → List String × Propagation
  | 0, _, p => ([], p)
  | _ + 1, [], p => ([], p)
  | steps + 1, id :: queue, p =>
    match p.states.get? id with
    | none => settle steps queue p
    | some s =>
      if !s.complete then settle steps queue p
      else if s.active then
        if p.isDelivered id s then settle steps queue p
        else settle steps (queue ++ p.targets id) (p.send id)
      else
        let (ids, last) := settle steps (queue ++ p.targets id) (p.send id)
        (id :: ids, last)

/-- All names that occur in a set of a group. -/
def names (p : Propagation) : NameSet :=
  p.states.values.foldl
    (fun all s => s.received.foldl NameSet.union ((all.union s.seed).union s.computed)) {}

/-- Room for the steps of `settle`. -/
def stepBound (p : Propagation) : Nat :=
  let groups := p.order.length + 1
  let links := p.links.length + 1
  groups * groups * links * links * (p.names.names.length + 2)

/-- Activates all groups in an order in which their sets are final. -/
def solve (p : Propagation) : List String × Propagation :=
  if p.finished then ([], p) else settle p.stepBound p.order p

end Lookahead.Propagation
