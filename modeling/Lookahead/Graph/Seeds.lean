import Lookahead.Assoc
import Lookahead.NameSet
import Lookahead.Graph.Naming

/-!
# Seeds of the propagation

The first step starts with every terminal in the group of its own leaf. The follow
step starts with the sets that the first step has found in the groups carried over,
and with the end of the input in a group of its own. Carried groups that nothing
follows from are active from the beginning.
-/

namespace Lookahead.Graph

open Naming (carried component endLeaf)

def terminalsOf : List Node → Except Fault (List String)
  | [] => .ok []
  | n :: rest =>
    match n.label with
    | .string label => (terminalsOf rest).map ((Naming.leafTerminal? label.text).toList ++ ·)
    | _ => .error .unsuitableValue

def seedsOf (g : Graph) : List Node → Except Fault (List (String × NameSet))
  | [] => .ok []
  | group :: rest => do
    let names ← terminalsOf (g.members group.id)
    let more ← seedsOf g rest
    return (group.id, .ofList names) :: more

/-- The seeds of the first step, for every group. -/
def firstSeeds (g : Graph) : Except Fault (Assoc String NameSet) := do
  return .ofList (← g.seedsOf g.groups)

/-- The last group with a name. -/
def lastGroup? (g : Graph) (name : String) : Option Node :=
  g.groups.reverse.find? fun n => n.label.same (.string name)

/-- The sets of the groups of the first step, under the groups that they are carried to. -/
def carriedSeeds (sets : Assoc String NameSet) (follow : Graph) : List Node →
    Except Fault (List (String × NameSet))
  | [] => .ok []
  | n :: rest =>
    match follow.lastGroup? (carried n.label.text) with
    | none => .error (.breach (.noCarriedGroup (carried n.label.text)))
    | some target => do
      let more ← carriedSeeds sets follow rest
      return (target.id, (sets.get? n.id).getD {}) :: more

structure FollowSeeds where
  seeds : Assoc String NameSet
  active : List String
  deriving DecidableEq, Inhabited

/-- The seeds of the follow step and the groups that are active from the beginning. -/
def followSeeds (first : Graph) (sets : Assoc String NameSet) (follow : Graph) :
    Except Fault FollowSeeds := do
  if follow.groups.any fun n => n.label.scalar?.isNone then throw .unsuitableValue
  let entries ← carriedSeeds sets follow first.groups
  match follow.lastGroup? (carried (component endLeaf)) with
  | none => throw (.breach .noEndGroup)
  | some target =>
    let seeds := (Assoc.ofList entries).put target.id (.ofList [Symbol.endOfInput.name])
    let isFinal (id : String) : Bool :=
      id != target.id && !(follow.outEdges id).any Edge.isGroupEdge
    return ⟨seeds, seeds.keys.filter isFinal⟩

end Lookahead.Graph
