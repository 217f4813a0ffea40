import Lookahead.Assoc
import Lookahead.NameSet
import Lookahead.Graph.Basic

/-!
# Propagation of sets

Every group holds a set, computed from its seed and from what its predecessors have
sent. Activating a group sends its set to its successors; deactivating it takes the
set back. A group may not be changed while one of its successors is active.
-/

namespace Lookahead

/-- What a group has received. A predecessor that has sent nothing has no set. -/
structure GroupState where
  active : Bool := false
  incoming : Assoc String (Option NameSet) := {}
  computed : NameSet := {}
  seed : NameSet := {}
  deriving DecidableEq, Inhabited

namespace GroupState

def received (s : GroupState) : List NameSet := s.incoming.values.filterMap fun v => v

/-- Whether every predecessor has sent its set. -/
def complete (s : GroupState) : Bool := s.incoming.values.all Option.isSome

/-- Whether some but not all predecessors have sent their sets. -/
def partlyReceived (s : GroupState) : Bool :=
  s.incoming.values.any Option.isSome && s.incoming.values.any Option.isNone

def recompute (s : GroupState) : GroupState :=
  { s with computed := s.received.foldl NameSet.union s.seed }

/-- Records what a predecessor has sent or taken back. -/
def receive (s : GroupState) (sender : String) (names : Option NameSet) : GroupState :=
  recompute { s with incoming := s.incoming.put sender names }

end GroupState

inductive GroupStatus where
  | pending
  | ready
  | active
  deriving DecidableEq, Repr, Inhabited

def GroupStatus.name : GroupStatus → String
  | pending => "pending"
  | ready => "ready"
  | active => "active"

structure Propagation where
  graph : Graph
  /-- The ids of the groups in the order of the graph. -/
  order : List String
  /-- The pairs of different groups that are joined, each pair once. -/
  links : List (String × String)
  seeds : Assoc String NameSet
  initiallyActive : List String
  states : Assoc String GroupState
  finished : Bool := false
  deriving DecidableEq, Inhabited

namespace Propagation

/-- The pairs joined by group edges, refused if one joins a node that is no group. -/
def readLinks (graph : Graph) (order : List String) : (links : List (String × String)) →
    List Edge → Except Fault (List (String × String))
  | links, [] => .ok links
  | links, e :: rest =>
    if !e.isGroupEdge || e.source = e.target then readLinks graph order links rest
    else if !order.contains e.source || !order.contains e.target then
      .error (.breach (.linkOutsideGroups (graph.edgeName e)))
    else if links.contains (e.source, e.target) then readLinks graph order links rest
    else readLinks graph order (links ++ [(e.source, e.target)]) rest

/-- The groups to which a group sends. -/
def targets (p : Propagation) (id : String) : List String :=
  (p.links.filter fun l => l.1 = id).map Prod.snd

/-- The groups that send to a group. -/
def sources (p : Propagation) (id : String) : List String :=
  (p.links.filter fun l => l.2 = id).map Prod.fst

def modifyState (p : Propagation) (id : String) (f : GroupState → GroupState) : Propagation :=
  match p.states.get? id with
  | none => p
  | some s => { p with states := p.states.put id (f s) }

def state (p : Propagation) (id : String) : Except Fault GroupState :=
  match p.states.get? id with
  | some s => .ok s
  | none => .error (.breach (.unknownGroup id))

def isActive (p : Propagation) (id : String) : Bool :=
  (p.states.get? id).elim false GroupState.active

def computedOf (p : Propagation) (id : String) : NameSet :=
  (p.states.get? id).elim {} GroupState.computed

/-- Delivers a set, or its withdrawal, to every successor of a group. -/
def deliver (p : Propagation) (id : String) (names : Option NameSet) : Propagation :=
  (p.targets id).foldl (fun p t => p.modifyState t fun s => s.receive id names) p

/-- Sets the mark of a group and delivers a set, or its withdrawal, to its successors. -/
def toggle (p : Propagation) (id : String) (active : Bool) (names : Option NameSet) :
    Propagation :=
  (p.modifyState id fun s => { s with active }).deliver id names

/-- Marks a group active and sends its set. -/
def send (p : Propagation) (id : String) : Propagation :=
  p.toggle id true (some (p.computedOf id))

/-- Takes the mark of a group and its set back. -/
def withdraw (p : Propagation) (id : String) : Propagation := p.toggle id false none

def initialState (p : Propagation) (id : String) : GroupState :=
  let seed := (p.seeds.get? id).getD {}
  { incoming := ⟨(p.sources id).map fun q => (q, none)⟩, computed := seed, seed }

/-- Starts again from the seeds. -/
def reset (p : Propagation) : Propagation :=
  let p := { p with
    finished := false
    states := ⟨p.order.map fun id => (id, p.initialState id)⟩ }
  p.initiallyActive.foldl send p

/-- A propagation over the groups of a graph. -/
def start (graph : Graph) (seeds : Assoc String NameSet) (initiallyActive : List String := []) :
    Except Fault Propagation := do
  let order := graph.groups.map Node.id
  let links ← readLinks graph order [] graph.edges
  match seeds.keys.find? fun id => !order.contains id with
  | some id => throw (.breach (.seedOutsideGroups id))
  | none =>
    match initiallyActive.find? fun id => !order.contains id with
    | some id => throw (.breach (.unknownGroup id))
    | none => return reset { graph, order, links, seeds, initiallyActive, states := {} }

def successors (p : Propagation) (id : String) : Except Fault (List String) := do
  let _ ← p.state id
  return p.targets id

def predecessors (p : Propagation) (id : String) : Except Fault (List String) := do
  let _ ← p.state id
  return p.sources id

def statusOf (s : GroupState) : GroupStatus :=
  if s.active then .active else if s.complete then .ready else .pending

def status (p : Propagation) (id : String) : Except Fault GroupStatus := do
  return statusOf (← p.state id)

def allActive (p : Propagation) : Bool := p.states.values.all GroupState.active

/-- The state of a group that may be changed now. -/
def guarded (p : Propagation) (id : String) : Except Fault GroupState := do
  let s ← p.state id
  if p.finished then throw (.mistake .stepFinished)
  match (p.targets id).find? p.isActive with
  | some t => throw (.mistake (.successorActive (p.graph.labelText id) (p.graph.labelText t)))
  | none => return s

/-- Activates a group, whether or not all its predecessors have sent. -/
def activate (p : Propagation) (id : String) : Except Fault Propagation := do
  let s ← p.guarded id
  if s.active then throw (.mistake (.alreadyActive (p.graph.labelText id)))
  return p.send id

def deactivate (p : Propagation) (id : String) : Except Fault Propagation := do
  let s ← p.guarded id
  if !s.active then throw (.mistake (.notActive (p.graph.labelText id)))
  return p.withdraw id

/-- Whether every set that a group holds is the one its sender has now. -/
def isStale (p : Propagation) : List (String × Option NameSet) → Except Fault Bool
  | [] => .ok false
  | (sender, names) :: rest =>
    match p.states.get? sender with
    | none => .error (.missing sender)
    | some s => if names = some s.computed then p.isStale rest else .ok true

/-- The first group that holds an outdated set. -/
def firstStale (p : Propagation) : List (String × GroupState) → Except Fault (Option String)
  | [] => .ok none
  | (id, s) :: rest => do
    if ← p.isStale s.incoming.entries then return some id
    p.firstStale rest

def groupLabel (p : Propagation) (id : String) : Json := (p.graph.node? id).elim .null Node.label

/-- Whether all groups are active and hold the final sets of their predecessors. -/
def check (p : Propagation) : Except Fault Verdict := do
  match p.order.find? fun id => !p.isActive id with
  | some id => return .wrong ⟨.inactiveNode, p.groupLabel id⟩
  | none =>
    match ← p.firstStale p.states.entries with
    | some id => return .wrong ⟨.staleSet, p.groupLabel id⟩
    | none => return .correct

/-- Ends the step if the check passes. -/
def finish (p : Propagation) : Except Fault Propagation := do
  match ← p.check with
  | .correct => return { p with finished := true }
  | .wrong d => throw (.mistake (.discrepancy d))

/-- Overwrites what a group holds of a sender without computing its set anew. -/
def overwrite (p : Propagation) (id sender : String) (names : Option NameSet) :
    Except Fault Propagation :=
  match p.states.get? id with
  | none => .error (.missing id)
  | some s =>
    .ok { p with states := p.states.put id { s with incoming := s.incoming.put sender names } }

end Propagation

end Lookahead
