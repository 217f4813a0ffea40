import Lookahead.Grammar.Edit
import Lookahead.Graph.Canonical
import Lookahead.Graph.Comparison
import Lookahead.Graph.Seeds
import Lookahead.Nullability
import Lookahead.Propagation.Solve
import Lookahead.Table
import Lookahead.Text.Lowercase

/-!
# The tutor

A tutor leads through three steps on one grammar: nullability in rounds, first sets
and follow sets by propagation. A step can be started once the one before it is
finished; starting it discards the steps behind it. Finished steps write their
results into the grammar, from which the lookahead table is read.
-/

namespace Lookahead

structure NullabilityStep where
  rounds : Nullability
  graph : Graph
  finished : Bool := false
  deriving DecidableEq, Inhabited

/-- The two steps that propagate sets. -/
inductive SetKind where
  | first
  | follow
  deriving DecidableEq, Repr, Inhabited

def SetKind.name : SetKind → String
  | first => "First"
  | follow => "Follow"

/-- The steps by the graphs that belong to them. -/
inductive GraphPhase where
  | empty
  | first
  | follow
  deriving DecidableEq, Repr, Inhabited

namespace GraphPhase

def name : GraphPhase → String
  | empty => "empty"
  | first => "first"
  | follow => "follow"

def ofName? (name : String) : Option GraphPhase :=
  [empty, first, follow].find? fun phase => phase.name = name

end GraphPhase

structure Tutor where
  grammar : Grammar
  nullability : Option NullabilityStep := none
  first : Option Propagation := none
  follow : Option Propagation := none
  deriving DecidableEq, Inhabited

namespace Tutor

/-- An action on a tutor. The state that a refused action leaves is the one it carries. -/
abbrev Action := EStateM Fault Tutor

/-- A tutor for a valid grammar with a start symbol. -/
def ofGrammar (g : Grammar) : Except Fault Tutor := do
  if g.startProduction?.isNone then throw (.mistake .noStart)
  g.validate
  return { grammar := g }

def setStep (t : Tutor) : SetKind → Option Propagation
  | .first => t.first
  | .follow => t.follow

def putSetStep (t : Tutor) (kind : SetKind) (p : Propagation) : Tutor :=
  match kind with
  | .first => { t with first := some p }
  | .follow => { t with follow := some p }

def ofExcept {α : Type} : Except Fault α → Action α
  | .ok a => pure a
  | .error f => throw f

def modifyGrammar (f : Grammar → Grammar) : Action Unit :=
  modify fun t => { t with grammar := f t.grammar }

/-- Runs an edit on the grammar; the steps stay as they are. -/
def edit {α : Type} (edit : Grammar.Edit α) : Action α := fun t =>
  match edit t.grammar with
  | .ok a g => .ok a { t with grammar := g }
  | .error f g => .error f { t with grammar := g }

/-! ### Starting steps -/

def startNullability : Action NullabilityStep := do
  modifyGrammar Grammar.resetAnalysis
  let (rounds, g) := Nullability.start (← get).grammar
  modify fun t => { t with grammar := g }
  let step : NullabilityStep := { rounds, graph := ← ofExcept (Graph.nullability g) }
  modify fun t => { t with nullability := some step, first := none, follow := none }
  return step

def clearFirst (g : Grammar) : Grammar :=
  g.allSymbols.foldl (fun g s => (g.setFirst s {}).setFollow s {}) g

def clearFollow (g : Grammar) : Grammar := g.allSymbols.foldl (fun g s => g.setFollow s {}) g

/-- Whether a step that must come before is there and finished. -/
def nullabilityFinished (t : Tutor) : Bool := t.nullability.any NullabilityStep.finished

def setStepFinished (t : Tutor) (kind : SetKind) : Bool := (t.setStep kind).any Propagation.finished

def startFirst : Action Propagation := do
  if !(← get).nullabilityFinished then throw (.mistake .previousStepOpen)
  modifyGrammar clearFirst
  let graph ← ofExcept (Graph.first (← get).grammar)
  let seeds ← ofExcept graph.firstSeeds
  let step ← ofExcept (Propagation.start graph seeds)
  modify fun t => { t with first := some step, follow := none }
  return step

/-- The sets of all groups, by id. -/
def setsById (p : Propagation) : Assoc String NameSet :=
  .ofList (p.graph.groups.map fun n => (n.id, p.computedOf n.id))

def startFollow : Action Propagation := do
  match (← get).first with
  | none => throw (.mistake .previousStepOpen)
  | some first =>
    if !first.finished then throw (.mistake .previousStepOpen)
    modifyGrammar clearFollow
    let graph ← ofExcept (Graph.follow (← get).grammar first.graph)
    let start ← ofExcept (Graph.followSeeds first.graph (setsById first) graph)
    let step ← ofExcept (Propagation.start graph start.seeds start.active)
    modify fun t => { t with follow := some step }
    return step

/-! ### The nullability step -/

/-- One round. A call after the fixpoint ends the step. -/
def advanceRound (step : NullabilityStep) : Action Round := do
  if step.finished then throw (.mistake .stepFinished)
  if step.rounds.fixpoint then
    modify fun t => { t with nullability := some { step with finished := true } }
    return { number := step.rounds.rounds, fixpoint := true }
  let (round, rounds, g) := step.rounds.advance (← get).grammar
  modify fun t => { t with grammar := g, nullability := some { step with rounds } }
  return round

def solveNullability (step : NullabilityStep) : Action (List Round) := do
  let (found, rounds, g) := step.rounds.solve (← get).grammar
  modify fun t =>
    { t with grammar := g, nullability := some { step with rounds, finished := true } }
  return found

def resetNullability (step : NullabilityStep) : Action Unit := do
  let (rounds, g) := Nullability.start (← get).grammar
  modify fun t =>
    { t with grammar := g, nullability := some { step with rounds, finished := false } }

/-! ### The steps with sets -/

/-- The id of the group with a name. -/
def groupId (p : Propagation) (name : String) : Except Fault String :=
  match p.graph.findNode? (.string name) (some .group) with
  | some n => .ok n.id
  | none => .error (.mistake (.noSuchGroup name))

/-- The sets of the groups by name; of groups with one name the last counts. -/
def setsByName (p : Propagation) : Assoc String NameSet :=
  .ofList (p.graph.groups.map fun n => (n.label.text, p.computedOf n.id))

def commitFirstLeaf (names : NameSet) (g : Grammar) (leaf : Node) : Grammar :=
  match leaf.label.string?.bind g.symbol? with
  | some s => if s.isTerminal || s.isNonterminal then g.setFirst s names else g
  | none => g

/-- Writes the first sets of the groups to the symbols in them. -/
def commitFirst (p : Propagation) (g : Grammar) : Grammar :=
  p.graph.groups.foldl
    (fun g n => (p.graph.members n.id).foldl (commitFirstLeaf (p.computedOf n.id)) g) g

def commitFollowLeaves (names : NameSet) : List Node → Action Unit
  | [] => pure ()
  | leaf :: rest => do
    match (← get).grammar.nonterminals.get? (Naming.innerName leaf.label.text) with
    | none => throw (.breach (.leafNotNonterminal leaf.label))
    | some s =>
      modifyGrammar fun g => g.setFollow s names
      commitFollowLeaves names rest

/-- Whether a group holds follow sets, and not first sets carried over. -/
def isFollowGroup (n : Node) : Bool := ("Follow(".toList).isPrefixOf n.label.text.toList

/-- Writes the follow sets of groups to the nonterminals in them. -/
def commitFollow (p : Propagation) : List Node → Action Unit
  | [] => pure ()
  | n :: rest => do
    if isFollowGroup n then commitFollowLeaves (p.computedOf n.id) (p.graph.members n.id)
    commitFollow p rest

def commit (kind : SetKind) (p : Propagation) : Action Unit :=
  match kind with
  | .first => modifyGrammar (commitFirst p)
  | .follow => commitFollow p p.graph.groups

/-- Checks a step; if it is correct, its sets are written to the grammar and it is finished. -/
def checkSets (kind : SetKind) (p : Propagation) : Action Verdict := do
  let verdict ← ofExcept p.check
  if verdict.ok && !p.finished then
    commit kind p
    modify fun t => t.putSetStep kind { p with finished := true }
  return verdict

def solveSets (kind : SetKind) (p : Propagation) : Action (List String) := do
  let (ids, p) := p.solve
  modify fun t => t.putSetStep kind p
  return ids

/-! ### All steps -/

def table : Action LookaheadTable := do
  let t ← get
  if !t.setStepFinished .follow then throw (.mistake .previousStepOpen)
  ofExcept (LookaheadTable.ofGrammar t.grammar)

/-- Solves and checks a step that was just started. -/
def settleSets (kind : SetKind) (p : Propagation) : Action Verdict := do
  let (_, p) := p.solve
  modify fun t => t.putSetStep kind p
  checkSets kind p

def requireCorrect (kind : SetKind) : Verdict → Action Unit
  | .correct => pure ()
  | .wrong d => throw (.breach (.notConverged kind.name d.message))

/-- Starts and solves all steps and gives the table. -/
def solveAll : Action LookaheadTable := do
  let step ← startNullability
  let _ ← solveNullability step
  let first ← startFirst
  requireCorrect .first (← settleSets .first first)
  let follow ← startFollow
  requireCorrect .follow (← settleSets .follow follow)
  table

def ensureNullability : Action Unit := do
  if !(← get).nullabilityFinished then
    let step ← startNullability
    let _ ← solveNullability step

def emptyGraph : Action Graph := do
  match (← get).nullability with
  | some step => return step.graph
  | none => return (← startNullability).graph

def firstGraph : Action Graph := do
  match (← get).first with
  | some p => return p.graph
  | none => return (← startFirst).graph

def followGraph : Action Graph := do
  if !(← get).setStepFinished .first then
    let first ← startFirst
    let _ ← settleSets .first first
  match (← get).follow with
  | some p => return p.graph
  | none => return (← startFollow).graph

/-- The canonical graph of a step; the steps before it are solved if they are not finished. -/
def graphOf : GraphPhase → Action Graph
  | .empty => emptyGraph
  | .first => do
    ensureNullability
    firstGraph
  | .follow => do
    ensureNullability
    followGraph

/-- The canonical graph of a step that is named in letters of any case. -/
def phaseGraph (name : String) : Action Graph :=
  match GraphPhase.ofName? (Text.lower name) with
  | some phase => graphOf phase
  | none => do
    ensureNullability
    throw (.unknownPhase (Text.lower name))

end Tutor

end Lookahead
