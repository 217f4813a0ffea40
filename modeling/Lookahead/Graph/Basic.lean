import Lookahead.Fault

/-!
# Dependency graphs

Nodes and edges refer to each other by id only. A node is a leaf or a group, and a
leaf may lie in one group. The name of an edge is made of the labels of its ends each
time it is asked for. Order is the order of arrival.

An edit that is refused may already have given out an id; the state carries this.
-/

namespace Lookahead

inductive NodeKind where
  | empty
  | first
  | follow
  | group
  deriving DecidableEq, Repr, Inhabited

namespace NodeKind

def all : List NodeKind := [empty, first, follow, group]

def name : NodeKind → String
  | empty => "empty"
  | first => "first"
  | follow => "follow"
  | group => "group"

def ofName? (s : String) : Option NodeKind := all.find? fun k => k.name = s

/-- The kind that a value names, refused as a breach if there is none. -/
def read (v : Json) : Except Fault NodeKind :=
  match v.string?.bind ofName? with
  | some k => .ok k
  | none => .error (.breach (.unknownNodeKind v))

theorem ofName?_name (k : NodeKind) : ofName? k.name = some k := by
  cases k <;> decide +kernel

end NodeKind

structure Node where
  id : String
  kind : NodeKind
  label : Json
  group : Option String := none
  deriving DecidableEq, Inhabited

def Node.isGroup (n : Node) : Bool := n.kind = .group

structure Edge where
  id : String
  source : String
  target : String
  isGroupEdge : Bool := false
  deriving DecidableEq, Repr, Inhabited

structure Graph where
  /-- The word that the ids given out begin with. -/
  phase : String
  nodes : List Node := []
  edges : List Edge := []
  nextNode : Nat := 0
  nextEdge : Nat := 0
  deriving DecidableEq, Inhabited

namespace Graph

def node? (g : Graph) (id : String) : Option Node := g.nodes.find? fun n => n.id = id

def edge? (g : Graph) (id : String) : Option Edge := g.edges.find? fun e => e.id = id

def node (g : Graph) (id : String) : Except Fault Node :=
  match g.node? id with
  | some n => .ok n
  | none => .error (.breach (.unknownNode id))

def edge (g : Graph) (id : String) : Except Fault Edge :=
  match g.edge? id with
  | some e => .ok e
  | none => .error (.breach (.unknownEdge id))

/-- The first node with a label, of a kind if one is given. -/
def findNode? (g : Graph) (label : Json) (kind : Option NodeKind := none) : Option Node :=
  g.nodes.find? fun n => n.label.same label && kind.all (n.kind = ·)

def groups (g : Graph) : List Node := g.nodes.filter Node.isGroup

def leaves (g : Graph) : List Node := g.nodes.filter fun n => !n.isGroup

def members (g : Graph) (group : String) : List Node := g.nodes.filter fun n => n.group = some group

def outEdges (g : Graph) (id : String) : List Edge := g.edges.filter fun e => e.source = id

/-- The text of the label of a node. -/
def labelText (g : Graph) (id : String) : String := (g.node? id).elim "" fun n => n.label.text

def parentLabel? (g : Graph) (n : Node) : Option Json := do
  let parent ← g.node? (← n.group)
  return parent.label

def edgeName (g : Graph) (e : Edge) : String := g.labelText e.source ++ "->" ++ g.labelText e.target

/-- The label of a node as it is spelled, with the halves of surrogate pairs that its text lacks. -/
def labelSpelling (g : Graph) (id : String) : Text.Loose :=
  (g.node? id).elim "" fun n => n.label.spelling

/-- The name of an edge as the labels are spelled. -/
def edgeSpelling (g : Graph) (e : Edge) : Text.Loose :=
  g.labelSpelling e.source ++ "->" ++ g.labelSpelling e.target

theorem text_edgeSpelling (g : Graph) (e : Edge) : (g.edgeSpelling e).text = g.edgeName e := by
  have hlabel (id : String) : (g.labelSpelling id).text = g.labelText id := by
    rw [labelSpelling, labelText]
    cases g.node? id <;> rfl
  rw [edgeSpelling, Text.Loose.text_append, Text.Loose.text_append, hlabel, hlabel, edgeName]
  rfl

/-- The labels that are spelled for the names of the edges. -/
def spelledLabels (g : Graph) : List Json :=
  g.edges.flatMap fun e => ([e.source, e.target].filterMap g.node?).map Node.label

def edgeNames (g : Graph) : List String := g.edges.map g.edgeName

def findEdge? (g : Graph) (name : String) : Option Edge :=
  g.edges.find? fun e => g.edgeName e = name

/-- The size of a graph in words. -/
def summary (g : Graph) : String :=
  "DependencyGraph(" ++ g.phase ++ ", nodes=" ++ toString g.nodes.length ++ ", edges=" ++
    toString g.edges.length ++ ")"

def nodeId (g : Graph) (n : Nat) : String := g.phase ++ "Node" ++ toString n

def edgeId (g : Graph) (n : Nat) : String := g.phase ++ "Edge" ++ toString n

/-- Adds a node under the next id. -/
def appendNode (g : Graph) (kind : NodeKind) (label : Json) (group : Option String := none) :
    Graph :=
  { g with
    nodes := g.nodes ++ [⟨g.nodeId g.nextNode, kind, label, group⟩]
    nextNode := g.nextNode + 1 }

/-- Adds an edge under the next id. -/
def appendEdge (g : Graph) (source target : String) (isGroupEdge : Bool := false) : Graph :=
  { g with
    edges := g.edges ++ [⟨g.edgeId g.nextEdge, source, target, isGroupEdge⟩]
    nextEdge := g.nextEdge + 1 }

/-- An edit of a graph. The state that a refused edit leaves is the one it carries. -/
abbrev Edit := EStateM Fault Graph

/-- Gives out the next node id unless one is given. -/
def chooseNodeId : Option String → Edit String
  | some id => pure id
  | none => do
    let g ← get
    set { g with nextNode := g.nextNode + 1 }
    return g.nodeId g.nextNode

def chooseEdgeId : Option String → Edit String
  | some id => pure id
  | none => do
    let g ← get
    set { g with nextEdge := g.nextEdge + 1 }
    return g.edgeId g.nextEdge

/-- Refuses an id that is not that of a group, with the given fault if it is that of a leaf. -/
def requireGroup (fault : Breach) : Option String → Edit Unit
  | none => pure ()
  | some id => do
    match (← get).node? id with
    | none => throw (.breach (.unknownNode id))
    | some n => if n.isGroup then pure () else throw (.breach fault)

def requireNode (id : String) : Edit Unit := do
  if ((← get).node? id).isNone then throw (.breach (.unknownNode id))

def addNode (kind : NodeKind) (label : Json) (group : Option String := none)
    (id : Option String := none) : Edit Node := do
  requireGroup (.parentNotGroup (group.getD "") label) group
  let id ← chooseNodeId id
  let g ← get
  if (g.node? id).isSome then throw (.breach (.duplicateNode id))
  let n : Node := ⟨id, kind, label, group⟩
  set { g with nodes := g.nodes ++ [n] }
  return n

def addEdge (source target : String) (isGroupEdge : Bool := false) (id : Option String := none) :
    Edit Edge := do
  requireNode source
  requireNode target
  let id ← chooseEdgeId id
  let g ← get
  if (g.edge? id).isSome then throw (.breach (.duplicateEdge id))
  let e : Edge := ⟨id, source, target, isGroupEdge⟩
  set { g with edges := g.edges ++ [e] }
  return e

def removeEdge (id : String) : Edit Edge := do
  let g ← get
  match g.edge? id with
  | none => throw (.breach (.unknownEdge id))
  | some e =>
    set { g with edges := g.edges.filter fun e => e.id ≠ id }
    return e

/-- The node outside of a group that is removed. -/
def outside (group : String) (n : Node) : Node :=
  if n.group = some group then { n with group := none } else n

/-- Removes a node with its edges; the members of a removed group stay without a group. -/
def removeNode (id : String) : Edit Node := do
  let g ← get
  match g.node? id with
  | none => throw (.breach (.unknownNode id))
  | some n =>
    let rest := g.nodes.filter fun m => m.id ≠ id
    set { g with
      nodes := rest.map (outside id)
      edges := g.edges.filter fun e => e.source ≠ id && e.target ≠ id }
    return outside id n

/-- Puts a node into a group, or takes it out of its group. -/
def setGroup (id : String) (group : Option String) : Edit Unit := do
  requireNode id
  requireGroup (.notGroup (group.getD "")) group
  modify fun g =>
    { g with nodes := g.nodes.map fun (n : Node) => if n.id = id then { n with group } else n }

end Graph

end Lookahead
