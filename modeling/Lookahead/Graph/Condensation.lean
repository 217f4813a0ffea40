import Lookahead.Digraph
import Lookahead.Graph.Naming

/-!
# Condensing a graph

Leaves that can reach each other are put into one group. Leaf edges between different
groups give one group edge for each ordered pair of groups.
-/

namespace Lookahead.Graph

/-- The leaves of a kind that lie in no group. -/
def pending (g : Graph) (kind : NodeKind) : List Node :=
  g.leaves.filter fun n => n.kind = kind && n.group.isNone

/-- The edges between the given nodes, as pairs of ids. -/
def linksWithin (g : Graph) (ids : List String) : List (String × String) :=
  (g.edges.filter fun e => ids.contains e.source && ids.contains e.target).map
    fun e => (e.source, e.target)

def setGroups (group : String) : List String → Edit Unit
  | [] => pure ()
  | id :: rest => do
    setGroup id (some group)
    setGroups group rest

/-- Makes a group of the nodes with the given ids. -/
def addGroup (kind : NodeKind) (ids : List String) : Edit Node := do
  let g ← get
  match Naming.group kind (ids.filterMap g.node?) with
  | .error f => throw f
  | .ok name =>
    let group ← addNode .group (.string name)
    setGroups group.id ids
    return group

def addGroups (kind : NodeKind) : List (List String) → Edit (List Node)
  | [] => pure []
  | ids :: rest => do
    let group ← addGroup kind ids
    let more ← addGroups kind rest
    return group :: more

/-- Joins the groups at the ends of leaf edges that touch one of the given nodes. A pair of groups
that is joined already, and a group with itself, is not joined. -/
def joinGroups (touched : List String) : (joined : List (String × String)) → List Edge → Edit Unit
  | _, [] => pure ()
  | joined, e :: rest => do
    let g ← get
    if e.isGroupEdge || !(touched.contains e.source || touched.contains e.target) then
      joinGroups touched joined rest
    else match g.node? e.source, g.node? e.target with
      | some source, some target =>
        if source.isGroup || target.isGroup then joinGroups touched joined rest
        else match source.group, target.group with
          | some a, some b =>
            if a = b || joined.contains (a, b) then joinGroups touched joined rest
            else do
              let _ ← addEdge a b true
              joinGroups touched ((a, b) :: joined) rest
          | _, _ => throw (.breach (.ungroupedEnd (g.edgeName e)))
      | none, _ => throw (.breach (.unknownNode e.source))
      | _, none => throw (.breach (.unknownNode e.target))

/-- Groups the leaves of a kind that lie in no group and gives the new groups. -/
def condense (kind : NodeKind) : Edit (List Node) := do
  let g ← get
  let ids := (g.pending kind).map Node.id
  if ids.isEmpty then return []
  let groups ← addGroups kind (Digraph.components (g.linksWithin ids) ids)
  let g ← get
  let joined := (g.edges.filter Edge.isGroupEdge).map fun e => (e.source, e.target)
  joinGroups ids joined g.edges
  return groups

/-- The graph that an edit leaves, if it is not refused. -/
def Edit.result {α : Type} (edit : Edit α) (g : Graph) : Except Fault Graph :=
  match edit g with
  | .ok _ g => .ok g
  | .error f _ => .error f

end Lookahead.Graph
