import Lookahead.Graph.Basic

/-!
# Graphs as data

A graph is exchanged as an object with a list of nodes and a list of edges. Ids are
compared by their spelling. A drawing is such an object after its shape was checked: all
fields are there, ids are distinct, parents are groups and edges end at nodes. An object is
not read to its end if an id cannot be spelled within the given limits.
-/

namespace Lookahead

structure DrawnNode where
  id : Json
  kind : NodeKind
  label : Json
  /-- The id of the group around the node. -/
  parent : Option Json
  deriving DecidableEq, Inhabited

structure DrawnEdge where
  id : Json
  source : Json
  target : Json
  /-- The name written on the edge; without one the edge is named after its ends. -/
  name : Json
  isGroupEdge : Bool
  deriving DecidableEq, Inhabited

/-- One of some ids as a text. An id with halves of surrogate pairs has none, and the one that it gets
is longer than the others, so that different ids stay different. -/
def idText (ids : List Text.Loose) (id : Text.Loose) : String :=
  match id.tail with
  | [] => id.head
  | _ =>
    let longest := ids.foldl (fun longest id => max longest id.head.length) 0
    String.ofList (List.replicate (longest + 1) '\uFFFD') ++ toString (ids.idxOf id)

def DrawnNode.isGroup (n : DrawnNode) : Bool := n.kind = .group

structure Drawing where
  nodes : List DrawnNode
  edges : List DrawnEdge
  deriving DecidableEq, Inhabited

namespace Drawing

/-- The value of a field that must be there. -/
def require (v : Json) (field : String) (fault : FormatFault) : Except Fault Json :=
  match v.field? field with
  | some value => .ok value
  | none => .error (.format fault)

def isObject : Json → Bool
  | .object _ => true
  | _ => false

/-- The value of a field that may be absent or null. -/
def optional (v : Json) (field : String) : Option Json :=
  match v.field? field with
  | some .null => none
  | value => value

/-- Reads a node. Its id is spelled in any case, its type only to be refused. -/
def readNode (limits : Json.Limits) (index : Nat) (v : Json) : Except Fault DrawnNode := do
  if !isObject v then throw (.format (.nodeNotObject index))
  let id ← require v "id" (.nodeLacks index "id")
  let kind ← require v "type" (.nodeLacks index "type")
  let label ← require v "symbolName" (.nodeLacks index "symbolName")
  id.spellable limits
  match kind.string?.bind NodeKind.ofName? with
  | none => do
    kind.spellable limits
    throw (.format (.unknownType id kind))
  | some kind => return ⟨id, kind, label, optional v "parentId"⟩

/-- Reads nodes in order; no id may occur twice or among those read before. -/
def readNodes (limits : Json.Limits) : (index : Nat) → (seen : List Text.Loose) → List Json →
    Except Fault (List DrawnNode)
  | _, _, [] => .ok []
  | index, seen, v :: rest => do
    let n ← readNode limits index v
    if seen.contains n.id.spelling then throw (.format (.duplicateNode n.id))
    let more ← readNodes limits (index + 1) (n.id.spelling :: seen) rest
    return n :: more

/-- Refuses a parent that is not the id of a group. -/
def checkParents (limits : Json.Limits) (groups : List Text.Loose) :
    List DrawnNode → Except Fault Unit
  | [] => .ok ()
  | n :: rest =>
    match n.parent with
    | none => checkParents limits groups rest
    | some parent => do
      parent.spellable limits
      if !groups.contains parent.spelling then throw (.format (.unknownParent n.id parent))
      checkParents limits groups rest

/-- Reads an edge. Its id is spelled, its ends are not yet. -/
def readEdge (limits : Json.Limits) (index : Nat) (v : Json) : Except Fault DrawnEdge := do
  if !isObject v then throw (.format (.edgeNotObject index))
  let id ← require v "id" (.edgeLacks index "id")
  let source ← require v "sourceId" (.edgeLacks index "sourceId")
  let target ← require v "targetId" (.edgeLacks index "targetId")
  id.spellable limits
  return ⟨id, source, target, (v.field? "semanticName").getD .null,
    (v.field? "isGroupEdge").elim false Json.truthy⟩

/-- Refuses an end of an edge that is not the id of a node. -/
def checkEnd (limits : Json.Limits) (nodes : List Text.Loose) (e : DrawnEdge) (id : Json) :
    Except Fault Unit := do
  id.spellable limits
  if !nodes.contains id.spelling then throw (.format (.danglingEdge e.id))

/-- Reads edges in order; their ends must be among the given node ids. -/
def readEdges (limits : Json.Limits) (nodes : List Text.Loose) :
    (index : Nat) → (seen : List Text.Loose) → List Json → Except Fault (List DrawnEdge)
  | _, _, [] => .ok []
  | index, seen, v :: rest => do
    let e ← readEdge limits index v
    if seen.contains e.id.spelling then throw (.format (.duplicateEdge e.id))
    checkEnd limits nodes e e.source
    checkEnd limits nodes e e.target
    let more ← readEdges limits nodes (index + 1) (e.id.spelling :: seen) rest
    return e :: more

/-- The list in a field; an absent field counts as the empty list. -/
def listField (v : Json) (field : String) : Except Fault (List Json) :=
  match v.field? field with
  | none => .ok []
  | some (.list items) => .ok items
  | some _ => .error (.format .listsExpected)

/-- Checks the shape of a graph given as data. Ids, ends and parents are spelled on the way. -/
def ofJson (v : Json) (limits : Json.Limits := {}) : Except Fault Drawing := do
  if !isObject v then throw (.format .notAnObject)
  let rawNodes ← listField v "nodes"
  let rawEdges ← listField v "edges"
  let nodes ← readNodes limits 0 [] rawNodes
  checkParents limits ((nodes.filter DrawnNode.isGroup).map fun n => n.id.spelling) nodes
  let edges ← readEdges limits (nodes.map fun n => n.id.spelling) 0 [] rawEdges
  return ⟨nodes, edges⟩

def nodeIds (d : Drawing) : List Text.Loose := d.nodes.map fun n => n.id.spelling

def edgeIds (d : Drawing) : List Text.Loose := d.edges.map fun e => e.id.spelling

/-- The nodes with the groups before the others. -/
def ordered (d : Drawing) : List DrawnNode :=
  d.nodes.filter DrawnNode.isGroup ++ d.nodes.filter fun n => !n.isGroup

/-- Adds nodes, which lie in no group yet. -/
def addNodes (ids : List Text.Loose) : List DrawnNode → Graph.Edit Unit
  | [] => pure ()
  | n :: rest => do
    let _ ← Graph.addNode n.kind n.label none (some (idText ids n.id.spelling))
    addNodes ids rest

/-- Puts nodes into the groups around them. -/
def setParents (ids : List Text.Loose) : List DrawnNode → Graph.Edit Unit
  | [] => pure ()
  | n :: rest =>
    match n.parent with
    | none => setParents ids rest
    | some parent => do
      Graph.setGroup (idText ids n.id.spelling) (some (idText ids parent.spelling))
      setParents ids rest

def addEdges (nodes edges : List Text.Loose) : List DrawnEdge → Graph.Edit Unit
  | [] => pure ()
  | e :: rest => do
    let _ ← Graph.addEdge (idText nodes e.source.spelling) (idText nodes e.target.spelling)
      e.isGroupEdge (some (idText edges e.id.spelling))
    addEdges nodes edges rest

/-- Builds the graph of a drawing. Parents are set when all nodes are there. -/
def build (d : Drawing) : Graph.Edit Unit := do
  addNodes d.nodeIds d.ordered
  setParents d.nodeIds d.nodes
  addEdges d.nodeIds d.edgeIds d.edges

end Drawing

namespace Graph

/-- The graph that data describes. -/
def ofJson (v : Json) (phase : String := "User") (limits : Json.Limits := {}) :
    Except Fault Graph :=
  match Drawing.ofJson v limits with
  | .error f => .error f
  | .ok d =>
    match d.build { phase } with
    | .ok _ g => .ok g
    | .error f _ => .error f

def nodeJson (n : Node) : Json :=
  .ofFields ([("id", .string n.id), ("type", .string n.kind.name), ("symbolName", n.label)] ++
    n.group.toList.map fun (group : String) => ("parentId", .string group))

def edgeJson (g : Graph) (e : Edge) : Json :=
  .ofFields [("id", .string e.id), ("sourceId", .string e.source), ("targetId", .string e.target),
    ("semanticName", .string (g.edgeName e)), ("isGroupEdge", .bool e.isGroupEdge)]

/-- The graph as data. -/
def toJson (g : Graph) : Json :=
  .ofFields [("nodes", .list (g.nodes.map nodeJson)), ("edges", .list (g.edges.map g.edgeJson))]

end Graph

end Lookahead
