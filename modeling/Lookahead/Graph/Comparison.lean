import Lookahead.Graph.Drawing

/-!
# Comparing graphs

Ids differ between two graphs of the same meaning, so a comparison looks at the kind,
label and group of nodes and at the names of edges only. What is missing is reported
before what is superfluous, nodes before edges, and what is too rare last. Either side
may be a graph or a graph given as data.
-/

namespace Lookahead

/-- What a comparison sees of a node; the parent is null without a group. -/
structure NodeView where
  kind : NodeKind
  label : Json
  parent : Json
  deriving DecidableEq, Inhabited

structure NodeKey where
  kind : NodeKind
  label : Scalar
  parent : Scalar
  deriving DecidableEq, Repr

/-- Two nodes match if their keys are equal. A node whose label is a list or an object has none. -/
def NodeView.key? (n : NodeView) : Option NodeKey := do
  return ⟨n.kind, ← n.label.scalar?, ← n.parent.scalar?⟩

/-- What a comparison sees of a graph. -/
structure View where
  nodes : List NodeView
  /-- The names of the edges. -/
  edges : List Json
  deriving DecidableEq, Inhabited

namespace View

def ofGraph (g : Graph) : View :=
  { nodes := g.nodes.map fun n => ⟨n.kind, n.label, (g.parentLabel? n).getD .null⟩
    edges := g.edges.map fun e => .string (g.edgeSpelling e) }

def labelOf (nodes : List DrawnNode) (id : Json) : Json :=
  ((nodes.find? fun n => n.id.spelling = id.spelling).map DrawnNode.label).getD .null

def edgeNameOf (nodes : List DrawnNode) (e : DrawnEdge) : Json :=
  if e.name.truthy then e.name
  else .string ((labelOf nodes e.source).spelling ++ "->" ++ (labelOf nodes e.target).spelling)

def ofDrawing (d : Drawing) : View :=
  { nodes := d.nodes.map fun n => ⟨n.kind, n.label, n.parent.elim .null (labelOf d.nodes)⟩
    edges := d.edges.map (edgeNameOf d.nodes) }

/-- The labels that are spelled for the names of edges that have none of their own. -/
def spelledLabels (d : Drawing) : List Json :=
  (d.edges.filter fun e => !e.name.truthy).flatMap fun e =>
    [labelOf d.nodes e.source, labelOf d.nodes e.target]

def ofJson (v : Json) (limits : Json.Limits := {}) : Except Fault View := do
  let d ← Drawing.ofJson v limits
  (spelledLabels d).forM (Json.spellable limits)
  return ofDrawing d

variable {α κ : Type} [DecidableEq κ]

/-- The items with their keys; refused if one has no key. -/
def keyed (key? : α → Option κ) : List α → Except Fault (List (α × κ))
  | [] => .ok []
  | a :: rest =>
    match key? a with
    | none => .error .unsuitableValue
    | some k => (keyed key? rest).map ((a, k) :: ·)

/-- The first item whose key is not among the given ones. -/
def firstMissing (key? : α → Option κ) (present : List κ) : List α → Except Fault (Option α)
  | [] => .ok none
  | a :: rest =>
    match key? a with
    | none => .error .unsuitableValue
    | some k => if present.contains k then firstMissing key? present rest else .ok (some a)

/-- The first item whose key occurs more often up to it than among the expected keys. -/
def firstSurplus : List (α × κ) → (expected : List κ) → Option α
  | [], _ => none
  | (a, k) :: rest, expected =>
    if expected.contains k then firstSurplus rest (expected.erase k) else some a

/-- Whether the same keys occur, each as often on both sides. -/
def sameKeys (items others : List (α × κ)) : Bool :=
  items.length = others.length && (items.map Prod.snd).isPerm (others.map Prod.snd)

/-- The items that have a key. -/
def keyedOnly (key? : α → Option κ) (items : List α) : List (α × κ) :=
  items.filterMap fun a => (key? a).map fun k => (a, k)

/-- The verdict where no key is missing altogether: what counts is how often the keys occur. -/
def compareCounts (nodes userNodes : List (NodeView × NodeKey))
    (edges userEdges : List (Json × Scalar)) : Except Fault Verdict :=
  if sameKeys nodes userNodes && sameKeys edges userEdges then .ok .correct
  else match firstSurplus userNodes (nodes.map Prod.snd),
    firstSurplus userEdges (edges.map Prod.snd),
    firstSurplus nodes (userNodes.map Prod.snd),
    firstSurplus edges (userEdges.map Prod.snd) with
  | some n, _, _, _ => .ok (.wrong ⟨.extraNode, n.label⟩)
  | none, some name, _, _ => .ok (.wrong ⟨.extraEdge, name⟩)
  | none, none, some n, _ => .ok (.wrong ⟨.missingNode, n.label⟩)
  | none, none, none, some name => .ok (.wrong ⟨.missingEdge, name⟩)
  | none, none, none, none => .error (.breach .noDiscrepancy)

/-- Compares the graph of a user with the canonical one. -/
def compare (canonical user : View) : Except Fault Verdict := do
  let userNodes ← keyed NodeView.key? user.nodes
  match ← firstMissing NodeView.key? (userNodes.map Prod.snd) canonical.nodes with
  | some n => return .wrong ⟨.missingNode, n.label⟩
  | none =>
    let userEdges ← keyed Json.scalar? user.edges
    match ← firstMissing Json.scalar? (userEdges.map Prod.snd) canonical.edges with
    | some name => return .wrong ⟨.missingEdge, name⟩
    | none =>
      compareCounts (keyedOnly NodeView.key? canonical.nodes) userNodes
        (keyedOnly Json.scalar? canonical.edges) userEdges

end View

/-- A graph, or data that is to describe one. -/
inductive GraphLike where
  | graph (g : Graph)
  | data (v : Json)

/-- What a comparison sees, if it can be spelled within the limits. -/
def GraphLike.view (given : GraphLike) (limits : Json.Limits := {}) : Except Fault View :=
  match given with
  | graph g => do
    g.spelledLabels.forM (Json.spellable limits)
    return View.ofGraph g
  | data v => View.ofJson v limits

/-- Compares the graph of a user with the canonical one, either of them given as data or not. -/
def GraphLike.check (canonical user : GraphLike) (limits : Json.Limits := {}) :
    Except Fault Verdict := do
  let canonical ← canonical.view limits
  let user ← user.view limits
  canonical.compare user

namespace Graph

/-- Compares data drawn by a user with a canonical graph. -/
def check (canonical : Graph) (user : Json) (limits : Json.Limits := {}) : Except Fault Verdict :=
  GraphLike.check (.graph canonical) (.data user) limits

end Graph

end Lookahead
