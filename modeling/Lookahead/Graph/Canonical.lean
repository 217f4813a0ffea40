import Lookahead.Grammar.Basic
import Lookahead.Graph.Condensation

/-!
# The dependency graphs of a grammar

Each step has one graph, made of the grammar and of the nullable symbols found so far.
In the first step an edge leads from a symbol to every nonterminal whose production
uses it. In the second an edge carries first sets from a symbol to the nonterminals
that can begin with it. In the third the groups of the second are carried over, and
edges carry first sets and follow sets into the follow sets of nonterminals.

Edges are given as pairs of labels; a pair whose edge name occurred before is left
out.
-/

namespace Lookahead.Graph

open Naming (terminalLeaf carried followLeaf endLeaf component)

/-- Adds leaf edges between the nodes of a kind with the given labels. -/
def link (kind : NodeKind) : (seen : List String) → List (String × String) → Graph →
    Except Fault Graph
  | _, [], g => .ok g
  | seen, (source, target) :: rest, g =>
    let name := source ++ "->" ++ target
    if seen.contains name then link kind seen rest g
    else match g.findNode? (.string source) (some kind),
        g.findNode? (.string target) (some kind) with
      | some a, some b => link kind (name :: seen) rest (g.appendEdge a.id b.id)
      | _, _ => .error (.breach (.endNotBuilt name))

def appendLeaves (kind : NodeKind) (labels : List String) (g : Graph) : Graph :=
  labels.foldl (fun g (label : String) => g.appendNode kind (.string label)) g

/-- The elements up to the first one at which to stop, that one included. -/
def takeThrough {α : Type} (stop : α → Bool) : List α → List α
  | [] => []
  | a :: rest => if stop a then [a] else a :: takeThrough stop rest

/-- The labels joined in the graph of the nullability step. -/
def nullabilityLinks (grammar : Grammar) : List (String × String) :=
  grammar.productionList.flatMap fun p => p.right.map fun s => (s.name, p.left.name)

def nullability (grammar : Grammar) : Except Fault Graph :=
  link .empty [] (nullabilityLinks grammar)
    (appendLeaves .empty (grammar.nullabilitySymbols.map Symbol.name) { phase := "Empty" })

/-- The symbols of a right side that a word derived from it can begin with. -/
def openers (grammar : Grammar) (right : List Symbol) : List Symbol :=
  takeThrough (fun s => !grammar.nullable s || s.isEpsilon) right

/-- The labels joined in the graph of the first step. -/
def firstLinks (grammar : Grammar) : List (String × String) :=
  (grammar.terminalList.map fun t => (terminalLeaf t.name, t.name)) ++
    grammar.productionList.flatMap fun p =>
      (openers grammar p.right).map fun s => (s.name, p.left.name)

def firstLeaves (grammar : Grammar) : List String :=
  grammar.terminalList.map Symbol.name ++ grammar.nonterminalList.map Symbol.name ++
    (if 0 < grammar.references Symbol.epsilon then [Symbol.epsilon.name] else []) ++
    grammar.terminalList.map fun t => terminalLeaf t.name

def first (grammar : Grammar) (condensed : Bool := true) : Except Fault Graph := do
  let g ← link .first [] (firstLinks grammar)
    (appendLeaves .first (firstLeaves grammar) { phase := "First" })
  if condensed then (condense .first).result g else return g

/-- The labels joined because `x` stands before `rest` in a production of `left`. -/
def contributions (grammar : Grammar) (left x : Symbol) (rest : List Symbol) :
    List (String × String) :=
  (takeThrough (fun y => !grammar.nullable y) rest).map
      (fun y => (carried y.name, followLeaf x.name)) ++
    if rest.all grammar.nullable then [(followLeaf left.name, followLeaf x.name)] else []

def followLinksOf (grammar : Grammar) (left : Symbol) : List Symbol → List (String × String)
  | [] => []
  | x :: rest =>
    (if x.isNonterminal then contributions grammar left x rest else []) ++
      followLinksOf grammar left rest

/-- The labels joined in the graph of the follow step. -/
def followLinks (grammar : Grammar) : List (String × String) :=
  grammar.productionList.flatMap fun p =>
    if p.isEpsilon then [] else followLinksOf grammar p.left p.right

/-- Carries the groups of the first step over; gives the new ids by the old ones. -/
def carryGroups (first : List Node) (g : Graph) : Assoc String String × Graph :=
  first.foldl
    (fun (ids, g) n => (ids.put n.id (g.nodeId g.nextNode),
      g.appendNode .group (.string (carried n.label.text))))
    ({}, g)

/-- Carries the leaves of the first step over into the carried groups. -/
def carryLeaves (ids : Assoc String String) : List Node → Graph → Except Fault Graph
  | [], g => .ok g
  | n :: rest, g =>
    match n.group.bind ids.get? with
    | none => .error (.breach (.ungroupedLeaf n.label))
    | some group =>
      carryLeaves ids rest (g.appendNode .follow (.string (carried n.label.text)) (some group))

/-- The edges between groups of the first step, by the new ids. -/
def carriedEdges (ids : Assoc String String) (first : Graph) : List (String × String) :=
  (first.edges.filter Edge.isGroupEdge).filterMap fun e => do
    return (← ids.get? e.source, ← ids.get? e.target)

def follow (grammar : Grammar) (first : Graph) (condensed : Bool := true) : Except Fault Graph := do
  let (ids, g) := carryGroups first.groups { phase := "Follow" }
  let g ← carryLeaves ids first.leaves g
  let endGroup := g.nodeId g.nextNode
  let g := g.appendNode .group (.string (carried (component endLeaf)))
  let endNode := g.nodeId g.nextNode
  let g := g.appendNode .follow (.string (carried endLeaf)) (some endGroup)
  let g := appendLeaves .follow (grammar.nonterminalList.map fun n => followLeaf n.name) g
  match g.findNode? (.string (followLeaf Symbol.startName)) (some .follow) with
  | none => throw (.breach .noStartLeaf)
  | some start =>
    let g := g.appendEdge endNode start.id
    let g := (carriedEdges ids first).foldl (fun g e => g.appendEdge e.1 e.2) g
    let g ← link .follow [] (followLinks grammar) g
    if condensed then (condense .follow).result g else return g

end Lookahead.Graph
