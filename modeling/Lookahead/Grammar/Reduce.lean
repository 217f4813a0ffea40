import Lookahead.Closure
import Lookahead.Grammar.Edit

/-!
# Reducing a grammar

A nonterminal is productive if one of its productions has a right side of terminals
and productive nonterminals. Reducing removes the productions with an unproductive
symbol on the right, then those whose left side cannot be reached from the start
through the productions that are left.
-/

namespace Lookahead.Grammar

/-- The names of the nonterminals on the right side. -/
def nonterminalNames (p : Production) : List String :=
  (p.right.filter Symbol.isNonterminal).map Symbol.name

def productiveNames (g : Grammar) : List String :=
  Rule.closure (g.productionList.map fun p => ⟨p.left.name, nonterminalNames p⟩) []

/-- The names reached from the start through the given productions. -/
def reachableNames (kept : List Production) : List String :=
  Rule.closure (kept.flatMap fun p => (nonterminalNames p).map fun n => ⟨n, [p.left.name]⟩)
    [Symbol.startName]

/-- The productions that no derivation of a terminal word from the start uses. -/
def useless (g : Grammar) : List Production :=
  let productive := g.productiveNames
  let isKept (p : Production) : Bool := (nonterminalNames p).all productive.contains
  let reachable := reachableNames (g.productionList.filter isKept)
  g.productionList.filter fun p => !(isKept p && reachable.contains p.left.name)

/-- Removes the productions of a list in order. -/
def removeAll : List Production → Edit Unit
  | [] => pure ()
  | p :: rest => do
    remove p
    removeAll rest

/-- Removes the useless productions and gives them in order. -/
def reduce : Edit (List Production) := do
  let g ← get
  if g.startProduction?.isNone then throw (.mistake .noStart)
  if !g.productiveNames.contains Symbol.startName then throw (.mistake .nothingProductive)
  let removed := g.useless
  Edit.orRestore (removeAll removed)
  return removed

end Lookahead.Grammar
