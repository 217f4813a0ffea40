import Lookahead.Grammar.Basic

/-!
# The order of a grammar

Sorting puts the start production first and orders the others by left side and right
side, symbols by name with the start marker first. The productions of one left side
are numbered from 0.
-/

namespace Lookahead.Grammar

/-- The place of a production in the order: start first, then left name, then right names. -/
structure RuleKey where
  group : Nat
  left : String
  right : String
  deriving DecidableEq, Repr

def ruleKey (p : Production) : RuleKey :=
  ⟨if p.left = Symbol.start then 0 else 1, p.left.name, String.join (p.right.map Symbol.name)⟩

def RuleKey.le (a b : RuleKey) : Bool :=
  a.group < b.group || (a.group = b.group &&
    (a.left < b.left || (a.left = b.left && !(b.right < a.right))))

def nameLe (a b : String) : Bool := !(b < a)

/-- Names in order, with the start marker first. -/
def nonterminalLe (a b : String) : Bool :=
  a = Symbol.startName || (b ≠ Symbol.startName && nameLe a b)

/-- Numbers productions in order, beginning again from 0 where the left name changes. -/
def numberFrom : (left : Option String) → (next : Nat) → List Production → List Production
  | _, _, [] => []
  | left, next, p :: rest =>
    let number := if left = some p.left.name then next else 0
    { p with number } :: numberFrom (some p.left.name) (number + 1) rest

/-- The grammar in order. Whoever holds an overwritten production of it sees the new number. -/
def sort (g : Grammar) : Grammar :=
  let ordered := g.productionList.mergeSort fun p q => (ruleKey p).le (ruleKey q)
  let numbered := numberFrom none 0 ordered
  { g with
    productions := .ofList (numbered.map fun p => (p.name, p))
    nonterminals := ⟨g.nonterminals.entries.mergeSort fun a b => nonterminalLe a.1 b.1⟩
    terminals := ⟨g.terminals.entries.mergeSort fun a b => nameLe a.1 b.1⟩
    amended := g.amended.mapValues fun held =>
      (numbered.find? fun p => p.stamp = held.stamp).getD held }

end Lookahead.Grammar
