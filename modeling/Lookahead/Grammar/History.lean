import Lookahead.Grammar.Order
import Lookahead.Grammar.Reduce

/-!
# Histories of a grammar

What can be done to a grammar from outside, one call after another, beginning with the
empty grammar. A refused call leaves the grammar that it carries and the history goes on
from there. Only productions that are listed can be handed in for removal.
-/

namespace Lookahead.Grammar

inductive Change where
  | add (text : String)
  | remove (p : Production)
  | setStart (name : String)
  | reduce
  | sort
  | resetAnalysis
  deriving DecidableEq

namespace Change

def perform : Change → Edit Unit
  | add text => do let _ ← addText text
  | remove p => Grammar.remove p
  | setStart name => do let _ ← Grammar.setStart name
  | reduce => do let _ ← Grammar.reduce
  | sort => modify Grammar.sort
  | resetAnalysis => modify Grammar.resetAnalysis

def Allowed (g : Grammar) : Change → Prop
  | remove p => p ∈ g.productionList
  | _ => True

instance (g : Grammar) : (c : Change) → Decidable (c.Allowed g)
  | remove p => inferInstanceAs (Decidable (p ∈ g.productionList))
  | add _ | setStart _ | reduce | sort | resetAnalysis => .isTrue trivial

/-- The grammar that a change leaves, refused or not. -/
def left (c : Change) (g : Grammar) : Grammar :=
  match c.perform g with
  | .ok _ g => g
  | .error _ g => g

end Change

/-- The grammars that calls lead to from the empty one. -/
inductive Reached : Grammar → Prop
  | empty : Reached {}
  | step {g : Grammar} (c : Change) (before : Reached g) (allowed : c.Allowed g) :
      Reached (c.left g)

end Lookahead.Grammar
