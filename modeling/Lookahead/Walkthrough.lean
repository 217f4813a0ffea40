import Lookahead.Grammar.Load
import Lookahead.Grammar.Order
import Lookahead.Text.Lines
import Lookahead.Text.Padding
import Lookahead.Tutor.Basic

/-!
# A walk through the steps

`Walkthrough.lines` solves every step of a grammar and lists what each one gives: the
rounds of nullability, the sets of every group and the lookahead table. Each canonical
graph is also compared with the drawing that shows just itself. Of a grammar text that
cannot be read only the message is listed.
-/

namespace Lookahead.Walkthrough

open Text (padStart quote)

def truthText (b : Bool) : String := if b then "True" else "False"

def grammarLines (g : Grammar) (start : Option Symbol) : List String :=
  ["\n[Grammar]", "Start: " ++ start.elim "(none)" Symbol.name] ++
    g.productionList.map g.numbered ++ ["\n[Terminals]", Symbol.row g.terminalList, "\n[Nonterminals]", Symbol.row g.nonterminalList]

/-- The new symbols of a round as a list of quoted names, or a dash. -/
def newNames (names : List String) : String :=
  if names.isEmpty then "-" else "[" ++ String.intercalate ", " (names.map quote) ++ "]"

def roundLine (r : Round) : String :=
  "  round " ++ toString r.number ++ ": +" ++ newNames r.symbols ++ " fixpoint=" ++
    truthText r.fixpoint

def nullableLine (names : List String) : String :=
  "NULLABLE: " ++ if names.isEmpty then "(none)" else String.intercalate ", " names

def nullabilityLines : Tutor.Action (List String) := do
  let step ← Tutor.startNullability
  let rounds ← Tutor.solveNullability step
  let verdict ← Tutor.ofExcept (step.graph.check step.graph.toJson)
  return "\n[NULLABLE rounds]" :: rounds.map roundLine ++
    [nullableLine (Nullability.symbols (← get).grammar),
      "  " ++ step.graph.summary ++ " self-check: " ++ verdict.message]

/-- A group in a column of 24 characters, with its set. -/
def setLine (name : String) (names : NameSet) : String := padStart 24 name ++ " : " ++ names.braced

/-- Solves and checks a step that was just started. -/
def setLines (kind : SetKind) (title : String) (p : Propagation) : Tutor.Action (List String) := do
  let selfCheck ← Tutor.ofExcept (p.graph.check p.graph.toJson)
  let (order, solved) := p.solve
  let verdict ← Tutor.settleSets kind p
  return ["  " ++ p.graph.summary ++ " self-check: " ++ selfCheck.message,
      "\n[" ++ title ++ "] activated " ++ toString order.length ++ " groups"] ++
    (Tutor.setsByName solved).entries.map (fun e => setLine e.1 e.2) ++
    ["check: " ++ verdict.message]

def tableLines (g : Grammar) (table : LookaheadTable) : List String :=
  ["\n[TABLE]", table.pretty g, "\nLL(1): " ++ truthText table.isLL1] ++
    if table.isLL1 then [] else [table.prettyConflicts g]

def stepLines : Tutor.Action (List String) := do
  let rounds ← nullabilityLines
  let firsts ← setLines .first "FIRST" (← Tutor.startFirst)
  let follows ← setLines .follow "FOLLOW" (← Tutor.startFollow)
  let table ← Tutor.table
  return rounds ++ firsts ++ follows ++ tableLines (← get).grammar table

def ofGrammar (g : Grammar) : Except Fault (List String) := do
  let t ← Tutor.ofGrammar g
  match stepLines t with
  | .ok lines _ => return grammarLines g (← g.userStart?) ++ lines
  | .error f _ => throw f

/-- The lines for a grammar text. -/
def lines (text : String) : Except Fault (List String) :=
  match Grammar.ofText (String.ofList (Text.unifyLineEnds text.toList)) with
  | .error (.text f) => .ok [f.message]
  | .error f => .error f
  | .ok g => ofGrammar g.sort

end Lookahead.Walkthrough
