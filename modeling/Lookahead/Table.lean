import Lookahead.Grammar.Basic
import Lookahead.Text.Padding

/-!
# Lookahead tables

A production is listed in the cells of its left side under every symbol that a word
derived from its right side can begin with, and, if its right side can vanish, under
every symbol that can follow its left side. A grammar is LL(1) if no cell lists two
productions.
-/

namespace Lookahead

open Text (padEnd)

structure LookaheadTable where
  rows : List String
  columns : List String
  cells : Assoc String (Assoc String (List Production))
  deriving DecidableEq, Inhabited

namespace Grammar

/-- The first set of a sequence of symbols and whether all of it can vanish, by the sets found so
far. -/
def firstOfSequence (g : Grammar) : List Symbol → NameSet × Bool
  | [] => ({}, true)
  | s :: rest =>
    if s.isEpsilon then g.firstOfSequence rest
    else if s.isTerminal then (NameSet.ofList [s.name], false)
    else if !g.nullable s then (g.first s, false)
    else
      let (names, vanishes) := g.firstOfSequence rest
      ((g.first s).union names, vanishes)

/-- The symbols under which a production is listed. -/
def lookahead (g : Grammar) (p : Production) : NameSet :=
  let (names, vanishes) := g.firstOfSequence p.right
  if vanishes then names.union (g.follow p.left) else names

end Grammar

namespace LookaheadTable

def cell? (t : LookaheadTable) (row column : String) : Option (List Production) := do
  (← t.cells.get? row).get? column

/-- The productions in a cell; a row or column that is not there is refused by its name. -/
def cell (t : LookaheadTable) (row column : String) : Except Fault (List Production) :=
  match t.cells.get? row with
  | none => .error (.missing row)
  | some cells => match cells.get? column with
    | none => .error (.missing column)
    | some ps => .ok ps

def list (t : LookaheadTable) (row column : String) (p : Production) :
    Except Fault LookaheadTable :=
  match t.cells.get? row with
  | none => .error (.missing row)
  | some cells =>
    .ok { t with
      cells := t.cells.put row (cells.put column ((cells.get? column).getD [] ++ [p])) }

/-- Lists a production in the given columns of its row. -/
def listAll (p : Production) : List String → LookaheadTable → Except Fault LookaheadTable
  | [], t => .ok t
  | column :: rest, t => do listAll p rest (← t.list p.left.name column p)

def addProductions (g : Grammar) : List Production → LookaheadTable → Except Fault LookaheadTable
  | [], t => .ok t
  | p :: rest, t => do
    let names := g.lookahead p
    addProductions g rest (← listAll p (t.columns.filter fun c => c ∈ names) t)

def blank (rows columns : List String) : LookaheadTable :=
  let row : Assoc String (List Production) := .ofList (columns.map fun c => (c, []))
  ⟨rows, columns, .ofList (rows.map fun r => (r, row))⟩

/-- The table of a grammar by the sets found so far. -/
def ofGrammar (g : Grammar) : Except Fault LookaheadTable :=
  addProductions g g.productionList
    (blank (g.nonterminalList.map Symbol.name) (g.followSymbols.map Symbol.name))

def content (t : LookaheadTable) (row column : String) : List Production :=
  (t.cell? row column).getD []

structure Entry where
  row : String
  column : String
  productions : List Production
  deriving DecidableEq, Repr

/-- The entries that list at least a number of productions, row by row. -/
def entriesFrom (t : LookaheadTable) (least : Nat) : List Entry :=
  t.rows.flatMap fun row => t.columns.filterMap fun column =>
    let productions := t.content row column
    if least ≤ productions.length then some ⟨row, column, productions⟩ else none

def conflicts (t : LookaheadTable) : List Entry := t.entriesFrom 2

def isLL1 (t : LookaheadTable) : Bool := t.conflicts.isEmpty

def widest (texts : List String) (least : Nat) : Nat :=
  texts.foldl (fun w s => max w s.length) least

def cellText (g : Grammar) (t : LookaheadTable) (row column : String) : String :=
  String.intercalate " | " ((t.content row column).map g.shown)

/-- The table in columns of fixed width. -/
def pretty (t : LookaheadTable) (g : Grammar) : String :=
  let head := widest t.rows 1
  let width (column : String) := widest (t.rows.map fun r => cellText g t r column) column.length
  let columns := t.columns.map fun c => (c, width c)
  let line (first : String) (texts : List String) : String :=
    padEnd head first ++ " | " ++ String.intercalate " | " texts
  let header := line "" (columns.map fun c => padEnd c.2 c.1)
  let rule := String.ofList (List.replicate header.length '-')
  let body := t.rows.map fun r => line r (columns.map fun c => padEnd c.2 (cellText g t r c.1))
  String.intercalate "\n" (header :: rule :: body)

/-- One line for every cell that lists several productions. -/
def prettyConflicts (t : LookaheadTable) (g : Grammar) : String :=
  if t.isLL1 then "(no conflicts)"
  else
    String.intercalate "\n" (t.conflicts.map fun e =>
      "row " ++ e.row ++ ", on " ++ e.column ++ ": " ++
        String.intercalate " / " (e.productions.map g.shown))

/-- The table as data, by the names of the productions. -/
def toJson (t : LookaheadTable) : Json :=
  let cellJson (ps : List Production) : Json := .list (ps.map fun p => .string p.name)
  .ofFields (t.cells.entries.map fun row =>
    (row.1, .ofFields (row.2.entries.map fun c => (c.1, cellJson c.2))))

end LookaheadTable

end Lookahead
