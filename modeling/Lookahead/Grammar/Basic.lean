import Lookahead.Assoc
import Lookahead.NameSet
import Lookahead.Fault
import Lookahead.Grammar.Production

/-!
# Grammars

A grammar keeps its productions, nonterminals and terminals in order of arrival. For
every symbol it counts the places that use it, and it holds what the analyses have
found so far. Tables have no entry for a symbol that nothing was recorded of; reading
them gives the values of a new symbol.
-/

namespace Lookahead

/-- How often productions use a symbol, and whether the user chose it as start symbol. -/
structure Usage where
  references : Int := 0
  isStart : Bool := false
  deriving DecidableEq, Repr, Inhabited

/-- What the analyses have found about a symbol. -/
structure Findings where
  nullable : Bool := false
  first : NameSet := {}
  follow : NameSet := {}
  deriving DecidableEq, Inhabited

structure Grammar where
  productions : Assoc String Production := {}
  nonterminals : Assoc String Symbol := {}
  terminals : Assoc String Symbol := {}
  usages : Assoc Symbol Usage := {}
  labels : Assoc Symbol String := {}
  found : Assoc Symbol Findings := {}
  /-- The productions, by stamp, for which it is recorded whether they derive the empty word. -/
  emptying : Assoc Nat Bool := {}
  /-- Productions whose sides were overwritten after they were added, by stamp. -/
  amended : Assoc Nat Production := {}
  /-- The last stamp given out. -/
  issued : Nat := 0
  deriving DecidableEq, Inhabited

def Symbol.summary (s : Symbol) : String :=
  "Symbol(" ++ Text.quote s.name ++ ", " ++ s.kind.name ++ ")"

def Production.summary (p : Production) : String := "Production(" ++ Text.quote p.name ++ ")"

namespace Grammar

def productionList (g : Grammar) : List Production := g.productions.values

def nonterminalList (g : Grammar) : List Symbol := g.nonterminals.values

def terminalList (g : Grammar) : List Symbol := g.terminals.values

def usage (g : Grammar) (s : Symbol) : Usage := (g.usages.get? s).getD {}

def references (g : Grammar) (s : Symbol) : Int := (g.usage s).references

def isStart (g : Grammar) (s : Symbol) : Bool := (g.usage s).isStart

/-- How a symbol is shown; its name unless something else was set. -/
def label (g : Grammar) (s : Symbol) : String := (g.labels.get? s).getD s.name

def findings (g : Grammar) (s : Symbol) : Findings :=
  (g.found.get? s).getD { nullable := s = Symbol.epsilon }

def nullable (g : Grammar) (s : Symbol) : Bool := (g.findings s).nullable

def first (g : Grammar) (s : Symbol) : NameSet := (g.findings s).first

def follow (g : Grammar) (s : Symbol) : NameSet := (g.findings s).follow

/-- Whether a production was found to derive the empty word. -/
def emptiable (g : Grammar) (p : Production) : Bool := (g.emptying.get? p.stamp).getD false

def setUsage (g : Grammar) (s : Symbol) (u : Usage) : Grammar :=
  { g with usages := g.usages.put s u }

def addReferences (g : Grammar) (s : Symbol) (n : Int) : Grammar :=
  g.setUsage s { g.usage s with references := g.references s + n }

def markStart (g : Grammar) (s : Symbol) (b : Bool) : Grammar :=
  g.setUsage s { g.usage s with isStart := b }

def setFindings (g : Grammar) (s : Symbol) (f : Findings) : Grammar :=
  { g with found := g.found.put s f }

def setNullable (g : Grammar) (s : Symbol) (b : Bool) : Grammar :=
  g.setFindings s { g.findings s with nullable := b }

def setFirst (g : Grammar) (s : Symbol) (names : NameSet) : Grammar :=
  g.setFindings s { g.findings s with first := names }

def setFollow (g : Grammar) (s : Symbol) (names : NameSet) : Grammar :=
  g.setFindings s { g.findings s with follow := names }

def setEmptiable (g : Grammar) (p : Production) (b : Bool) : Grammar :=
  { g with emptying := g.emptying.put p.stamp b }

def setLabel (g : Grammar) (s : Symbol) (label : String) : Grammar :=
  { g with labels := g.labels.put s label }

/-- The present form of a production that someone holds. -/
def current (g : Grammar) (p : Production) : Production := (g.amended.get? p.stamp).getD p

/-- The columns of the lookahead table: the terminals, then the end of the input. -/
def followSymbols (g : Grammar) : List Symbol := g.terminalList ++ [Symbol.endOfInput]

/-- The symbols that can take part in the nullability step; the empty word only if it is used. -/
def nullabilitySymbols (g : Grammar) : List Symbol :=
  (if 0 < g.references Symbol.epsilon then [Symbol.epsilon] else []) ++
    (g.nonterminalList ++ g.terminalList)

def allSymbols (g : Grammar) : List Symbol :=
  Symbol.epsilon :: Symbol.endOfInput :: (g.nonterminalList ++ g.terminalList)

def startProduction? (g : Grammar) : Option Production :=
  g.productionList.find? fun p => p.left = Symbol.start

/-- The start symbol that the user chose. -/
def userStart? (g : Grammar) : Except Fault (Option Symbol) :=
  match g.startProduction? with
  | none => .ok none
  | some p => match p.right with
    | [] => .error .noStartTarget
    | s :: _ => .ok (some s)

def symbol? (g : Grammar) (name : String) : Option Symbol :=
  match g.nonterminals.get? name, g.terminals.get? name with
  | some s, _ => some s
  | none, some s => some s
  | none, none =>
    if name = Symbol.epsilon.name then some Symbol.epsilon
    else if name = Symbol.endOfInput.name then some Symbol.endOfInput
    else none

/-- The table in which symbols of a kind are registered; the markers are in none. -/
def registry (g : Grammar) (kind : SymbolKind) : Assoc String Symbol :=
  match kind with
  | .terminal => g.terminals
  | .nonterminal => g.nonterminals
  | .epsilon => {}
  | .endOfInput => {}

def isRegistered (g : Grammar) (s : Symbol) : Bool := (g.registry s.kind).get? s.name = some s

/-- A symbol that occurs nowhere yet. -/
def newSymbol (g : Grammar) (kind : SymbolKind) (name : String) : Symbol × Grammar :=
  (⟨kind, name, g.issued + 1⟩, { g with issued := g.issued + 1 })

/-- How a production is shown. -/
def shown (g : Grammar) (p : Production) : String :=
  g.label p.left ++ " -> " ++ String.intercalate " " (p.right.map g.label)

/-- How a production is shown together with its number. -/
def numbered (g : Grammar) (p : Production) : String := g.shown p ++ p.numberMark

/-- The names and sizes of a grammar in words. -/
def summary (g : Grammar) : String :=
  let list (names : List String) :=
    (Json.list (names.map fun (name : String) => .string name)).shown
  "Grammar(nonterms=" ++ list g.nonterminals.keys ++ ", terms=" ++ list g.terminals.keys ++
    ", prods=" ++ toString g.productions.size ++ ")"

@[simp] theorem usage_setUsage (g : Grammar) (s : Symbol) (u : Usage) :
    (g.setUsage s u).usage s = u := by
  simp [usage, setUsage]

theorem usage_setUsage_of_ne (g : Grammar) {s t : Symbol} (u : Usage) (h : s ≠ t) :
    (g.setUsage s u).usage t = g.usage t := by
  simp [usage, setUsage, Assoc.get?_put_of_ne _ _ h]

@[simp] theorem findings_setFindings (g : Grammar) (s : Symbol) (f : Findings) :
    (g.setFindings s f).findings s = f := by
  simp [findings, setFindings]

theorem findings_setFindings_of_ne (g : Grammar) {s t : Symbol} (f : Findings) (h : s ≠ t) :
    (g.setFindings s f).findings t = g.findings t := by
  simp [findings, setFindings, Assoc.get?_put_of_ne _ _ h]

end Grammar

end Lookahead
