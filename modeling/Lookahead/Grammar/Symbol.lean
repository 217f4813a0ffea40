/-!
# Grammar symbols

A symbol is a terminal, a nonterminal or one of two markers: the empty word and the
end of the input. The stamp tells symbols apart that were introduced at different
times: a symbol that leaves a grammar and comes back under its old name is new.
-/

namespace Lookahead

inductive SymbolKind where
  | terminal
  | nonterminal
  | epsilon
  | endOfInput
  deriving DecidableEq, Repr, Inhabited

namespace SymbolKind

def all : List SymbolKind := [terminal, nonterminal, epsilon, endOfInput]

def name : SymbolKind → String
  | terminal => "terminal"
  | nonterminal => "nonterminal"
  | epsilon => "epsilon"
  | endOfInput => "end_of_input"

def ofName? (s : String) : Option SymbolKind := all.find? fun k => k.name = s

end SymbolKind

structure Symbol where
  kind : SymbolKind
  name : String
  stamp : Nat := 0
  deriving DecidableEq, Repr, Inhabited

namespace Symbol

/-- Stands alone on the right side of a production of the empty word. -/
def epsilon : Symbol := ⟨.epsilon, "ε", 0⟩

def endOfInput : Symbol := ⟨.endOfInput, "$", 0⟩

def startName : String := "S'"

/-- The left side of the production that names the start symbol of the user. -/
def start : Symbol := ⟨.nonterminal, startName, 0⟩

def isTerminal (s : Symbol) : Bool := s.kind = .terminal

def isNonterminal (s : Symbol) : Bool := s.kind = .nonterminal

def isEpsilon (s : Symbol) : Bool := s.kind = .epsilon

/-- Whether a name is that of a nonterminal: one capital letter. -/
def isNonterminalName (name : String) : Bool :=
  match name.toList with
  | [c] => 'A' ≤ c && c ≤ 'Z'
  | _ => false

/-- The names of symbols, with commas between them. -/
def row (symbols : List Symbol) : String := String.intercalate ", " (symbols.map Symbol.name)

end Symbol

end Lookahead
