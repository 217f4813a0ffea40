import Lookahead.Grammar.Edit

/-!
# Grammars from texts

The start symbol is the one that the text names, or else the left side of the first
production.
-/

namespace Lookahead.Grammar

/-- Adds productions in order. -/
def addAll : List ProductionText → Edit Unit
  | [] => pure ()
  | p :: rest => do
    let _ ← addParsed p
    addAll rest

def ofSource (source : GrammarSource) : Edit Unit := do
  addAll source.productions
  let start := source.start.getD (source.productions.head?.elim "" ProductionText.left)
  let g ← get
  if !g.nonterminals.contains start then
    throw (.text (.startUnknown start source.startLine))
  let _ ← setStart start

/-- The grammar that an edit makes out of the empty one. -/
def build (edit : Edit Unit) : Except Fault Grammar :=
  match edit {} with
  | .ok _ g => .ok g
  | .error f _ => .error f

/-- The grammar of a grammar text. -/
def ofText (text : String) : Except Fault Grammar :=
  match GrammarSource.parse text with
  | .error f => .error (.text f)
  | .ok source => build (ofSource source)

/-- Adds the productions of lines, the first with the given number; gives the first left name. -/
def addLines : (line : Nat) → List String → Edit (Option String)
  | _, [] => pure none
  | line, text :: rest =>
    match ProductionText.parse text line with
    | .error f => throw (.text f)
    | .ok p => do
      let added ← addParsed p
      let _ ← addLines (line + 1) rest
      return some added.left.name

/-- The grammar of single lines; an empty or absent start name means the first left side. -/
def ofLines (texts : List String) (start : Option String := none) : Except Fault Grammar :=
  build do
    let left ← addLines 1 texts
    let chosen := match start with
      | none => left
      | some name => if name = "" then left else some name
    match chosen with
    | none => pure ()
    | some name =>
      let _ ← setStart name

end Lookahead.Grammar
