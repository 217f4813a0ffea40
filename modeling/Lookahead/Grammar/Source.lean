import Lookahead.Fault
import Lookahead.Grammar.Production
import Lookahead.Text.Blank
import Lookahead.Text.Lines
import Lookahead.Text.WordCharacter

/-!
# Grammar texts

A grammar text has one production a line, `A -> X Y z`. The left side is a capital
letter and every character of the right side that is no space is a symbol. A right
side that is empty or holds only the mark of the empty word stands for the empty
word. Blank lines and lines that begin with two slashes are skipped, and one line
may name the start symbol with a directive.
-/

namespace Lookahead

open Text (isSpace isInline isWordCharacter trim trimStart trimEnd lines)

/-- A production by names. An empty right side stands for the empty word. -/
structure ProductionText where
  left : String
  right : List String
  line : Int := 1
  deriving DecidableEq, Repr, Inhabited

/-- The productions of a text in order, and its start symbol with the line that names it. -/
structure GrammarSource where
  productions : List ProductionText := []
  start : Option String := none
  startLine : Nat := 0
  deriving DecidableEq, Repr, Inhabited

namespace ProductionText

/-- Printable ASCII without the space, the dollar sign and the bar. -/
def isAllowed (c : Char) : Bool :=
  0x21 ≤ c.toNat && c.toNat ≤ 0x7E && c != '$' && c != '|'

/-- The parts before and after the first arrow. -/
def splitArrow? : List Char → Option (List Char × List Char)
  | [] => none
  | '-' :: '>' :: rest => some ([], rest)
  | c :: rest => (splitArrow? rest).map fun parts => (c :: parts.1, parts.2)

/-- The symbols of a right side whose first character stands in the given column. -/
def symbols (text : String) (line : Int) : (column : Nat) → List Char →
    Except TextFault (List String)
  | _, [] => .ok []
  | column, c :: rest =>
    if isSpace c then symbols text line (column + 1) rest
    else if isAllowed c then
      (symbols text line (column + 1) rest).map (String.singleton c :: ·)
    else .error (.symbolNotAllowed line column c text)

/-- The column, counted from 1, of the first place where `part` occurs in `text`. -/
def columnOf (part : List Char) : List Char → Nat
  | [] => 1
  | c :: rest => if part.isPrefixOf (c :: rest) then 1 else columnOf part rest + 1

/-- The column behind the last character that trimming leaves. -/
def endColumn (text : List Char) : Nat := (trimEnd text).length + 1

/-- Reads one production. -/
def parse (text : String) (line : Int := 1) : Except TextFault ProductionText :=
  let chars := text.toList
  if (trim chars).isEmpty then .error (.blankProduction line)
  else match splitArrow? chars with
    | none => .error (.missingArrow line (endColumn chars) text)
    | some (before, after) =>
      match trim before with
      | [c] =>
        let left := String.singleton c
        if !Symbol.isNonterminalName left then
          .error (.leftNotNonterminal line (columnOf [c] chars) text)
        else if trim after = Symbol.epsilon.name.toList then .ok ⟨left, [], line⟩
        else (symbols text line (before.length + 3) after).map fun right => ⟨left, right, line⟩
      | _ => .error (.leftNotSingle line text)

/-- The name of the production that a text describes. -/
def name (p : ProductionText) : String :=
  productionName p.left (if p.right.isEmpty then [Symbol.epsilon.name] else p.right)

end ProductionText

namespace GrammarSource

open ProductionText (columnOf endColumn)

def directive : List Char := "%start".toList

def isComment (line : List Char) : Bool :=
  ("//".toList).isPrefixOf (line.dropWhile isInline)

/-- Whether a line is taken for a directive, well formed or not. -/
def isDirective (line : List Char) : Bool := directive.isPrefixOf (trimStart line)

/-- The name in a directive, if the line has the form of one. -/
def directiveName? (line : List Char) : Option (List Char) :=
  let text := line.dropWhile isInline
  if !directive.isPrefixOf text then none
  else
    let rest := text.drop directive.length
    if rest.head?.any isWordCharacter then none
    else
      let operand := rest.dropWhile isInline
      let name := operand.takeWhile fun c => !isSpace c
      let tail := operand.dropWhile fun c => !isSpace c
      if tail.all isInline && !name.isEmpty then some name else none

/-- Reads a directive that names the start symbol. -/
def parseDirective (chars : List Char) (line : Nat) : Except TextFault String :=
  let text := String.ofList chars
  match directiveName? chars with
  | none => .error (.directiveMalformed line (endColumn chars) text)
  | some name =>
    if Symbol.isNonterminalName (String.ofList name) then .ok (String.ofList name)
    else .error (.startNotNonterminal line (columnOf name chars) text)

/-- What a source becomes when one more line is read. -/
def addLine (source : GrammarSource) (line : Nat) (chars : List Char) :
    Except TextFault GrammarSource :=
  if (trim chars).isEmpty || isComment chars then .ok source
  else if isDirective chars then
    if source.start.isSome then
      .error (.startRepeated line source.startLine (String.ofList chars))
    else
      (parseDirective chars line).map fun name =>
        { source with start := some name, startLine := line }
  else
    (ProductionText.parse (String.ofList chars) line).map fun p =>
      { source with productions := source.productions ++ [p] }

/-- Reads the lines in order; the first one has the given number. -/
def addLines (source : GrammarSource) : (line : Nat) → List (List Char) →
    Except TextFault GrammarSource
  | _, [] => .ok source
  | line, chars :: rest =>
    match source.addLine line chars with
    | .error f => .error f
    | .ok source => addLines source (line + 1) rest

def parse (text : String) : Except TextFault GrammarSource :=
  match addLines {} 1 (lines text.toList) with
  | .error f => .error f
  | .ok source => if source.productions.isEmpty then .error .noProductions else .ok source

end GrammarSource

end Lookahead
