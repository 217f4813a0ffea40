import Lookahead.Command.Basic
import Lookahead.Files.Basic
import Lookahead.Grammar.Load
import Lookahead.Grammar.Order
import Lookahead.Grammar.Reduce
import Lookahead.Json.Reader
import Lookahead.Json.Writer
import Lookahead.Text.Lines
import Lookahead.Text.Padding

/-!
# Running a command

A command prints its answer and, beside it, notes on what it found on the way. It ends
with an exit code: 0 for success, 1 for a mistake of the user, 2 for an input that
cannot be read and 3 for a broken rule. A failure that is none of these is given to
whoever runs the command.
-/

namespace Lookahead.Command

open Text (padStart)

/-- Why a command comes to an early end. -/
inductive Failure where
  | fault (f : Fault)
  | file (f : Files.Fault)
  /-- The bytes of a file are no text. -/
  | notText
  | notJson (source : List Char) (f : Json.ReadFault)
  | noPhase
  /-- There is no path for the drawing. -/
  | noDrawing
  /-- A line holds half of a surrogate pair, which cannot be encoded. -/
  | unprintable (line : Text.Loose)
  deriving Inhabited

/-- The lines that were printed, and the lines of the notes. -/
structure Transcript where
  printed : List String := []
  noted : List String := []
  deriving DecidableEq, Repr, Inhabited

/-- The transcript with one line more, which is refused unless it is all characters. -/
def Transcript.print (t : Transcript) (line : Text.Loose) : Except Failure Transcript :=
  match line.tail with
  | [] => .ok { t with printed := t.printed ++ [line.head] }
  | _ :: _ => .error (.unprintable line)

/-- Lines, each closed by a line feed. -/
def closed (lines : List String) : String := String.join (lines.map (· ++ "\n"))

inductive Ending where
  | exit (code : Nat)
  | failed (f : Failure)
  deriving Inhabited

abbrev Session (m : Type → Type) := ExceptT Failure (StateT Transcript m)

variable {m : Type → Type} [Monad m]

def print (line : Text.Loose) : Session m Unit := do
  set (← MonadExcept.ofExcept ((← get).print line))

def note (line : String) : Session m Unit :=
  modify fun t => { t with noted := t.noted ++ [line] }

def noteAll (lines : List String) : Session m Unit :=
  modify fun t => { t with noted := t.noted ++ lines }

def ofExcept {α : Type} : Except Fault α → Session m α
  | .ok a => pure a
  | .error f => throw (.fault f)

def ofResult {α σ : Type} : EStateM.Result Fault σ α → Session m (α × σ)
  | .ok a s => pure (a, s)
  | .error f _ => throw (.fault f)

/-! ### Files -/

/-- The text that bytes stand for, with its line ends made alike. -/
def textOf (bytes : ByteArray) : Except Failure (List Char) :=
  match String.fromUTF8? bytes with
  | none => .error .notText
  | some text => .ok (Text.unifyLineEnds text.toList)

def readBytes (files : Files.Access m) (path : String) : Session m ByteArray := do
  let answer ← ExceptT.lift (StateT.lift (files.read (.ofString path)))
  match answer with
  | .error f => throw (.file f)
  | .ok bytes => return bytes

def readText (files : Files.Access m) (path : String) : Session m (List Char) := do
  MonadExcept.ofExcept (textOf (← readBytes files path))

def writeText (files : Files.Access m) (path : Files.Path) (text : String) : Session m Unit := do
  let answer ← ExceptT.lift (StateT.lift (files.write path text))
  match answer with
  | .error f => throw (.file f)
  | .ok () => return

/-! ### Loading and solving -/

def readyNote (g : Grammar) : String :=
  "[DEBUG] Grammar ready | terms=" ++ toString g.terminals.size ++ " nonterms=" ++
    toString g.nonterminals.size ++ " rules=" ++ toString g.productionList.length

/-- A note on the removed productions of a grammar. -/
def reducedNotes (g : Grammar) (removed : List Production) : List String :=
  ("[DEBUG] Grammar reduced | removed=" ++ toString removed.length) ::
    removed.map fun p => "  - " ++ g.shown p

/-- A tutor for the grammar in a file, reduced if the command asks for it, and sorted. -/
def load (files : Files.Access m) (c : Command) : Session m Tutor := do
  let g ← ofExcept (Grammar.ofText (String.ofList (← readText files c.grammarPath)))
  if c.debug then note (readyNote g)
  let reduced ← if c.reduce then do
      let (removed, smaller) ← ofResult (Grammar.reduce g)
      if c.debug then noteAll (reducedNotes g removed)
      pure smaller
    else pure g
  ofExcept (Tutor.ofGrammar reduced.sort)

def solvedNote (t : Tutor) (table : LookaheadTable) : String :=
  "[DEBUG] Phases solved | nullable rounds=" ++
    toString (t.nullability.elim 0 fun step => step.rounds.rounds) ++
    " conflicts=" ++ toString table.conflicts.length

def solve (c : Command) (t : Tutor) : Session m (LookaheadTable × Tutor) := do
  let (table, t) ← ofResult (Tutor.solveAll t)
  if c.debug then note (solvedNote t table)
  return (table, t)

/-! ### What is shown of a grammar -/

def grammarNotes (g : Grammar) : List String :=
  "\n[Grammar]" :: g.productionList.map (fun p => "  " ++ g.numbered p) ++
    ["Terminals:", "  " ++ Symbol.row g.terminalList,
      "Nonterminals:", "  " ++ Symbol.row g.nonterminalList]

/-- A nonterminal in a column of ten characters, with a set of names. -/
def setNote (s : Symbol) (names : NameSet) : String := padStart 10 s.name ++ " : " ++ names.braced

def setNotes (g : Grammar) : List String :=
  let nullable := g.nonterminalList.filter g.nullable
  "\n[NULLABLE]" :: ("  " ++ if nullable.isEmpty then "(none)" else Symbol.row nullable) ::
    "\n[FIRST(nonterminals)]" :: g.nonterminalList.map (fun s => setNote s (g.first s)) ++
    "\n[FOLLOW(nonterminals)]" :: g.nonterminalList.map (fun s => setNote s (g.follow s))

def conflictNotes (g : Grammar) (table : LookaheadTable) : List String :=
  if table.isLL1 then [] else ["\n[Conflicts Detail]", table.prettyConflicts g]

def checkedLine (g : Grammar) (table : LookaheadTable) : String :=
  "[CHECK OK] nonterms=" ++ toString g.nonterminals.size ++ " terms=" ++
    toString g.terminals.size ++ " prods=" ++ toString g.productionList.length ++
    " conflicts=" ++ toString table.conflicts.length

/-! ### The commands -/

def success : Nat := 0

def mistaken : Nat := 1

def unreadable : Nat := 2

def broken : Nat := 3

/-- The exit code for a table whose conflicts count as a mistake only if the command is strict. -/
def tableCode (strict : Bool) (table : LookaheadTable) : Nat :=
  if strict && !table.isLL1 then mistaken else success

def check (c : Command) (strict : Bool) (t : Tutor) : Session m Nat := do
  let (table, t) ← solve c t
  let g := t.grammar
  if c.debug then
    noteAll (grammarNotes g)
    noteAll (setNotes g)
    noteAll (conflictNotes g table)
  print (checkedLine g table)
  if strict && !table.isLL1 then print "[MISTAKE] Grammar is not LL(1)"
  return tableCode strict table

def showTable (c : Command) (asJson strict : Bool) (t : Tutor) : Session m Nat := do
  let (table, t) ← solve c t
  if asJson then print table.toJson.indented
  else
    print "[TABLE]"
    print (table.pretty t.grammar)
    if !table.isLL1 then
      note "[WARN] Grammar is not LL(1):"
      note (table.prettyConflicts t.grammar)
  return tableCode strict table

def requirePhase : Option GraphPhase → Session m GraphPhase
  | none => throw .noPhase
  | some phase => pure phase

/-- Prints a canonical graph or writes it to a file; an empty name counts as none. -/
def exportGraph (files : Files.Access m) (c : Command) (phase : GraphPhase)
    (output : Option String) (t : Tutor) : Session m Nat := do
  let (graph, _) ← ofResult (Tutor.graphOf phase t)
  if c.debug then note ("[DEBUG] " ++ graph.summary)
  let text := graph.toJson.indented
  match output.filter (· ≠ "") with
  | none => print text
  | some path =>
    let path := Files.Path.ofString path
    writeText files path (text ++ "\n")
    print ("[GRAPH] phase=" ++ phase.name ++ " -> " ++ path.text)
  return success

/-- The number of items in a list of a drawing. -/
def drawnCount (drawing : Json) (field : String) : Nat :=
  match drawing.field? field with
  | some (.list items) => items.length
  | _ => 0

def drawingNote (canonical : Graph) (drawing : Json) : String :=
  "[DEBUG] canonical " ++ canonical.summary ++ " | user nodes=" ++
    toString (drawnCount drawing "nodes") ++ " edges=" ++ toString (drawnCount drawing "edges")

/-- The value that bytes stand for. -/
def drawingOf (bytes : ByteArray) : Except Failure Json := do
  let source ← textOf bytes
  match Json.read source with
  | .ok drawing => return drawing
  | .error f => throw (.notJson source f)

def readDrawing (files : Files.Access m) : Option String → Session m Json
  | none => throw .noDrawing
  | some path => do MonadExcept.ofExcept (drawingOf (← readBytes files path))

/-- Tells a verdict. What is spelled keeps to the bounds of reading. -/
def announce (phase : GraphPhase) : Verdict → Session m Nat
  | .correct => do
    print ("[CHECK OK] phase=" ++ phase.name ++ " " ++ Verdict.correct.message)
    return success
  | .wrong d => do
    ofExcept (d.name.spellable Json.readingLimits)
    print ("[MISTAKE] " ++ d.wording)
    return mistaken

/-- Answers to a drawing that was read. -/
def judge (c : Command) (phase : GraphPhase) (canonical : Graph) (drawing : Json) :
    Session m Nat := do
  let verdict ← ofExcept (canonical.check drawing Json.readingLimits)
  if c.debug then note (drawingNote canonical drawing)
  announce phase verdict

/-- Compares a drawing with the canonical graph. -/
def verify (files : Files.Access m) (c : Command) (phase : GraphPhase) (path : Option String)
    (t : Tutor) : Session m Nat := do
  let (canonical, _) ← ofResult (Tutor.graphOf phase t)
  judge c phase canonical (← readDrawing files path)

def perform (files : Files.Access m) (c : Command) : Session m Nat := do
  let t ← load files c
  match c.task with
  | .check strict => check c strict t
  | .table asJson strict => showTable c asJson strict t
  | .graph phase output => exportGraph files c (← requirePhase phase) output t
  | .verify phase drawing => verify files c (← requirePhase phase) drawing t

/-! ### Endings -/

/-- What a failure adds to the transcript, and the exit code if the command answers for it. -/
def conclude (t : Transcript) (f : Failure) : Ending × Transcript :=
  let noted (lines : List String) : Transcript := { t with noted := t.noted ++ lines }
  match f with
  | .fault (.text f) => (.exit unreadable, noted ["[SYNTAX ERROR]", f.message])
  | .fault (.format f) => (.exit unreadable, noted ["[GRAPH ERROR] " ++ f.message])
  | .fault (.breach b) => (.exit broken, noted ["[INTERNAL ERROR] " ++ (Fault.breach b).message])
  | .fault (.mistake m) =>
    match t.print ("[MISTAKE] " ++ m.wording) with
    | .ok t => (.exit mistaken, t)
    | .error f => (.failed f, t)
  | .file f =>
    if f.kind = .unnameable then (.failed (.file f), t)
    else (.exit unreadable, noted ["[ERROR] " ++ f.message])
  | .notJson source (.malformed kind position) =>
    (.exit unreadable,
      noted ["[ERROR] JSONDecodeError " ++ (Json.ReadFault.malformed kind position).message source])
  | f => (.failed f, t)

/-- Runs a command and gives how it ends and what it printed. -/
def run (files : Files.Access m) (c : Command) : m (Ending × Transcript) := do
  let (answer, t) ← (perform files c).run.run {}
  match answer with
  | .ok code => return (.exit code, t)
  | .error f => return conclude t f

end Lookahead.Command
