import Lookahead.Grammar.Source
import Lookahead.Grammar.Validity

/-!
# Editing a grammar

Adding and removing productions counts the uses of every symbol: a symbol is
registered with its first use and dropped with its last. Every edit ends with a
check, and an edit that leaves the grammar invalid is undone before the breach is
reported.
-/

namespace Lookahead

namespace Grammar

/-- An edit of a grammar. The state that a refused edit leaves is the one it carries. -/
abbrev Edit := EStateM Fault Grammar

/-- Enters a symbol into the table of its kind; the markers have none. -/
def register (g : Grammar) (s : Symbol) : Grammar :=
  match s.kind with
  | .nonterminal => { g with nonterminals := g.nonterminals.put s.name s }
  | .terminal => { g with terminals := g.terminals.put s.name s }
  | _ => g

/-- Takes the name of a symbol out of the table of its kind. -/
def unregister (g : Grammar) (s : Symbol) : Grammar :=
  match s.kind with
  | .nonterminal => { g with nonterminals := g.nonterminals.erase s.name }
  | .terminal => { g with terminals := g.terminals.erase s.name }
  | _ => g

/-- One more use of a symbol. -/
def acquire (g : Grammar) (s : Symbol) : Grammar :=
  (if g.references s = 0 then g.register s else g).addReferences s 1

/-- One use less of a symbol. -/
def release (g : Grammar) (s : Symbol) : Grammar :=
  let g := g.addReferences s (-1)
  if g.references s = 0 then g.unregister s else g

/-- Lists a production and acquires its symbols, without a check. -/
def attach (g : Grammar) (p : Production) : Grammar :=
  let g := p.symbols.foldl acquire g
  { g with productions := g.productions.put p.name p }

/-- Takes a production off the list and releases its symbols, without a check. -/
def detach (g : Grammar) (p : Production) : Grammar :=
  let g := { g with productions := g.productions.erase p.name }
  let g := if p.left = Symbol.start then p.right.foldl (fun g s => g.markStart s false) g else g
  p.symbols.foldl release g

/-- The symbols whose usage is put back when an edit is undone. -/
def restorable (g : Grammar) : List Symbol :=
  Symbol.epsilon :: Symbol.start :: (g.nonterminalList ++ g.terminalList)

/-- The grammar `after` with the productions, the registered symbols and the usages of `before`. -/
def restore (before after : Grammar) : Grammar :=
  { before.restorable.foldl (fun g s => g.setUsage s (before.usage s)) after with
    productions := before.productions
    nonterminals := before.nonterminals
    terminals := before.terminals }

/-- Undoes an edit that ends in a breach. -/
def Edit.orRestore {α : Type} (edit : Edit α) : Edit α := fun before =>
  match edit before with
  | .ok a after => .ok a after
  | .error f after => .error f (if f.isBreach then before.restore after else after)

def check : Edit Unit := fun g =>
  match g.validate with
  | .ok _ => .ok () g
  | .error f => .error f g

/-- The symbol for a name: the start marker, a registered symbol, one already introduced for the
same production whatever its kind, or a new one. -/
def intern (g : Grammar) (kind : SymbolKind) (name : String) (fresh : Assoc String Symbol) :
    Symbol × Assoc String Symbol :=
  if name = Symbol.startName then (Symbol.start, fresh)
  else match (g.registry kind).get? name, fresh.get? name with
    | some s, _ => (s, fresh)
    | none, some s => (s, fresh)
    | none, none =>
      let s : Symbol := ⟨kind, name, g.issued + fresh.size + 1⟩
      (s, fresh.put name s)

def internAll (g : Grammar) : List (SymbolKind × String) → Assoc String Symbol →
    List Symbol × Assoc String Symbol
  | [], fresh => ([], fresh)
  | (kind, name) :: rest, fresh =>
    let (s, fresh) := g.intern kind name fresh
    let (more, fresh) := internAll g rest fresh
    (s :: more, fresh)

def kindOfName (name : String) : SymbolKind :=
  if Symbol.isNonterminalName name then .nonterminal else .terminal

/-- The production that a text describes, made of symbols of the grammar and new ones. -/
def production (g : Grammar) (text : ProductionText) : Production × Grammar :=
  let (left, fresh) := g.intern .nonterminal text.left {}
  let (right, fresh) := g.internAll (text.right.map fun name => (kindOfName name, name)) fresh
  let stamp := g.issued + fresh.size + 1
  (⟨stamp, left, if text.right.isEmpty then [Symbol.epsilon] else right, -1⟩,
    { g with issued := stamp })

/-- Attaches a production and checks. -/
def add (p : Production) : Edit Production :=
  Edit.orRestore do
    modify (·.attach p)
    check
    return p

/-- Adds the production that a text describes, unless one of its name is listed. -/
def addParsed (text : ProductionText) : Edit Production := do
  let g ← get
  match g.productions.get? text.name with
  | some p => return p
  | none =>
    let (p, g) := g.production text
    set g
    add p

/-- Reads and adds a production. -/
def addText (text : String) : Edit Production :=
  match ProductionText.parse text with
  | .ok p => addParsed p
  | .error f => throw (.text f)

/-- Whether exactly this production is listed under its name. -/
def lists (g : Grammar) (p : Production) : Bool :=
  (g.productions.get? p.name).any fun q => q.stamp = p.stamp

/-- Removes a listed production, and the symbols that nothing else uses. -/
def remove (p : Production) : Edit Unit := do
  let g ← get
  if !g.lists p then throw (.breach (.productionNotListed p.name))
  Edit.orRestore do
    modify (·.detach p)
    check

/-- Adds the start production of a name whose nonterminal may have to be introduced again. -/
def addStart (name : String) : Edit Production := do
  let g ← get
  let (target, fresh) := g.intern .nonterminal name {}
  let stamp := g.issued + fresh.size + 1
  set ({ g with issued := stamp }.markStart target true)
  add ⟨stamp, Symbol.start, [target], -1⟩

/-- Makes a nonterminal the start symbol: the old start production goes, a new one comes. -/
def setStart (name : String) : Edit Production := do
  let g ← get
  match g.nonterminals.get? name with
  | none => throw (.mistake (.notANonterminal name))
  | some target =>
    if target = Symbol.start then throw (.mistake (.notANonterminal name))
    match g.startProduction? with
    | none => Edit.orRestore (addStart name)
    | some old =>
      match old.right with
      | [] => throw .noStartTarget
      | s :: _ =>
        if s = target then return old
        Edit.orRestore do
          remove old
          addStart name

/-- Forgets what the analyses found about symbols and productions. -/
def resetAnalysis (g : Grammar) : Grammar :=
  let g := g.allSymbols.foldl (fun g s => g.setFindings s { nullable := s.isEpsilon }) g
  g.productionList.foldl (fun g p => g.setEmptiable p false) g

/-- Overwrites parts of a production in place, without a check and under its old key. -/
def amend (g : Grammar) (key : String) (left : Option Symbol) (right : Option (List Symbol))
    (number : Option Int) : Grammar :=
  match g.productions.get? key with
  | none => g
  | some p =>
    let p := { p with
      left := left.getD p.left
      right := right.getD p.right
      number := number.getD p.number }
    { g with productions := g.productions.put key p, amended := g.amended.put p.stamp p }

end Grammar

end Lookahead
