import Lookahead.Grammar.Basic

/-!
# Valid grammars

A grammar is valid if its productions are listed under their names, every symbol of
a production is registered, the empty word stands alone, and the reference counts are
the numbers of uses. `Grammar.breaches` lists what is broken, in the order in which
it is reported; a valid grammar has no breach.
-/

namespace Lookahead.Grammar

def uses (g : Grammar) (s : Symbol) : Nat :=
  (g.productionList.flatMap Production.symbols).count s

def leftBreaches (g : Grammar) (p : Production) : List Breach :=
  if p.left = Symbol.start then
    if g.nonterminals.get? Symbol.startName = some p.left then [] else [.startUnregistered]
  else
    if g.nonterminals.get? p.left.name = some p.left then [] else [.leftUnregistered p.left.name]

def rightBreaches (g : Grammar) (p : Production) (s : Symbol) : List Breach :=
  match s.kind with
  | .epsilon => if s = Symbol.epsilon ∧ p.right.length = 1 then [] else [.misplacedEpsilon p.name]
  | .nonterminal =>
    if g.nonterminals.get? s.name = some s then [] else [.nonterminalUnregistered s.name p.name]
  | .terminal =>
    if g.terminals.get? s.name = some s then [] else [.terminalUnregistered s.name p.name]
  | .endOfInput => [.unexpectedKind s.kind p.name]

def productionBreaches (g : Grammar) (key : String) (p : Production) : List Breach :=
  (if key = p.name then [] else [.misindexed key p.name]) ++
    (if p.right.isEmpty then [.emptyRightSide p.name] else []) ++
    g.leftBreaches p ++ p.right.flatMap (g.rightBreaches p)

def symbolBreaches (g : Grammar) (s : Symbol) : List Breach :=
  (if g.references s = g.uses s then []
    else [.referenceCount s.name (g.references s) (g.uses s)]) ++
    (if s ≠ Symbol.epsilon ∧ g.uses s = 0 then [.orphan s.name] else [])

/-- Everything that is broken, in the order of report. -/
def breaches (g : Grammar) : List Breach :=
  g.productions.entries.flatMap (fun e => g.productionBreaches e.1 e.2) ++
    (Symbol.epsilon :: (g.nonterminalList ++ g.terminalList)).flatMap g.symbolBreaches

def Valid (g : Grammar) : Prop := g.breaches = []

instance (g : Grammar) : Decidable g.Valid := inferInstanceAs (Decidable (g.breaches = []))

/-- Refuses an invalid grammar, naming its first breach. -/
def validate (g : Grammar) : Except Fault Unit :=
  match g.breaches with
  | [] => .ok ()
  | b :: _ => .error (.breach b)

theorem validate_eq_ok_iff {g : Grammar} : g.validate = .ok () ↔ g.Valid := by
  unfold validate Valid
  cases g.breaches <;> simp

end Lookahead.Grammar
