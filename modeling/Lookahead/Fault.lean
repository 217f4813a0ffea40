import Lookahead.Grammar.Symbol
import Lookahead.Json.Limits
import Lookahead.Verdict

/-!
# Faults

Every refusal is a cause with the data that its message needs. A text fault blames a
grammar text, a mistake blames the step of a user, a format fault blames the data of
a graph, and a breach reports that the state broke an internal rule.
-/

namespace Lookahead

open Text (quote)

/-- A line with a caret under one of its columns, counted from 1. -/
def caretLine (text : String) (column : Nat) : String :=
  text ++ "\n" ++ String.ofList (List.replicate (column - 1) ' ') ++ "^"

/-- The place of a fault in a text, as it ends the first line of a message. -/
def placeText (line : Int) (column : Nat) : String :=
  " at " ++ toString line ++ ":" ++ toString column

/-- What is wrong with a line of a grammar text, or with the text as a whole. -/
inductive TextFault where
  | blankProduction (line : Int)
  | missingArrow (line : Int) (column : Nat) (text : String)
  | leftNotSingle (line : Int) (text : String)
  | leftNotNonterminal (line : Int) (column : Nat) (text : String)
  | symbolNotAllowed (line : Int) (column : Nat) (symbol : Char) (text : String)
  | directiveMalformed (line : Int) (column : Nat) (text : String)
  | startNotNonterminal (line : Int) (column : Nat) (text : String)
  | startRepeated (line firstLine : Int) (text : String)
  | noProductions
  | startUnknown (name : String) (line : Int)
  deriving DecidableEq, Repr, Inhabited

def TextFault.message : TextFault → String
  | blankProduction line =>
    "Please enter a production! (line " ++ toString line ++ ")"
  | missingArrow line column text =>
    "Please enter a production of form A->..." ++ placeText line 1 ++ "\n" ++ caretLine text column
  | leftNotSingle line text =>
    "The left side of the production must be a single nonterminal!" ++ placeText line 1 ++ "\n" ++
      caretLine text 1
  | leftNotNonterminal line column text =>
    "The left side of the production must be a nonterminal!" ++ placeText line column ++ "\n" ++
      caretLine text column
  | symbolNotAllowed line column symbol text =>
    "The right side of the production must only contain allowed symbols! (\"" ++
      String.singleton symbol ++ "\" is not allowed)" ++ placeText line column ++ "\n" ++
      caretLine text column
  | directiveMalformed line column text =>
    "Expected '%start X'" ++ placeText line 1 ++ "\n" ++ caretLine text column
  | startNotNonterminal line column text =>
    "The start symbol must be a nonterminal!" ++ placeText line column ++ "\n" ++
      caretLine text column
  | startRepeated line firstLine text =>
    "Duplicate %start directive" ++ placeText line 1 ++ " (first at line " ++ toString firstLine ++
      ")\n" ++ caretLine text 1
  | noProductions => "Grammar contains no productions"
  | startUnknown name line => "Unknown start symbol " ++ quote name ++ placeText line 1

/-- A step that the current state does not allow. -/
inductive Mistake where
  | notANonterminal (name : String)
  | noStart
  | nothingProductive
  | previousStepOpen
  | stepFinished
  | successorActive (group successor : String)
  | alreadyActive (group : String)
  | notActive (group : String)
  | noSuchGroup (name : String)
  | discrepancy (d : Discrepancy)
  deriving DecidableEq, Inhabited

/-- The message with names as they are spelled. -/
def Mistake.wording : Mistake → Text.Loose
  | notANonterminal name => quote name ++ " is not a nonterminal of the grammar"
  | noStart => "Please select a start symbol!"
  | nothingProductive => "Grammar does not contain productive and reachable productions!"
  | previousStepOpen => "Please finish the previous step first!"
  | stepFinished => "This step is already finished!"
  | successorActive group successor =>
    group ++ " cannot be changed while " ++ successor ++ " is active!"
  | alreadyActive group => group ++ " is already active!"
  | notActive group => group ++ " is not active!"
  | noSuchGroup name => "There is no group named " ++ name ++ "!"
  | discrepancy d => d.wording

/-- The message as far as characters can show it. -/
def Mistake.message (m : Mistake) : String := m.wording.text

/-- The discrepancy that a mistake points at, if it points at one. -/
def Mistake.discrepancy? : Mistake → Option Discrepancy
  | discrepancy d => some d
  | _ => none

/-- A broken rule of the state of a grammar, a graph or a propagation. -/
inductive Breach where
  | productionNotListed (name : String)
  | misindexed (key name : String)
  | emptyRightSide (name : String)
  | leftUnregistered (name : String)
  | startUnregistered
  | misplacedEpsilon (production : String)
  | nonterminalUnregistered (name production : String)
  | terminalUnregistered (name production : String)
  | unexpectedKind (kind : SymbolKind) (production : String)
  | referenceCount (name : String) (stored : Int) (expected : Nat)
  | orphan (name : String)
  | unknownNodeKind (kind : Json)
  | parentNotGroup (parent : String) (label : Json)
  | notGroup (id : String)
  | duplicateNode (id : String)
  | duplicateEdge (id : String)
  | unknownNode (id : String)
  | unknownEdge (id : String)
  | ungroupedEnd (edge : String)
  | endNotBuilt (edge : String)
  | ungroupedLeaf (label : Json)
  | noStartLeaf
  | noCarriedGroup (name : String)
  | noEndGroup
  | linkOutsideGroups (edge : String)
  | seedOutsideGroups (id : String)
  | unknownGroup (id : String)
  | leafNotNonterminal (label : Json)
  | notConverged (phase message : String)
  | noDiscrepancy
  deriving DecidableEq, Inhabited

def Breach.detail : Breach → String
  | productionNotListed name => "production " ++ quote name ++ " is not part of this grammar"
  | misindexed key name => "production indexed as " ++ quote key ++ " is named " ++ quote name
  | emptyRightSide name => "production " ++ quote name ++ " has an empty right side"
  | leftUnregistered name => "left side " ++ quote name ++ " is not a known nonterminal"
  | startUnregistered => "start symbol S' is referenced but not registered"
  | misplacedEpsilon production => "misplaced epsilon in " ++ quote production
  | nonterminalUnregistered name production =>
    "nonterminal " ++ quote name ++ " of " ++ quote production ++ " is not registered"
  | terminalUnregistered name production =>
    "terminal " ++ quote name ++ " of " ++ quote production ++ " is not registered"
  | unexpectedKind kind production =>
    "unexpected " ++ kind.name ++ " symbol in " ++ quote production
  | referenceCount name stored expected =>
    "symbol " ++ quote name ++ " has " ++ toString stored ++ " references, expected " ++
      toString expected
  | orphan name => "orphaned symbol " ++ quote name
  | unknownNodeKind kind => "unknown node kind " ++ kind.shown
  | parentNotGroup parent label =>
    "parent " ++ quote parent ++ " of " ++ label.shown ++ " is not a group"
  | notGroup id => quote id ++ " is not a group"
  | duplicateNode id => "duplicate node id " ++ quote id
  | duplicateEdge id => "duplicate edge id " ++ quote id
  | unknownNode id => "unknown node id " ++ quote id
  | unknownEdge id => "unknown edge id " ++ quote id
  | ungroupedEnd edge => "edge " ++ quote edge ++ " touches an ungrouped node"
  | endNotBuilt edge => "edge " ++ quote edge ++ " refers to a node that was not built"
  | ungroupedLeaf label => "First node " ++ label.shown ++ " is not grouped"
  | noStartLeaf => "Follow graph requires the start production S' -> ..."
  | noCarriedGroup name => "Follow graph lacks " ++ quote name
  | noEndGroup => "Follow graph lacks the end-of-input group"
  | linkOutsideGroups edge => "group edge " ++ quote edge ++ " joins non-group nodes"
  | seedOutsideGroups id => "seed for unknown group " ++ quote id
  | unknownGroup id => "unknown group id " ++ quote id
  | leafNotNonterminal label => label.shown ++ " does not name a nonterminal"
  | notConverged phase message => phase ++ " did not converge: " ++ message
  | noDiscrepancy => "graphs differ but no discrepancy was found"

/-- What is wrong with the data of a graph. -/
inductive FormatFault where
  | notAnObject
  | listsExpected
  | nodeNotObject (index : Nat)
  | nodeLacks (index : Nat) (field : String)
  | unknownType (id kind : Json)
  | duplicateNode (id : Json)
  | unknownParent (id parent : Json)
  | edgeNotObject (index : Nat)
  | edgeLacks (index : Nat) (field : String)
  | duplicateEdge (id : Json)
  | danglingEdge (id : Json)
  deriving DecidableEq, Inhabited

def FormatFault.message : FormatFault → String
  | notAnObject => "graph must be an object with 'nodes' and 'edges'"
  | listsExpected => "'nodes' and 'edges' must be lists"
  | nodeNotObject index => "node #" ++ toString index ++ " is not an object"
  | nodeLacks index field => "node #" ++ toString index ++ " has no " ++ quote field
  | unknownType id kind => "node " ++ id.shown ++ " has unknown type " ++ kind.shown
  | duplicateNode id => "duplicate node id " ++ id.shown
  | unknownParent id parent => "node " ++ id.shown ++ " refers to unknown group " ++ parent.shown
  | edgeNotObject index => "edge #" ++ toString index ++ " is not an object"
  | edgeLacks index field => "edge #" ++ toString index ++ " has no " ++ quote field
  | duplicateEdge id => "duplicate edge id " ++ id.shown
  | danglingEdge id => "edge " ++ id.shown ++ " refers to a node that does not exist"

inductive Fault where
  | text (f : TextFault)
  | mistake (m : Mistake)
  | breach (b : Breach)
  | format (f : FormatFault)
  | unknownPhase (phase : String)
  | missing (name : String)
  /-- A value cannot take part in the comparison or the name it was meant for. -/
  | unsuitableValue
  /-- A value cannot be spelled. -/
  | unspellable (e : Json.Excess)
  /-- A start production has nothing on its right side. -/
  | noStartTarget
  deriving DecidableEq, Inhabited

namespace Fault

def message : Fault → String
  | text f => f.message
  | mistake m => m.message
  | breach b => "internal error: " ++ b.detail
  | format f => f.message
  | unknownPhase phase => "unknown phase " ++ quote phase
  | missing name => name
  | unsuitableValue => "unsuitable value"
  | unspellable e => e.message
  | noStartTarget => "start production without a target"

def isBreach : Fault → Bool
  | breach _ => true
  | _ => false

end Fault

/-- Goes on only if a value can be spelled. -/
def Json.spellable (limits : Json.Limits) (v : Json) : Except Fault Unit :=
  match v.excess limits with
  | none => .ok ()
  | some e => .error (.unspellable e)

@[simp] theorem Json.spellable_eq_ok {limits : Json.Limits} {v : Json} {a : Unit} :
    v.spellable limits = .ok a ↔ v.Fits limits := by
  rw [Json.spellable, Json.Fits]
  cases v.excess limits <;> simp

theorem Json.spellable_eq_error {limits : Json.Limits} {v : Json} {f : Fault}
    (h : v.spellable limits = .error f) : ¬v.Fits limits ∧ ∃ e, f = .unspellable e := by
  rw [Json.spellable] at h
  split at h
  · cases h
  · rename_i e he
    exact ⟨by simp [Json.Fits, he], e, (Except.error.inj h).symm⟩

end Lookahead
