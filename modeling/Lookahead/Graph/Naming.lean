import Lookahead.Graph.Basic
import Lookahead.Text.Lines

/-!
# Names in dependency graphs

Groups and the leaves of the later steps are named after the symbols they stand for.
`innerName` and `leafTerminal?` read these names back: the one gives what stands
between the outermost parentheses, the other what stands between braces.
-/

namespace Lookahead.Naming

/-- The leaf from which the first sets of a terminal start. -/
def terminalLeaf (name : String) : String := "\x7b" ++ name ++ "\x7d"

/-- The name, in the follow step, of a node or group of the first step. -/
def carried (name : String) : String := "Fε(" ++ name ++ ")"

def followLeaf (name : String) : String := "Follow(" ++ name ++ ")"

def endLeaf : String := terminalLeaf Symbol.endOfInput.name

def component (names : String) : String := "SCC(" ++ names ++ ")"

/-- What stands before the last closing parenthesis of the line, if that is not empty. -/
def beforeLastClose? (s : List Char) : Option (List Char) :=
  match (s.takeWhile (· ≠ '\n')).reverse.dropWhile (· ≠ ')') with
  | [] => none
  | _ :: rest => if rest.isEmpty then none else some rest.reverse

def inner? : List Char → Option (List Char)
  | [] => none
  | c :: rest =>
    if c = '(' then
      match beforeLastClose? rest with
      | some s => some s
      | none => inner? rest
    else inner? rest

/-- What stands between the outermost parentheses, or the whole name if there are none. -/
def innerName (name : String) : String := ((inner? name.toList).map String.ofList).getD name

/-- The terminal of a leaf from which first sets start. -/
def leafTerminal? (name : String) : Option String :=
  match Text.dropLineFeed name.toList with
  | '\x7b' :: body =>
    let inside := body.dropLast
    if body.getLast? = some '\x7d' && !inside.isEmpty && !inside.contains '\n' then
      some (String.ofList inside)
    else none
  | _ => none

/-- The inner names of labels; a label that is not a text has none. -/
def innerNames : List Json → Except Fault (List String)
  | [] => .ok []
  | .string s :: rest => (innerNames rest).map (innerName s.text :: ·)
  | _ :: _ => .error .unsuitableValue

/-- The name of a group with the given members. -/
def group (kind : NodeKind) (members : List Node) : Except Fault String :=
  (innerNames (members.map Node.label)).map fun names =>
    let sorted := names.mergeSort fun a b => !(b < a)
    let name := component (String.intercalate ", " sorted)
    if kind = .follow then followLeaf name else name

end Lookahead.Naming
