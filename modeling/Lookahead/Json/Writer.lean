import Lookahead.Json.Text

/-!
# Writing JSON

`Json.indented` puts every item on a line of its own, two spaces deeper than its
list or object. `Json.compact` writes a value on one line whatever its texts hold.
-/

namespace Lookahead.Json

/-- Characters besides the line feed at which a reader might end a line. -/
def isLineEnd (c : Char) : Bool := c == '\x85' || c == '\u2028' || c == '\u2029'

def escapeChar (oneLine : Bool) (c : Char) : List Char :=
  if c = '"' then ['\\', '"']
  else if c = '\\' then ['\\', '\\']
  else if c = '\n' then ['\\', 'n']
  else if c = '\r' then ['\\', 'r']
  else if c = '\t' then ['\\', 't']
  else if c = '\x0c' then ['\\', 'f']
  else if c = '\x08' then ['\\', 'b']
  else if c.toNat < 0x20 || (oneLine && isLineEnd c) then '\\' :: 'u' :: Text.hexDigits 4 c.toNat
  else [c]

def escapeText (oneLine : Bool) (s : String) : String :=
  String.ofList (s.toList.flatMap (escapeChar oneLine))

def escapeHalf (h : Text.Half) : String :=
  String.ofList ('\\' :: 'u' :: Text.hexDigits 4 h.unit)

def stringLiteral (oneLine : Bool) (s : Text.Loose) : String :=
  let tail := s.tail.map fun part => escapeHalf part.1 ++ escapeText oneLine part.2
  "\"" ++ escapeText oneLine s.head ++ String.join tail ++ "\""

def doubleLiteral (x : Decimal.Binary64) : String :=
  if x.isNaN then "NaN"
  else if !x.isFinite then (if x.isNegative then "-Infinity" else "Infinity")
  else x.text

/-- Items between brackets, each on its own line. -/
def block (opening closing : String) (depth : Nat) (items : List String) : String :=
  let margin := "\n" ++ String.ofList (List.replicate (2 * depth) ' ')
  if items.isEmpty then opening ++ closing
  else
    opening ++ margin ++ "  " ++ String.intercalate ("," ++ margin ++ "  ") items ++ margin ++
      closing

mutual

def indentedAt (depth : Nat) : Json → String
  | .null => "null"
  | .bool b => if b then "true" else "false"
  | .int n => toString n
  | .double x => doubleLiteral x
  | .string s => stringLiteral false s
  | .list items => block "[" "]" depth (indentedItems (depth + 1) items)
  | .object fields => block "\x7b" "\x7d" depth (indentedFields (depth + 1) fields)

def indentedItems (depth : Nat) : List Json → List String
  | [] => []
  | v :: rest => indentedAt depth v :: indentedItems depth rest

def indentedFields (depth : Nat) : List (Text.Loose × Json) → List String
  | [] => []
  | (k, v) :: rest =>
    (stringLiteral false k ++ ": " ++ indentedAt depth v) :: indentedFields depth rest

end

def indented (v : Json) : String := indentedAt 0 v

mutual

def compact : Json → String
  | .null => "null"
  | .bool b => if b then "true" else "false"
  | .int n => toString n
  | .double x => doubleLiteral x
  | .string s => stringLiteral true s
  | .list items => "[" ++ String.intercalate "," (compactItems items) ++ "]"
  | .object fields => "\x7b" ++ String.intercalate "," (compactFields fields) ++ "\x7d"

def compactItems : List Json → List String
  | [] => []
  | v :: rest => compact v :: compactItems rest

def compactFields : List (Text.Loose × Json) → List String
  | [] => []
  | (k, v) :: rest => (stringLiteral true k ++ ":" ++ compact v) :: compactFields rest

end

end Lookahead.Json
