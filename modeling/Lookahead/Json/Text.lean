import Lookahead.Json.Basic
import Lookahead.Decimal.Shortest
import Lookahead.Text.Quoted

/-!
# Values inside messages

`Json.shown` writes a value with quotes around texts, `Json.spelling` leaves a text as
it is. Both agree on every other value. `Json.text` is the spelling as far as characters
can show it.
-/

namespace Lookahead.Json

mutual

def shown : Json → String
  | .null => "None"
  | .bool b => if b then "True" else "False"
  | .int n => toString n
  | .double x => x.text
  | .string s => Text.quoteLoose s
  | .list items => "[" ++ String.intercalate ", " (shownItems items) ++ "]"
  | .object fields => "\x7b" ++ String.intercalate ", " (shownFields fields) ++ "\x7d"

def shownItems : List Json → List String
  | [] => []
  | v :: rest => shown v :: shownItems rest

def shownFields : List (Text.Loose × Json) → List String
  | [] => []
  | (k, v) :: rest => (Text.quoteLoose k ++ ": " ++ shown v) :: shownFields rest

end

/-- The text of a value without quotes of its own. -/
def spelling : Json → Text.Loose
  | .string s => s
  | v => shown v

def text (v : Json) : String := v.spelling.text

@[simp] theorem spelling_string (s : Text.Loose) : (Json.string s).spelling = s := rfl

@[simp] theorem text_string (s : String) : (Json.string s).text = s := rfl

theorem string_inj {s t : String} : Json.string s = .string t ↔ s = t := by
  rw [Json.string.injEq, Text.Loose.ofString_inj]

end Lookahead.Json
