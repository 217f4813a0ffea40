/-!
# Padding

Columns of a listing are filled up with spaces to a common width. A text that is
longer than its column is not cut.
-/

namespace Lookahead.Text

/-- The text with spaces behind it. -/
def padEnd (width : Nat) (s : String) : String :=
  s ++ String.ofList (List.replicate (width - s.length) ' ')

/-- The text with spaces before it. -/
def padStart (width : Nat) (s : String) : String :=
  String.ofList (List.replicate (width - s.length) ' ') ++ s

end Lookahead.Text
