/-!
# Character ranges

A character class is a list of inclusive ranges of code points.
-/

namespace Lookahead.Text

/-- Whether the code point lies in one of the inclusive ranges. -/
def inRanges (ranges : List (Nat × Nat)) (n : Nat) : Bool :=
  ranges.any fun r => r.1 ≤ n && n ≤ r.2

end Lookahead.Text
