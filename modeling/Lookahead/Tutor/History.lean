import Lookahead.Grammar.History
import Lookahead.Grammar.Load
import Lookahead.Tutor.Session

/-!
# Histories of a tutor

A tutor holds the grammar that it was made for, which can still be changed from outside
between any two operations. The steps are not told: they stay as they are, and what they
find next they write to the grammar as it has become.
-/

namespace Lookahead

/-- A grammar that calls lead to, or that was read from a text or from single lines. -/
inductive Grammar.Given : Grammar → Prop
  | called {g : Grammar} (before : Reached g) : Given g
  | text {text : String} {g : Grammar} (read : ofText text = .ok g) : Given g
  | lines {texts : List String} {start : Option String} {g : Grammar}
      (read : ofLines texts start = .ok g) : Given g

namespace Tutor

/-- The tutors that operations lead to while their grammars are changed. -/
inductive Reached : Tutor → Prop
  | new {g : Grammar} {t : Tutor} (given : g.Given) (made : ofGrammar g = .ok t) : Reached t
  | operate {t : Tutor} (op : Operation) (before : Reached t) : Reached (left (perform op) t)
  | change {t : Tutor} (c : Grammar.Change) (before : Reached t) (allowed : c.Allowed t.grammar) :
      Reached (left (edit c.perform) t)

end Tutor

end Lookahead
