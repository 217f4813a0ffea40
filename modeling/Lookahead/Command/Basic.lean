import Lookahead.Tutor.Basic

/-!
# Commands

There is a command for checking a grammar, one for its lookahead table, one for a
canonical graph and one for comparing a drawing with the canonical graph.
-/

namespace Lookahead

/-- What a command does once the grammar is loaded, with the settings of its own. A phase or a
drawing is absent if the argument for it was taken for the end of the options. -/
inductive Task where
  | check (strict : Bool)
  | table (asJson strict : Bool)
  | graph (phase : Option GraphPhase) (output : Option String)
  | verify (phase : Option GraphPhase) (drawing : Option String)
  deriving DecidableEq, Repr, Inhabited

structure Command where
  grammarPath : String
  reduce : Bool := false
  debug : Bool := false
  task : Task
  deriving DecidableEq, Repr, Inhabited

end Lookahead
