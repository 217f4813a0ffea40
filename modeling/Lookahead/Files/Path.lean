import Lookahead.Text.Lines

/-!
# Paths

A path is read as its root, which is empty for a path below the working directory, and
the names between its slashes. Empty names and single dots say nothing and are dropped;
double dots are kept, since what they lead to depends on the files. `Path.text` writes
a path in this normal form, the working directory as a single dot.
-/

namespace Lookahead.Files

structure Path where
  root : String := ""
  names : List String := []
  deriving DecidableEq, Repr, Inhabited

namespace Path

/-- The root of a path: exactly two slashes make a root of their own. -/
def rootOf : List Char → String
  | '/' :: '/' :: '/' :: _ => "/"
  | '/' :: '/' :: _ => "//"
  | '/' :: _ => "/"
  | _ => ""

/-- Whether a piece leads somewhere else than where it stands. -/
def isStep (piece : List Char) : Bool := !piece.isEmpty && piece != ['.']

def ofString (s : String) : Path :=
  ⟨rootOf s.toList, ((Text.pieces '/' s.toList).filter isStep).map String.ofList⟩

def text (p : Path) : String :=
  if p.root = "" ∧ p.names = [] then "." else p.root ++ String.intercalate "/" p.names

/-- The path without its last name. -/
def parent (p : Path) : Path := { p with names := p.names.dropLast }

/-- Where a name leads from a place whose path has double dots at its beginning only. -/
def step (place : Path) (name : String) : Path :=
  if name ≠ ".." then { place with names := place.names ++ [name] }
  else match place.names.getLast? with
    | none => if place.root = "" then { place with names := [".."] } else place
    | some last =>
      if last = ".." then { place with names := place.names ++ [".."] } else place.parent

end Path

end Lookahead.Files
