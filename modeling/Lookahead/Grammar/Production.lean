import Lookahead.Grammar.Symbol

/-!
# Productions

A production rewrites its left symbol into its right side. The empty word is written
as the single marker symbol for it, never as an empty right side. The stamp tells
productions apart that were added at different times, and the number is the place
among the productions of one left side, negative until the grammar is sorted.
-/

namespace Lookahead

/-- The name of the production with these names on its two sides. -/
def productionName (left : String) (right : List String) : String :=
  left ++ "->" ++ String.intercalate " " right

structure Production where
  stamp : Nat
  left : Symbol
  right : List Symbol
  number : Int := -1
  deriving DecidableEq, Repr, Inhabited

namespace Production

def name (p : Production) : String := productionName p.left.name (p.right.map Symbol.name)

def symbols (p : Production) : List Symbol := p.left :: p.right

def isEpsilon (p : Production) : Bool :=
  match p.right with
  | [s] => s.isEpsilon
  | _ => false

def superscript (c : Char) : Char :=
  match c with
  | '0' => '⁰'
  | '1' => '¹'
  | '2' => '²'
  | '3' => '³'
  | '4' => '⁴'
  | '5' => '⁵'
  | '6' => '⁶'
  | '7' => '⁷'
  | '8' => '⁸'
  | '9' => '⁹'
  | c => c

/-- The number as it is written behind the production; nothing for an unsorted one. -/
def numberMark (p : Production) : String :=
  if p.number < 0 then "" else String.ofList ((Nat.toDigits 10 p.number.toNat).map superscript)

end Production

end Lookahead
