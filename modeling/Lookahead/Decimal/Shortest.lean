import Lookahead.Decimal.Binary64

/-!
# Shortest decimal text

A finite number is written with the fewest digits that read back as the same
number; of several such digit strings the one nearest to the number is taken.
The positional form is used for exponents from -4 to 15, otherwise the form with
an exponent of at least two digits.
-/

namespace Lookahead.Decimal

/-- A decimal `digits * 10 ^ scale`. -/
structure Scaled where
  digits : Nat
  scale : Int
  deriving DecidableEq, Repr

namespace Binary64

/-- In units of a quarter of the last place: the ends of the numbers that round to `x`. -/
def roundingInterval (x : Binary64) : Nat × Nat :=
  let v := 4 * x.mantissa
  (if x.fraction = 0 ∧ 1 < x.field then v - 1 else v - 2, v + 2)

/-- The multiple of `10 ^ scale` nearest to `x` among those that read back as `x`. -/
def onGrid (x : Binary64) (scale : Int) : Option Scaled :=
  let shift := x.exponent - 2
  let up := Nat.pow 2 shift.toNat * Nat.pow 10 (-scale).toNat
  let unit := Nat.pow 2 (-shift).toNat * Nat.pow 10 scale.toNat
  let value := 4 * x.mantissa * up
  let (low, high) := x.roundingInterval
  let inside (d : Nat) : Bool :=
    let p := d * unit
    if x.mantissa % 2 = 0 then low * up ≤ p && p ≤ high * up else low * up < p && p < high * up
  let below := value / unit
  let above := below + 1
  let nearer : Nat :=
    let down := value - below * unit
    let rise := above * unit - value
    if down < rise then below
    else if rise < down then above
    else if below % 2 = 0 then below else above
  if inside below && inside above then some ⟨nearer, scale⟩
  else if inside below && below ≠ 0 then some ⟨below, scale⟩
  else if inside above then some ⟨above, scale⟩
  else none

/-- The shortest decimal of a finite number: the coarsest grid with a point that reads back. -/
def shortest (x : Binary64) : Scaled :=
  ((List.range 650).findSome? fun (i : Nat) => x.onGrid (310 - Int.ofNat i)).getD ⟨0, 0⟩

end Binary64

/-- Splits the digits so that `point` of them stand before the mark, filling with zeros. -/
def positional (digits : List Char) (point : Int) : List Char :=
  if point ≤ 0 then '0' :: '.' :: List.replicate (-point).toNat '0' ++ digits
  else
    let whole := digits.take point.toNat
    let rest := digits.drop point.toNat
    whole ++ List.replicate (point.toNat - digits.length) '0' ++ '.' ::
      (if rest.isEmpty then ['0'] else rest)

def scientific (digits : List Char) (exponent : Int) : List Char :=
  let mantissa := match digits with
    | d :: rest@(_ :: _) => d :: '.' :: rest
    | short => short
  let size := Nat.toDigits 10 exponent.natAbs
  let padded := if size.length < 2 then '0' :: size else size
  mantissa ++ 'e' :: (if exponent < 0 then '-' else '+') :: padded

/-- The text of a number, as messages and answers show it. -/
def Binary64.text (x : Binary64) : String :=
  let sign := if x.isNegative then "-" else ""
  if x.isNaN then "nan"
  else if !x.isFinite then sign ++ "inf"
  else if x.isZero then sign ++ "0.0"
  else
    let d := x.shortest
    let digits := Nat.toDigits 10 d.digits
    let point : Int := digits.length + d.scale
    let body := if -4 < point ∧ point ≤ 16 then positional digits point
      else scientific digits (point - 1)
    sign ++ String.ofList body

end Lookahead.Decimal
