/-!
# Binary floating-point numbers

A number of 64 bits is a sign, eleven exponent bits and 52 fraction bits. A finite
one has the exact value `mantissa * 2 ^ exponent`, negated if the sign is set.
-/

namespace Lookahead.Decimal

structure Binary64 where
  bits : UInt64
  deriving DecidableEq, Repr, Inhabited

namespace Binary64

def isNegative (x : Binary64) : Bool := x.bits.toNat ≥ Nat.pow 2 63

/-- The eleven exponent bits. -/
def field (x : Binary64) : Nat := x.bits.toNat / Nat.pow 2 52 % Nat.pow 2 11

def fraction (x : Binary64) : Nat := x.bits.toNat % Nat.pow 2 52

def isFinite (x : Binary64) : Bool := x.field < 2047

def isNaN (x : Binary64) : Bool := x.field = 2047 && x.fraction ≠ 0

def isZero (x : Binary64) : Bool := x.field = 0 && x.fraction = 0

def mantissa (x : Binary64) : Nat :=
  if x.field = 0 then x.fraction else x.fraction + Nat.pow 2 52

def exponent (x : Binary64) : Int :=
  if x.field = 0 then -1074 else (x.field : Int) - 1075

/-- The whole number that a finite value is equal to, if it is one. -/
def toInt? (x : Binary64) : Option Int :=
  if !x.isFinite then none
  else
    let magnitude : Option Nat :=
      if 0 ≤ x.exponent then some (x.mantissa * Nat.pow 2 x.exponent.toNat)
      else
        let unit := Nat.pow 2 (-x.exponent).toNat
        if x.mantissa % unit = 0 then some (x.mantissa / unit) else none
    magnitude.map fun m => if x.isNegative then -(m : Int) else m

/-- The value nearest to `digits * 10 ^ scale`, ties to the even mantissa. Scales beyond the
range of finite values give infinity or zero at once. -/
def ofDecimal (negative : Bool) (digits : Nat) (scale : Int) : Binary64 :=
  let size : Int := (Nat.toDigits 10 digits).length
  let magnitude : Float :=
    if digits = 0 ∨ size + scale < -400 then 0.0
    else if 400 < size + scale then 1.0 / 0.0
    else if 0 ≤ scale then Float.ofScientific digits false scale.toNat
    else Float.ofScientific digits true (-scale).toNat
  ⟨(if negative then -magnitude else magnitude).toBits⟩

def positiveInfinity : Binary64 := ⟨0x7FF0000000000000⟩

def negativeInfinity : Binary64 := ⟨0xFFF0000000000000⟩

def notANumber : Binary64 := ⟨0x7FF8000000000000⟩

end Binary64

end Lookahead.Decimal
