/-
What a double stands for, as exact integers.

A finite double is ± m · 2^q. `magnitude` reads m and q off the bits; whether
the value is a whole number, and which one, is then integer arithmetic.
-/

namespace Joinery.Decimal

/-- The number m · 2^q. -/
structure Binary where
  significand : Nat
  exponent : Int
  /-- Is the next double below only half as far away as the next above? -/
  narrowBelow : Bool
  deriving Repr, DecidableEq

/-- The sign bit, which -0.0 has too. -/
def isNegative (x : Float) : Bool := x.toBits >>> 63 == 1

/-- Neither infinite nor NaN: the exponent bits are not all ones. -/
def isFinite (x : Float) : Bool := (x.toBits >>> 52) &&& 0x7FF != 0x7FF

/-- The magnitude of a finite double. -/
def magnitude (x : Float) : Binary :=
  let biased := ((x.toBits >>> 52) &&& 0x7FF).toNat
  let fraction := (x.toBits &&& 0xFFFFFFFFFFFFF).toNat
  if biased = 0 then ⟨fraction, -1074, false⟩
  else ⟨0x10000000000000 + fraction, (biased : Int) - 1075, fraction == 0 && biased > 1⟩

/-- The natural number that m · 2^q is, if it is one. -/
def Binary.whole? (b : Binary) : Option Nat :=
  let up := Nat.pow 2 b.exponent.toNat
  let down := Nat.pow 2 (-b.exponent).toNat
  if b.significand % down = 0 then some (b.significand / down * up) else none

/-- The integer that a double is, if it is one. -/
def integer? (x : Float) : Option Int :=
  if isFinite x then
    (magnitude x).whole?.map fun n => if isNegative x then -(n : Int) else n
  else none

end Joinery.Decimal
