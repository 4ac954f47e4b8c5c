/-
Reading a decimal as a double by scaling.

The leading digits, as many as fit 64 bits, are taken as one natural number;
the digits after them only move the point. The number becomes a double, which
is then multiplied or divided by a power of ten. For up to fifteen digits and
small powers both steps are exact or rounded once, and the result is the
nearest double; for longer ones it may be a neighbour of it.
-/

namespace Joinery.Decimal

/-- The number that the digits continue `n` to while it fits 64 bits, and how many digits that
takes. -/
def leading (n : Nat) : List Nat → Nat × Nat
  | [] => (n, 0)
  | d :: ds =>
    if n * 10 + d < 0x10000000000000000 then
      let (m, k) := leading (n * 10 + d) ds
      (m, k + 1)
    else (n, 0)

/-- The power of ten as a double. -/
def power (n : Nat) : Float := Float.ofScientific 1 false n

/-- A number below 2^64 divided by 10^n. Above 10^308 this takes two steps, and two steps of
10^308 already leave nothing. -/
def lowered (x : Float) (n : Nat) : Float :=
  if n ≤ 308 then x / power n else x / power 308 / power (min (n - 308) 308)

/-- Multiplied by 10^e, or nothing if that is too large for a double. -/
def scaled? (x : Float) (e : Int) : Option Float :=
  if e < 0 then some (lowered x (-e).toNat)
  else if e ≤ 308 then
    let y := x * power e.toNat
    if y.isInf then none else some y
  else if x == 0 then some x
  else none

/-- The double that `whole.fraction · 10^e` is read as, or nothing if it is too large. -/
def read? (whole fraction : List Nat) (e : Int) : Option Float :=
  let (n, taken) := leading 0 whole
  let (m, places) := leading n fraction
  scaled? (Float.ofNat m) (e + (whole.length - taken : Nat) - (places : Nat))

end Joinery.Decimal
