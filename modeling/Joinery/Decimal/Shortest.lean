/-
The shortest decimal that reads back as a given double.

The reals that round to m · 2^q form an interval: halfway to the double below
up to halfway to the double above, the ends included exactly when m is even.
For one digit, two digits and so on, the decimals of that many digits form a
grid; if a point of the grid lies in the interval, so does one of the two
neighbours of m · 2^q on it. The first grid with a neighbour in the interval
gives the digits, of two neighbours the nearer, and on an exact tie the even
one.
-/
import Joinery.Decimal.Binary

namespace Joinery.Decimal

/-- The number d.ddd · 10^exponent, given by its decimal digits. -/
structure Digits where
  digits : List Char
  exponent : Int
  deriving Repr, DecidableEq

/-- A positive double as a fraction, with the ends of the interval of reals that round to it,
in quarters of the unit in the last place. -/
structure Interval where
  value : Nat
  low : Nat
  high : Nat
  denominator : Nat
  closed : Bool

/-- The rounding interval of m · 2^q. -/
def Binary.interval (b : Binary) : Interval :=
  let up := Nat.pow 2 b.exponent.toNat
  let m := b.significand
  { value := 4 * m * up
    low := (if b.narrowBelow then 4 * m - 1 else 4 * m - 2) * up
    high := (4 * m + 2) * up
    denominator := 4 * Nat.pow 2 (-b.exponent).toNat
    closed := m % 2 == 0 }

/-- Does the fraction `num / den` round to the double? -/
def Interval.holds (i : Interval) (num den : Nat) : Bool :=
  let a := num * i.denominator
  (i.low * den < a || i.closed && i.low * den == a) &&
    (a < i.high * den || i.closed && a == i.high * den)

/-- The least k with value < 10^k, sought near the estimate from the binary logarithms. -/
def Interval.scale (i : Interval) : Int :=
  let bits : Int := (i.value.log2 : Int) - i.denominator.log2
  let estimate := (bits - 1) * 30103 / 100000
  let candidates := (List.range 6).map fun (k : Nat) => estimate - 1 + (k : Int)
  let below (k : Int) := i.value * Nat.pow 10 (-k).toNat < Nat.pow 10 k.toNat * i.denominator
  (candidates.find? fun k => decide (below k)).getD estimate

/-- The neighbour of the value on the grid of multiples of 10^e that rounds to the double, if
one of the two does. -/
def Interval.onGrid? (i : Interval) (e : Int) : Option Nat :=
  let step := Nat.pow 10 e.toNat
  let parts := Nat.pow 10 (-e).toNat
  let c := i.value * parts / (i.denominator * step)
  match i.holds (c * step) parts, i.holds ((c + 1) * step) parts with
  | false, false => none
  | true, false => some c
  | false, true => some (c + 1)
  | true, true =>
    match compare (2 * i.value * parts) ((2 * c + 1) * step * i.denominator) with
    | .lt => some c
    | .gt => some (c + 1)
    | .eq => some (if c % 2 = 0 then c else c + 1)

/-- The number n · 10^e with its digits written out, zeros at the end left off. -/
def Digits.ofScaled (n : Nat) (e : Int) : Digits :=
  let all := Nat.toDigits 10 n
  { digits := (all.reverse.dropWhile (· == '0')).reverse
    exponent := (all.length : Int) - 1 + e }

/-- The shortest digits of a positive double. Seventeen always suffice. -/
def Binary.shortest (b : Binary) : Digits :=
  let i := b.interval
  let k := i.scale
  let found := (List.range 17).findSome? fun (n : Nat) =>
    let e := k - ((n : Int) + 1)
    (i.onGrid? e).map fun c => Digits.ofScaled c e
  let parts := Nat.pow 10 (17 - k).toNat
  let step := Nat.pow 10 (k - 17).toNat
  found.getD (Digits.ofScaled (i.value * parts / (i.denominator * step)) (k - 17))

/-! ## Layout -/

/-- Plain notation with a digit on both sides of the point. -/
def Digits.plain (d : Digits) : List Char :=
  if d.exponent < 0 then
    '0' :: '.' :: List.replicate (-d.exponent - 1).toNat '0' ++ d.digits
  else
    let n := d.exponent.toNat + 1
    let whole := d.digits.take n ++ List.replicate (n - d.digits.length) '0'
    let fraction := d.digits.drop n
    whole ++ '.' :: (if fraction.isEmpty then ['0'] else fraction)

/-- One digit before the point, no point if there is no other digit, and a signed exponent. -/
def Digits.scientific (d : Digits) : List Char :=
  let lead := d.digits.take 1
  let fraction := d.digits.drop 1
  let sign := if d.exponent < 0 then '-' else '+'
  lead ++ (if fraction.isEmpty then [] else '.' :: fraction) ++
    'e' :: sign :: Nat.toDigits 10 d.exponent.natAbs

/-- Plain from 10^-5 up to 10^16, scientific outside. -/
def Digits.text (d : Digits) : List Char :=
  if -5 ≤ d.exponent ∧ d.exponent ≤ 15 then d.plain else d.scientific

/-- The text of a finite double: its shortest digits, with the sign that -0.0 has too. -/
def text (x : Float) : List Char :=
  let b := magnitude x
  let unsigned := if b.significand = 0 then ['0', '.', '0'] else b.shortest.text
  if isNegative x then '-' :: unsigned else unsigned

example : String.ofList (text 0.1) = "0.1" := by decide +kernel
example : String.ofList (text (-1e16)) = "-1e+16" := by decide +kernel
example : String.ofList (text 2.98023223876953125e-8) = "2.9802322387695312e-8" := by decide +kernel

end Joinery.Decimal
