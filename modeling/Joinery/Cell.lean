/-
Cells: how the values of a table compare, group and add up.

Numbers match by their value, so 1 matches 1.0; everything else matches by
structure. Cells are grouped by a text in which a double that is a whole number
is written as an integer. A total is exact as long as every partial total is an
integer of 64 bits, and a double otherwise.
-/
import Joinery.Json.Writer

namespace Joinery.Cell

open Json (Value Number)

/-- Equality of numbers: exact between integers of 64 bits, otherwise as doubles. -/
def equalNumbers (a b : Number) : Bool :=
  match a.int64?, b.int64? with
  | some m, some n => m == n
  | _, _ => a.toDouble == b.toDouble

/-- Equality of cells, by which rows are joined. -/
def equal : Value → Value → Bool
  | .number a, .number b => equalNumbers a b
  | a, b => a.same b

/-- Do two cells match? Null matches nothing. -/
def matched (a b : Value) : Bool := !a.isNull && !b.isNull && equal a b

/-! ## Grouping -/

/-- The integer that a double is, if it is below 2^63 in magnitude. -/
def wholeDouble? (x : Float) : Option Int :=
  (Decimal.integer? x).filter fun n => n.natAbs < 0x8000000000000000

/-- The cell as it stands in a signature. -/
def normal : Value → Value
  | .number (.double x) =>
    match wholeDouble? x with
    | some n => .int n
    | none => .number (.double x)
  | v => v

/-- The text that cells are grouped by. -/
def signature (cells : List Value) : String := (Value.array (cells.map normal)).text

/-! ## Order -/

/-- The order of doubles. A NaN would be equal to all. -/
def compareDoubles (x y : Float) : Ordering :=
  if x < y then .lt else if y < x then .gt else .eq

/-- The order of numbers: exact between integers of 64 bits, otherwise as doubles. -/
def compareNumbers (a b : Number) : Ordering :=
  match a.int64?, b.int64? with
  | some m, some n => Ord.compare m n
  | _, _ => compareDoubles a.toDouble b.toDouble

/-- The order of cells: within numbers, strings and Booleans by value, otherwise by text. -/
def compare : Value → Value → Ordering
  | .number a, .number b => compareNumbers a b
  | .string a, .string b => Ord.compare a b
  | .bool a, .bool b => Ord.compare a b
  | a, b => Ord.compare a.text b.text

/-- The first of some cells that no other cell precedes in the sense of `keep`. -/
def extreme (keep : Ordering) : List Value → Value
  | [] => .null
  | v :: vs => vs.foldl (fun best v => if compare v best == keep then v else best) v

/-! ## Totals -/

/-- The numbers among some cells. -/
def numbers (cells : List Value) : List Number := cells.filterMap Value.number?

/-- One number more, if it and the total are integers of 64 bits. -/
def addInt64? (total : Int) (n : Number) : Option Int := do
  let m ← n.int64?
  (Number.int (total + m)).int64?

/-- The total of some doubles, added in order. Nothing added at all is -0.0. -/
def totalOfDoubles (ns : List Number) : Float :=
  ns.foldl (fun total n => total + n.toDouble) (-0.0)

/-- The total of the numbers among some cells, or null if there is none. -/
def sum (cells : List Value) : Value :=
  match numbers cells with
  | [] => .null
  | ns =>
    match ns.foldlM addInt64? 0 with
    | some total => .int total
    | none => .ofDouble (totalOfDoubles ns)

/-- The mean of the numbers among some cells, or null if there is none. -/
def average (cells : List Value) : Value :=
  match numbers cells with
  | [] => .null
  | ns => .ofDouble (totalOfDoubles ns / Float.ofNat ns.length)

/-- How many different texts the cells have. -/
def countDistinct (cells : List Value) : Nat := (cells.map Value.text).eraseDups.length

end Joinery.Cell
