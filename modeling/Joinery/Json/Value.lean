/-
Values: what a cell of a table holds, and what a record is written as.

A number is an integer or a double, and 1 and 1.0 are different values. The
members of an object that is a cell are in the order of their names and no name
repeats: `ofMembers` brings any list of members into that order, the last of
several members of one name winning. A record is written with its members as
its type declares them.
-/
import Joinery.Decimal.Shortest

namespace Joinery.Json

/-- A number is an integer or a double; which of the two is part of the value. -/
inductive Number where
  | int (n : Int)
  | double (x : Float)
  deriving DecidableEq

/-- The values of JSON. -/
inductive Value where
  | null
  | bool (b : Bool)
  | number (n : Number)
  | string (s : String)
  | array (items : List Value)
  | object (members : List (String × Value))
  deriving Inhabited

namespace Number

/-- The integer, if it fits 64 bits with a sign. -/
def int64? : Number → Option Int
  | .int n => if -0x8000000000000000 ≤ n ∧ n < 0x8000000000000000 then some n else none
  | .double _ => none

/-- The number as a double, an integer rounded to the nearest. -/
def toDouble : Number → Float
  | .int n => Float.ofInt n
  | .double x => x

/-- The same number of the same kind. Doubles compare by value: 0.0 and -0.0 are the same. -/
def same : Number → Number → Bool
  | .int a, .int b => a == b
  | .double a, .double b => a == b
  | _, _ => false

/-- The text of a number. An infinity or NaN has none of its own and reads `null`. -/
def text : Number → List Char
  | .int (.ofNat n) => Nat.toDigits 10 n
  | .int (.negSucc n) => '-' :: Nat.toDigits 10 (n + 1)
  | .double x => if Decimal.isFinite x then Decimal.text x else ['n', 'u', 'l', 'l']

end Number

namespace Value

/-- An integer value. -/
def int (n : Int) : Value := .number (.int n)

/-- A value of a double: null if it is infinite or NaN. -/
def ofDouble (x : Float) : Value :=
  if Decimal.isFinite x then .number (.double x) else .null

/-- The value of a number. -/
def ofNumber : Number → Value
  | .int n => .int n
  | .double x => .ofDouble x

/-- Is it the null value? -/
def isNull : Value → Bool
  | .null => true
  | _ => false

/-- The number that a value is. -/
def number? : Value → Option Number
  | .number n => some n
  | _ => none

/-- Members in the order of their names, with one more: it takes the place of a member of the
same name. -/
def insertMember (name : String) (value : Value) : List (String × Value) → List (String × Value)
  | [] => [(name, value)]
  | (n, v) :: rest =>
    if name < n then (name, value) :: (n, v) :: rest
    else if name = n then (name, value) :: rest
    else (n, v) :: insertMember name value rest

/-- The object of some members, the last of each name. -/
def ofMembers (members : List (String × Value)) : Value :=
  .object (members.foldl (fun sorted (n, v) => insertMember n v sorted) [])

mutual
/-- Structural equality: the same kinds, items and members throughout. -/
def same : Value → Value → Bool
  | .null, .null => true
  | .bool a, .bool b => a == b
  | .number a, .number b => a.same b
  | .string a, .string b => a == b
  | .array a, .array b => sameItems a b
  | .object a, .object b => sameMembers a b
  | _, _ => false

/-- Are the items the same, in order? -/
def sameItems : List Value → List Value → Bool
  | [], [] => true
  | a :: as, b :: bs => same a b && sameItems as bs
  | _, _ => false

/-- Are the members the same, in order? -/
def sameMembers : List (String × Value) → List (String × Value) → Bool
  | [], [] => true
  | (m, a) :: as, (n, b) :: bs => m == n && same a b && sameMembers as bs
  | _, _ => false
end

end Value

end Joinery.Json
