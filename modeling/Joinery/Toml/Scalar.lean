/-
The plain values of a TOML text: Booleans, integers, floats, dates and times.

The form of a number is checked where the number stands, and its size when it is
read. An integer that fits 64 bits with or without a sign is read as such; one
that fits 128 bits is unreadable, and a larger one is malformed, as is a float
too large for a double. An integer with a letter behind one of its underscores
has a good form and is malformed all the same. Dates and times become an object
of one member, whose text has them in one standard form.
-/
import Joinery.Json.Token
import Joinery.Json.Tree
import Joinery.Toml.Text

namespace Joinery.Toml

open Json (Tree hexValue? decimalValue digitValue)

/-! ## Digits and underscores -/

/-- Is it a hexadecimal digit? -/
def isHexDigit (c : Char) : Bool := (hexValue? c).isSome

/-- A digit in a base up to sixteen. -/
def isDigitIn (base : Nat) (c : Char) : Bool := (hexValue? c).any (· < base)

/-- Does every underscore stand between two digits? `behind` says whether the text stands behind
a digit, or behind a sign, which counts as one. -/
def areTied (isDigit : Char → Bool) (behind : Bool) : List Char → Bool
  | [] => true
  | ['_'] => false
  | '_' :: c :: s => behind && isDigit c && areTied isDigit true s
  | c :: s => areTied isDigit (isDigit c) s

/-- The text without its underscores. -/
def untied (s : List Char) : List Char := s.filter (· != '_')

/-- The digits at the start of a text, with underscores among them. -/
def digitRun (s : List Char) : List Char × List Char :=
  let run := s.takeWhile fun c => c.isDigit || c == '_'
  (untied run, s.drop run.length)

/-- The sign of a number, which may be absent: is it a minus? -/
def signed (s : List Char) : Bool × List Char :=
  match s with
  | '-' :: s => (true, s)
  | '+' :: s => (false, s)
  | s => (false, s)

/-! ## Integers -/

/-- The number that some digits write in a base. No digits write none. -/
def based? (base : Nat) : List Char → Option Nat
  | [] => none
  | digits =>
    if digits.all (isDigitIn base) then
      digits.foldlM (fun n c => (hexValue? c).map (base * n + ·)) 0
    else none

/-- The tree of an integer of the given magnitude. -/
def integerTree (negative : Bool) : Option Nat → Tree
  | none => .malformed
  | some magnitude =>
    let n : Int := if negative then -magnitude else magnitude
    if -0x8000000000000000 ≤ n ∧ n < 0x10000000000000000 then .number (.int n)
    else if -0x80000000000000000000000000000000 ≤ n ∧ n < 0x100000000000000000000000000000000 then
      .unreadable
    else .malformed

/-- An integer in a base, behind the letters that name it. -/
def basedInteger? (base : Nat) (s : List Char) : Option Tree :=
  if (untied s).all (isDigitIn base) && areTied isHexDigit false s then
    some (integerTree false (based? base (untied s)))
  else none

/-- A decimal integer behind its sign. It starts with a zero only if it is zero. -/
def decimalInteger? (behindSign negative : Bool) (s : List Char) : Option Tree :=
  if s.head? = some '0' && s.length ≠ 1 || !areTied isHexDigit behindSign s then none
  else some (integerTree negative (based? 10 (untied s)))

/-! ## Floats -/

/-- The double nearest to the number that the digits write, times 10^e. Far below the smallest
double it is zero, and far above the largest there is none. -/
def nearest? (digits : List Char) (e : Int) : Option Float :=
  let digits := digits.dropWhile (· == '0')
  if digits.isEmpty then some 0
  else if e + digits.length < -400 then some 0
  else if e + digits.length > 400 then none
  else
    let x := Float.ofScientific (decimalValue (digits.map digitValue)) (e < 0) e.natAbs
    if x.isInf then none else some x

/-- The digits before the point. They start with a zero only if that is all. -/
def whole? (s : List Char) : Option (List Char × List Char) :=
  let (digits, rest) := digitRun s
  if digits.isEmpty || s.head? = some '0' && digits.length ≠ 1 then none else some (digits, rest)

/-- The point and the digits behind it, which may be absent. -/
def fraction? : List Char → Option (List Char × List Char)
  | '.' :: s =>
    let (digits, rest) := digitRun s
    if digits.isEmpty then none else some (digits, rest)
  | s => some ([], s)

/-- The exponent, which may be absent. -/
def exponent? : List Char → Option (Int × List Char)
  | [] => some (0, [])
  | c :: s =>
    if c = 'e' || c = 'E' then
      let (negative, s) := signed s
      let (digits, rest) := digitRun s
      let n : Int := decimalValue (digits.map digitValue)
      if digits.isEmpty then none else some (if negative then -n else n, rest)
    else some (0, c :: s)

/-- The tree of a float. -/
def floatTree (negative : Bool) : Option Float → Tree
  | none => .malformed
  | some x => .number (.double (if negative then -x else x))

/-- A float behind its sign. -/
def float? (behindSign negative : Bool) (s : List Char) : Option Tree := do
  let (whole, rest) ← whole? s
  let (fraction, rest) ← fraction? rest
  let (e, rest) ← exponent? rest
  if rest.isEmpty && areTied Char.isDigit behindSign s then
    return floatTree negative (nearest? (whole ++ fraction) (e - (fraction.length : Nat)))
  else none

/-! ## Dates and times -/

/-- The days of a month of a year. -/
def daysIn (year month : Nat) : Nat :=
  if month = 2 then
    if year % 4 = 0 && (year % 100 ≠ 0 || year % 400 = 0) then 29 else 28
  else if month = 4 || month = 6 || month = 9 || month = 11 then 30
  else 31

/-- The number that some characters write, if they are digits. -/
def number? (s : List Char) : Option Nat :=
  if s.all Char.isDigit then some (decimalValue (s.map digitValue)) else none

/-- A date at the start of the text, with its ten characters. -/
def date? : List Char → Option (List Char × List Char)
  | y1 :: y2 :: y3 :: y4 :: '-' :: m1 :: m2 :: '-' :: d1 :: d2 :: s => do
    let year ← number? [y1, y2, y3, y4]
    let month ← number? [m1, m2]
    let day ← number? [d1, d2]
    if 1 ≤ month && month ≤ 12 && 1 ≤ day && day ≤ daysIn year month then
      some ([y1, y2, y3, y4, '-', m1, m2, '-', d1, d2], s)
    else none
  | _ => none

/-- The fraction of a second in its standard form: nine digits at most, no zeros at the end, and
nothing at all if no digit is left. -/
def fractionText (digits : List Char) : List Char :=
  match (digits.take 9).reverse.dropWhile (· == '0') with
  | [] => []
  | kept => '.' :: kept.reverse

/-- The seconds behind hours and minutes, with their fraction. Absent seconds are zero. -/
def seconds? : List Char → Option (List Char × List Char)
  | ':' :: s1 :: s2 :: s => do
    let second ← number? [s1, s2]
    if second ≤ 60 then
      match s with
      | '.' :: s =>
        let digits := s.takeWhile Char.isDigit
        if digits.isEmpty then none
        else some (':' :: s1 :: s2 :: fractionText digits, s.drop digits.length)
      | s => some ([':', s1, s2], s)
    else none
  | ':' :: _ => none
  | s => some ([':', '0', '0'], s)

/-- A time at the start of the text, in its standard form. -/
def time? : List Char → Option (List Char × List Char)
  | h1 :: h2 :: ':' :: m1 :: m2 :: s => do
    let hour ← number? [h1, h2]
    let minute ← number? [m1, m2]
    if hour ≤ 23 && minute ≤ 59 then
      let (seconds, rest) ← seconds? s
      return (h1 :: h2 :: ':' :: m1 :: m2 :: seconds, rest)
    else none
  | _ => none

/-- The offset of a time, which is all of the text, in its standard form: an offset of nothing has
a plus. It may be absent. -/
def offset? : List Char → Option (List Char)
  | [] => some []
  | ['Z'] | ['z'] => some ['Z']
  | [sign, h1, h2, ':', m1, m2] => do
    let hour ← number? [h1, h2]
    let minute ← number? [m1, m2]
    if (sign = '+' || sign = '-') && hour ≤ 23 && minute ≤ 59 then
      some [if hour = 0 && minute = 0 then '+' else sign, h1, h2, ':', m1, m2]
    else none
  | _ => none

/-- A date, a time, or both with or without an offset, in their standard form. -/
def moment? (s : List Char) : Option (List Char) :=
  match date? s with
  | some (date, []) => some date
  | some (date, c :: s) =>
    if c = 'T' || c = 't' || c = ' ' then do
      let (time, s) ← time? s
      let offset ← offset? s
      return date ++ 'T' :: time ++ offset
    else none
  | none => do
    let (time, rest) ← time? s
    if rest.isEmpty then some time else none

/-- The name of the one member of the object that a date or a time is read as. -/
def momentName : String := "$__toml_private_datetime"

/-- A date or a time as a tree: an object with one member, by which it is told from a string. -/
def momentTree? (s : List Char) : Option Tree :=
  (moment? s).map fun text => .object [(some momentName, .string (String.ofList text))]

/-! ## Scalars -/

/-- The tree of a number, a date or a time. What stands behind the first digits tells which it is. -/
def numeral? (s : List Char) : Option Tree :=
  let behindSign := s.head? = some '+' || s.head? = some '-'
  let (negative, digits) := signed s
  match digits with
  | [] => none
  | ['i', 'n', 'f'] => some (floatTree negative (some (1 / 0)))
  | ['n', 'a', 'n'] => some (floatTree negative (some (0 / 0)))
  | '0' :: 'x' :: s => if behindSign then none else basedInteger? 16 s
  | '0' :: 'o' :: s => if behindSign then none else basedInteger? 8 s
  | '0' :: 'b' :: s => if behindSign then none else basedInteger? 2 s
  | digits =>
    let rest := digits.dropWhile Char.isDigit
    if rest.head? = some '-' || rest.head? = some ':' then momentTree? s
    else if rest.contains ' ' then none
    else if rest.any fun c => c == '.' || c == 'e' || c == 'E' then
      float? behindSign negative digits
    else if rest.isEmpty || rest.head? = some '_' then
      decimalInteger? behindSign negative digits
    else none

/-- The tree that a plain value is read as. -/
def scalar? (s : List Char) : Option Tree :=
  if s = ['t', 'r', 'u', 'e'] then some (.bool true)
  else if s = ['f', 'a', 'l', 's', 'e'] then some (.bool false)
  else numeral? s

/-- A character that ends a plain value. -/
def isDelimiter (c : Char) : Bool :=
  c == ',' || c == '=' || c == '[' || c == ']' || c == '{' || c == '}' || c == '#' || c == '\r' ||
    c == '\n'

/-- May a plain value go on with this character behind a blank? -/
def goesOn (c : Char) : Bool := !isDelimiter c && c != '.' && c != '"' && c != '\''

/-- The characters of a plain value at the start of the text. Blanks belong to it if it goes on
behind them, as a time behind a date does. -/
def scalarRun : List Char → List Char
  | [] => []
  | c :: s =>
    if isDelimiter c then []
    else if isBlank c then
      if (dropBlanks s).head?.any goesOn then c :: scalarRun s else []
    else c :: scalarRun s

end Joinery.Toml
