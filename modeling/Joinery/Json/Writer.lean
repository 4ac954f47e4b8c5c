/-
The text of a value: compact, or indented by two spaces a level.

The functions write in front of a given rest, so that a text is built from its
end and no piece is copied twice.
-/
import Joinery.Json.Value

namespace Joinery.Json

/-- The hexadecimal digit of a number below 16, in lower case. -/
def hexDigit (n : Nat) : Char := if n < 10 then Char.ofNat (48 + n) else Char.ofNat (87 + n)

/-- A character inside a string: the quote, the backslash and the control characters are
escaped, the common ones by a letter. -/
def escaped (c : Char) : List Char :=
  if c = '"' then ['\\', '"']
  else if c = '\\' then ['\\', '\\']
  else if c = '\n' then ['\\', 'n']
  else if c = '\r' then ['\\', 'r']
  else if c = '\t' then ['\\', 't']
  else if c.toNat = 8 then ['\\', 'b']
  else if c.toNat = 12 then ['\\', 'f']
  else if c.toNat < 32 then
    ['\\', 'u', '0', '0', hexDigit (c.toNat / 16), hexDigit (c.toNat % 16)]
  else [c]

/-- A string in quotes, in front of the rest. -/
def quoted (s : String) (rest : List Char) : List Char :=
  '"' :: s.toList.flatMap escaped ++ '"' :: rest

namespace Value

/-- `true` or `false`, in front of the rest. -/
def writeBool (b : Bool) (rest : List Char) : List Char :=
  (if b then ['t', 'r', 'u', 'e'] else ['f', 'a', 'l', 's', 'e']) ++ rest

mutual
/-- The compact text of a value, in front of the rest. -/
def write : Value → List Char → List Char
  | .null, rest => 'n' :: 'u' :: 'l' :: 'l' :: rest
  | .bool b, rest => writeBool b rest
  | .number n, rest => n.text ++ rest
  | .string s, rest => quoted s rest
  | .array [], rest => '[' :: ']' :: rest
  | .array (v :: vs), rest => '[' :: write v (writeItems vs (']' :: rest))
  | .object [], rest => '{' :: '}' :: rest
  | .object ((n, v) :: ms), rest =>
    '{' :: quoted n (':' :: write v (writeMembers ms ('}' :: rest)))

/-- Items, a comma before each. -/
def writeItems : List Value → List Char → List Char
  | [], rest => rest
  | v :: vs, rest => ',' :: write v (writeItems vs rest)

/-- Members, a comma before each. -/
def writeMembers : List (String × Value) → List Char → List Char
  | [], rest => rest
  | (n, v) :: ms, rest => ',' :: quoted n (':' :: write v (writeMembers ms rest))
end

/-- The compact text of a value. -/
def text (v : Value) : String := String.ofList (v.write [])

/-- A line end and the indentation of a level. -/
def newline (level : Nat) (rest : List Char) : List Char :=
  '\n' :: List.replicate (2 * level) ' ' ++ rest

mutual
/-- The indented text of a value that stands at a level. -/
def writeIndented (level : Nat) : Value → List Char → List Char
  | .array [], rest => '[' :: ']' :: rest
  | .array (v :: vs), rest =>
    '[' :: newline (level + 1) (writeIndented (level + 1) v
      (indentItems (level + 1) vs (newline level (']' :: rest))))
  | .object [], rest => '{' :: '}' :: rest
  | .object ((n, v) :: ms), rest =>
    '{' :: newline (level + 1) (quoted n (':' :: ' ' :: writeIndented (level + 1) v
      (indentMembers (level + 1) ms (newline level ('}' :: rest)))))
  | .null, rest => 'n' :: 'u' :: 'l' :: 'l' :: rest
  | .bool b, rest => writeBool b rest
  | .number n, rest => n.text ++ rest
  | .string s, rest => quoted s rest

/-- The items behind the first one, each on a line of its own, before a rest. -/
def indentItems (level : Nat) : List Value → List Char → List Char
  | [], rest => rest
  | v :: vs, rest => ',' :: newline level (writeIndented level v (indentItems level vs rest))

/-- The members behind the first one, each on a line of its own, before a rest. -/
def indentMembers (level : Nat) : List (String × Value) → List Char → List Char
  | [], rest => rest
  | (n, v) :: ms, rest =>
    ',' :: newline level (quoted n (':' :: ' ' :: writeIndented level v (indentMembers level ms rest)))
end

/-- The indented text of a value. -/
def indentedText (v : Value) : String := String.ofList (v.writeIndented 0 [])

end Value

end Joinery.Json
