/-
The characters of a TOML text: blanks, line ends, comments and strings.

Every reader takes its part from the start of a text and gives the rest.
Control characters other than the tab stand nowhere, comments included; a
carriage return only stands in front of a line feed.
-/
import Joinery.Json.Token

namespace Joinery.Toml

/-- A control character other than the tab. -/
def isControl (c : Char) : Bool := (c.toNat < 32 && c != '\t') || c.toNat == 127

/-- Is it a space or a tab? -/
def isBlank (c : Char) : Bool := c == ' ' || c == '\t'

/-- The text without the blanks at its start. -/
def dropBlanks (s : List Char) : List Char := s.dropWhile isBlank

/-- Blanks, then perhaps a comment, then a line end or the end of the text. `inComment` says that
the text starts inside a comment. -/
def lineEnd? (inComment : Bool) : List Char → Option (List Char)
  | [] => some []
  | '\n' :: s => some s
  | '\r' :: '\n' :: s => some s
  | c :: s =>
    if inComment then (if isControl c then none else lineEnd? true s)
    else if c = '#' then lineEnd? true s
    else if isBlank c then lineEnd? false s
    else none

/-- Passes over blanks, comments and line ends. -/
def skip? (inComment : Bool) : List Char → Option (List Char)
  | [] => some []
  | '\n' :: s => skip? false s
  | '\r' :: '\n' :: s => skip? false s
  | c :: s =>
    if inComment then (if isControl c then none else skip? true s)
    else if c = '#' then skip? true s
    else if isBlank c then skip? false s
    else some (c :: s)

/-! ## Strings -/

/-- The character that a letter after a backslash stands for. -/
def escapeLetter? : Char → Option Char
  | 'b' => some '\x08'
  | 't' => some '\t'
  | 'n' => some '\n'
  | 'f' => some '\x0c'
  | 'r' => some '\r'
  | 'e' => some '\x1b'
  | '"' => some '"'
  | '\\' => some '\\'
  | _ => none

/-- The number that some hexadecimal digits write. -/
def hexNumber? (digits : List Char) : Option Nat :=
  digits.foldlM (fun n c => (Json.hexValue? c).map (16 * n + ·)) 0

/-- The character that some hexadecimal digits name. Surrogates are no characters. -/
def hexChar? (digits : List Char) : Option Char := do
  let n ← hexNumber? digits
  if n.isValidChar then some (Char.ofNat n) else none

/-- A string on one line with escapes, up to its closing quote. -/
def basic? : List Char → Option (List Char × List Char)
  | [] => none
  | '"' :: s => some ([], s)
  | '\\' :: 'x' :: a :: b :: s => do
    let c ← hexChar? [a, b]
    let (cs, rest) ← basic? s
    return (c :: cs, rest)
  | '\\' :: 'u' :: a :: b :: c :: d :: s => do
    let c ← hexChar? [a, b, c, d]
    let (cs, rest) ← basic? s
    return (c :: cs, rest)
  | '\\' :: 'U' :: a :: b :: c :: d :: e :: f :: g :: h :: s => do
    let c ← hexChar? [a, b, c, d, e, f, g, h]
    let (cs, rest) ← basic? s
    return (c :: cs, rest)
  | '\\' :: c :: s => do
    let c ← escapeLetter? c
    let (cs, rest) ← basic? s
    return (c :: cs, rest)
  | c :: s =>
    if c = '\\' || isControl c then none
    else do
      let (cs, rest) ← basic? s
      return (c :: cs, rest)

/-- A string on one line without escapes, up to its closing quote. -/
def literal? : List Char → Option (List Char × List Char)
  | [] => none
  | '\'' :: s => some ([], s)
  | c :: s =>
    if isControl c then none
    else do
      let (cs, rest) ← literal? s
      return (c :: cs, rest)

/-- Where the reader of a string of many lines stands. -/
inductive Margin where
  /-- In the text of the string. -/
  | inside
  /-- Behind a backslash that ends a line: only blanks may stand before the line end. -/
  | lineEnd
  /-- In the space that such a backslash takes away. -/
  | trimmed
  deriving DecidableEq

/-- A string of many lines with escapes, up to its closing quotes. Two more quotes may stand right
before these. -/
def multiBasic? (m : Margin) : List Char → Option (List Char × List Char)
  | [] => none
  | '\\' :: 'x' :: a :: b :: s => do
    if m = .lineEnd then none
    let c ← hexChar? [a, b]
    let (cs, rest) ← multiBasic? .inside s
    return (c :: cs, rest)
  | '\\' :: 'u' :: a :: b :: c :: d :: s => do
    if m = .lineEnd then none
    let c ← hexChar? [a, b, c, d]
    let (cs, rest) ← multiBasic? .inside s
    return (c :: cs, rest)
  | '\\' :: 'U' :: a :: b :: c :: d :: e :: f :: g :: h :: s => do
    if m = .lineEnd then none
    let c ← hexChar? [a, b, c, d, e, f, g, h]
    let (cs, rest) ← multiBasic? .inside s
    return (c :: cs, rest)
  | '\\' :: c :: s =>
    if m = .lineEnd then none
    else if isBlank c || c = '\n' || c = '\r' then multiBasic? .lineEnd (c :: s)
    else do
      let c ← escapeLetter? c
      let (cs, rest) ← multiBasic? .inside s
      return (c :: cs, rest)
  | '\r' :: '\n' :: s =>
    if m = .inside then do
      let (cs, rest) ← multiBasic? .inside s
      return ('\r' :: '\n' :: cs, rest)
    else multiBasic? .trimmed s
  | '\n' :: s =>
    if m = .inside then do
      let (cs, rest) ← multiBasic? .inside s
      return ('\n' :: cs, rest)
    else multiBasic? .trimmed s
  | '"' :: '"' :: '"' :: '"' :: '"' :: s => if m = .lineEnd then none else some (['"', '"'], s)
  | '"' :: '"' :: '"' :: '"' :: s => if m = .lineEnd then none else some (['"'], s)
  | '"' :: '"' :: '"' :: s => if m = .lineEnd then none else some ([], s)
  | c :: s =>
    if isBlank c && m != .inside then multiBasic? m s
    else if m = .lineEnd || c = '\\' || isControl c then none
    else do
      let (cs, rest) ← multiBasic? .inside s
      return (c :: cs, rest)

/-- A string of many lines without escapes, up to its closing quotes. Two more quotes may stand
right before these. -/
def multiLiteral? : List Char → Option (List Char × List Char)
  | [] => none
  | '\'' :: '\'' :: '\'' :: '\'' :: '\'' :: s => some (['\'', '\''], s)
  | '\'' :: '\'' :: '\'' :: '\'' :: s => some (['\''], s)
  | '\'' :: '\'' :: '\'' :: s => some ([], s)
  | '\r' :: '\n' :: s => do
    let (cs, rest) ← multiLiteral? s
    return ('\r' :: '\n' :: cs, rest)
  | c :: s =>
    if isControl c && c != '\n' then none
    else do
      let (cs, rest) ← multiLiteral? s
      return (c :: cs, rest)

/-- The text without the line end that may follow opening quotes. -/
def dropLineEnd : List Char → List Char
  | '\n' :: s => s
  | '\r' :: '\n' :: s => s
  | s => s

/-- A string of any kind that is a value, if a quote stands at the start. -/
def string? : List Char → Option (List Char × List Char)
  | '"' :: '"' :: '"' :: s => multiBasic? .inside (dropLineEnd s)
  | '"' :: s => basic? s
  | '\'' :: '\'' :: '\'' :: s => multiLiteral? (dropLineEnd s)
  | '\'' :: s => literal? s
  | _ => none

/-! ## Keys -/

/-- A character of a key without quotes. -/
def isBare (c : Char) : Bool := c.isAlphanum || c == '_' || c == '-'

/-- One part of a key: a string on one line, or a run of bare characters. -/
def keyPart? : List Char → Option (String × List Char)
  | '"' :: s => (basic? s).map fun (cs, rest) => (String.ofList cs, rest)
  | '\'' :: s => (literal? s).map fun (cs, rest) => (String.ofList cs, rest)
  | s =>
    match s.takeWhile isBare with
    | [] => none
    | run => some (String.ofList run, s.drop run.length)

/-- A key of at most `most` parts with dots between them, and blanks around the dots. The rest
starts behind the blanks that follow the key. -/
def key? : Nat → List Char → Option (List String × List Char)
  | 0, _ => none
  | most + 1, s => do
    let (part, s) ← keyPart? s
    match dropBlanks s with
    | '.' :: s =>
      let (parts, rest) ← key? most (dropBlanks s)
      return (part :: parts, rest)
    | s => return ([part], s)

end Joinery.Toml
