/-
TOML: from a text to its tree.

A text is a list of lines: headers, and keys with values. A header says which
table the keys below it belong to. In a value brackets nest at most eighty deep,
and a key has at most eighty parts.
-/
import Joinery.Toml.Scalar
import Joinery.Toml.Table
import Joinery.Toml.Text

namespace Joinery.Toml

open Json (Tree)

/-- How deep the brackets of a value may nest, and how many parts a key may have. -/
def maxDepth : Nat := 80

/-! ## Values -/

mutual
/-- A value at the start of the text. `depth` says how many more brackets may open; `fuel` bounds
the number of steps. -/
def value? : Nat → Nat → List Char → Option (Tree × List Char)
  | 0, _, _ => none
  | _ + 1, 0, '[' :: _ => none
  | _ + 1, 0, '{' :: _ => none
  | fuel + 1, depth + 1, '[' :: s => items? fuel depth [] s
  | fuel + 1, depth + 1, '{' :: s => members? fuel depth [] s
  | _ + 1, _, s =>
    if s.head? = some '"' || s.head? = some '\'' then
      (string? s).map fun (cs, rest) => (.string (String.ofList cs), rest)
    else do
      let run := scalarRun s
      let t ← scalar? run
      return (t, s.drop run.length)

/-- The items of an array up to its closing bracket, those before them given with the newest
first. -/
def items? : Nat → Nat → List Tree → List Char → Option (Tree × List Char)
  | 0, _, _, _ => none
  | fuel + 1, depth, before, s => do
    match ← skip? false s with
    | ']' :: rest => return (.array before.reverse, rest)
    | s =>
      let (t, s) ← value? fuel depth s
      match ← skip? false s with
      | ',' :: s => items? fuel depth (t :: before) s
      | ']' :: rest => return (.array (t :: before).reverse, rest)
      | _ => none

/-- The members of a table in braces, up to the closing one. Line ends may stand between any two
parts, but not inside a key. -/
def members? : Nat → Nat → Members → List Char → Option (Tree × List Char)
  | 0, _, _, _ => none
  | fuel + 1, depth, before, s => do
    match ← skip? false s with
    | '}' :: rest => return ((Node.table .stated before).tree, rest)
    | s =>
      let (key, s) ← key? maxDepth s
      match ← skip? false s with
      | '=' :: s =>
        let (t, s) ← value? fuel depth (← skip? false s)
        let ms ← before.put? t key
        match ← skip? false s with
        | ',' :: s => members? fuel depth ms s
        | '}' :: rest => return ((Node.table .stated ms).tree, rest)
        | _ => none
      | _ => none
end

/-! ## Lines -/

/-- A text as far as it is read. -/
structure Reader where
  root : Members
  /-- The keys of the last header. -/
  header : List String

/-- A header in front of the text: the table of its last key is stated, or, in double brackets,
one more table is added there. -/
def header? (r : Reader) (repeated : Bool) (s : List Char) : Option (Reader × List Char) := do
  let (path, s) ← key? maxDepth (dropBlanks s)
  let key ← path.getLast?
  let enter := if repeated then Members.repeat? key else Members.state? key
  let root ← r.root.alterAt? enter path.dropLast
  let rest ← match repeated, s with
    | false, ']' :: s => lineEnd? false s
    | true, ']' :: ']' :: s => lineEnd? false s
    | _, _ => none
  return (⟨root, path⟩, rest)

/-- A key with its value in front of the text. -/
def entry? (r : Reader) (s : List Char) : Option (Reader × List Char) := do
  let (key, s) ← key? maxDepth s
  match s with
  | '=' :: s =>
    let (t, s) ← value? (2 * s.length + 2) maxDepth (dropBlanks s)
    let root ← r.root.alterAt? (Members.put? t key) r.header
    return (⟨root, r.header⟩, ← lineEnd? false s)
  | _ => none

/-- The lines of a text, at most `fuel` of them. -/
def lines? : Nat → Reader → List Char → Option Members
  | 0, _, _ => none
  | fuel + 1, r, s => do
    match ← skip? false s with
    | [] => return r.root
    | '[' :: '[' :: s =>
      let (r, rest) ← header? r true s
      lines? fuel r rest
    | '[' :: s =>
      let (r, rest) ← header? r false s
      lines? fuel r rest
    | s =>
      let (r, rest) ← entry? r s
      lines? fuel r rest

/-- The text without the mark that may stand at its very start. -/
def dropMark : List Char → List Char
  | '\uFEFF' :: s => s
  | s => s

/-- The tree of a text, if the text is well formed. -/
def read? (text : String) : Option Tree := do
  let s := dropMark text.toList
  let ms ← lines? (s.length + 1) ⟨[], []⟩ s
  return (Node.table .stated ms).tree

end Joinery.Toml
