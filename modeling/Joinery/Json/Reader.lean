/-
From the tokens of a text to its tree.

The reader keeps one frame for every open bracket and says what may come next.
A closed bracket becomes an item or a member value of the frame below it. More
than 127 brackets inside one another are well formed and `unreadable`.
-/
import Joinery.Json.Token
import Joinery.Json.Tree

namespace Joinery.Json

/-- An open bracket with what it holds so far, newest first. -/
inductive Frame where
  | array (items : List Tree)
  | object (members : List (Option String × Tree))
  /-- An object with a name whose value has yet to come. -/
  | member (members : List (Option String × Tree)) (name : Option String)

/-- What may come next. -/
inductive Expected where
  | value
  /-- The first item of an array, or its end. -/
  | itemOrEnd
  /-- The first name of an object, or its end. -/
  | nameOrEnd
  | name
  | colon
  /-- A comma, or the end of the open bracket. -/
  | separator
  /-- Nothing: the text is complete. -/
  | done (tree : Tree)

/-- The state of a reader: the arrays and objects that are open, and what may come next. -/
structure Reader where
  frames : List Frame
  expected : Expected

namespace Reader

/-- The reader before the first token. -/
def start : Reader := ⟨[], .value⟩

/-- The deepest nesting that can be read. -/
def maxDepth : Nat := 127

/-- A tree is complete: it goes into the innermost frame, or it is the whole text. -/
def put (tree : Tree) : List Frame → Option Reader
  | [] => some ⟨[], .done tree⟩
  | .array items :: fs => some ⟨.array (tree :: items) :: fs, .separator⟩
  | .member members name :: fs => some ⟨.object ((name, tree) :: members) :: fs, .separator⟩
  | .object _ :: _ => none

/-- The innermost bracket closes. -/
def close (bracket : Token) : List Frame → Option Reader
  | .array items :: fs =>
    if bracket = .endArray then
      put (if fs.length < maxDepth then .array items.reverse else .unreadable) fs
    else none
  | .object members :: fs =>
    if bracket = .endObject then
      put (if fs.length < maxDepth then .object members.reverse else .unreadable) fs
    else none
  | _ => none

/-- A token where a value may stand. -/
def value (fs : List Frame) : Token → Option Reader
  | .beginArray => some ⟨.array [] :: fs, .itemOrEnd⟩
  | .beginObject => some ⟨.object [] :: fs, .nameOrEnd⟩
  | .null => put .null fs
  | .bool b => put (.bool b) fs
  | .number n => put ((n.map Tree.number).getD .unreadable) fs
  | .string s => put ((s.map Tree.string).getD .unreadable) fs
  | _ => none

/-- A token where the name of a member may stand. -/
def name : List Frame → Token → Option Reader
  | .object members :: fs, .string s => some ⟨.member members s :: fs, .colon⟩
  | _, _ => none

/-- One token. -/
def step (r : Reader) (t : Token) : Option Reader :=
  match r.expected, t with
  | .value, t => value r.frames t
  | .itemOrEnd, .endArray => close .endArray r.frames
  | .itemOrEnd, t => value r.frames t
  | .nameOrEnd, .endObject => close .endObject r.frames
  | .nameOrEnd, t => name r.frames t
  | .name, t => name r.frames t
  | .colon, .colon => some { r with expected := .value }
  | .colon, _ => none
  | .separator, .comma =>
    match r.frames with
    | .array _ :: _ => some { r with expected := .value }
    | .object _ :: _ => some { r with expected := .name }
    | _ => none
  | .separator, t => close t r.frames
  | .done _, _ => none

end Reader

/-- The tree of a text, if the text is well formed. -/
def Tree.ofText? (text : String) : Option Tree := do
  let tokens ← tokens? text.toList
  let final ← tokens.foldlM Reader.step Reader.start
  match final.expected with
  | .done tree => some tree
  | _ => none

end Joinery.Json
