/-
Trees: what a text says, before it is read as a value or a record.

A tree keeps the members of an object as they are written, repeated names
included. Some parts of a text are well formed and still stand for nothing: a
number too large for a double, a string with half of a surrogate pair, brackets
nested too deeply. Such a part is `unreadable` (an unreadable name is `none`);
it spoils whatever reads it, and a member that no one reads may hold it. A
`malformed` part may not even be passed over: it may only stand where nothing is
looked at.
-/
import Joinery.Json.Value

namespace Joinery.Json

/-- A text as it is read, before it is known what it has to be. -/
inductive Tree where
  | unreadable
  | malformed
  | null
  | bool (b : Bool)
  | number (n : Number)
  | string (s : String)
  | array (items : List Tree)
  | object (members : List (Option String × Tree))
  deriving Inhabited

namespace Tree

mutual
/-- The value that a tree stands for, if no part of it is unreadable or malformed. -/
def value? : Tree → Option Value
  | .unreadable | .malformed => none
  | .null => some .null
  | .bool b => some (.bool b)
  | .number n => some (.ofNumber n)
  | .string s => some (.string s)
  | .array items => do return .array (← values? items)
  | .object members => do return .ofMembers (← valueMembers? members)

/-- The values of trees, if all have one. -/
def values? : List Tree → Option (List Value)
  | [] => some []
  | t :: ts => do
    let v ← value? t
    return v :: (← values? ts)

/-- The members of an object, if all have a name and a value. -/
def valueMembers? : List (Option String × Tree) → Option (List (String × Value))
  | [] => some []
  | (n, t) :: ms => do
    let name ← n
    let v ← value? t
    return (name, v) :: (← valueMembers? ms)
end

mutual
/-- The tree of a value. -/
def ofValue : Value → Tree
  | .null => .null
  | .bool b => .bool b
  | .number n => .number n
  | .string s => .string s
  | .array items => .array (ofValues items)
  | .object members => .object (ofValueMembers members)

/-- Values as trees. -/
def ofValues : List Value → List Tree
  | [] => []
  | v :: vs => ofValue v :: ofValues vs

/-- Members as those of a tree. -/
def ofValueMembers : List (String × Value) → List (Option String × Tree)
  | [] => []
  | (n, v) :: ms => (some n, ofValue v) :: ofValueMembers ms
end

/-- Is no part of the tree unreadable or malformed? -/
def isReadable (t : Tree) : Bool := t.value?.isSome

mutual
/-- May the tree be passed over? No part of it is malformed. -/
def isPassable : Tree → Bool
  | .malformed => false
  | .array items => arePassable items
  | .object members => membersPassable members
  | _ => true

/-- Can all trees be passed over? -/
def arePassable : List Tree → Bool
  | [] => true
  | t :: ts => isPassable t && arePassable ts

/-- Can all members be passed over? -/
def membersPassable : List (Option String × Tree) → Bool
  | [] => true
  | (_, t) :: ms => isPassable t && membersPassable ms
end

end Tree

end Joinery.Json
