/-
Reading records and variants from trees.

A record is an object with its members in any order, or an array with its
members in the order of the declaration. Members that the record does not
declare are passed over; a declared member may not stand twice. In an array the
last members may be missing if they have a default. A variant is a string, or
an object whose only member is named for the variant.

Trees come from two formats, and inside a record that is told by a tag from its
members the tree is read once more than elsewhere; `Origin` says what each of
these accepts beyond the common form.
-/
import Joinery.Json.Tree

namespace Joinery.Json

/-- What kind of text a tree is read from. -/
inductive Format where
  | json
  | toml
  deriving DecidableEq

/-- Where a tree comes from. -/
structure Origin where
  format : Format
  /-- Is it part of a record that is told by a tag? -/
  tagged : Bool
  deriving DecidableEq

namespace Origin

/-- A JSON document. -/
def json : Origin := ⟨.json, false⟩

/-- A TOML document. -/
def toml : Origin := ⟨.toml, false⟩

/-- The inside of a record that is told by a tag. -/
def inTagged (o : Origin) : Origin := { o with tagged := true }

/-- May an array have items after the last member of the record? No one looks at them. -/
def allowsSurplus (o : Origin) : Bool := o.format == .toml && !o.tagged

/-- May a tag be given as the position of its variant? -/
def allowsTagPosition (o : Origin) : Bool := o.format == .json && o.tagged

/-- May a variant without content be written as an object with this content? -/
def isNoContent (o : Origin) : Tree → Bool
  | .null => o.tagged || o.format == .json
  | .object [] => o.tagged || o.format == .toml
  | .array [] => !o.tagged && o.format == .toml
  | _ => false

end Origin

/-- The members of a record that are present. -/
abbrev Members := List (String × Tree)

namespace Members

/-- The tree of a member, if it is present. -/
def get? (ms : Members) (name : String) : Option Tree := (ms.find? (·.1 == name)).map (·.2)

/-- A member that must be present. -/
def required {α : Type} (ms : Members) (name : String) (read : Tree → Option α) : Option α := do
  read (← ms.get? name)

/-- A member that has a default when it is absent. -/
def withDefault {α : Type} (ms : Members) (name : String) (default : α) (read : Tree → Option α) :
    Option α :=
  match ms.get? name with
  | none => some default
  | some t => read t

/-- A member that may be absent or null. -/
def optional {α : Type} (ms : Members) (name : String) (read : Tree → Option α) :
    Option (Option α) :=
  match ms.get? name with
  | none => some none
  | some .null => some none
  | some t => (read t).map some

end Members

/-- The members among `names` of an object: none stands twice, every name is readable, and what
the names do not declare can be passed over. -/
def declared? (names : List String) : List (Option String × Tree) → Option Members
  | [] => some []
  | (n, t) :: ms => do
    let name ← n
    let rest ← declared? names ms
    if names.contains name then
      if rest.any (·.1 == name) then none else some ((name, t) :: rest)
    else if t.isPassable then some rest
    else none

/-- The members of a record with these names, as an object or as an array. -/
def members? (names : List String) (o : Origin) : Tree → Option Members
  | .object ms => declared? names ms
  | .array items =>
    if items.length ≤ names.length || o.allowsSurplus then some (names.zip items) else none
  | _ => none

/-! ## Readers of simple types -/

/-- The text of a string. -/
def string? : Tree → Option String
  | .string s => some s
  | _ => none

/-- The truth value of a boolean. -/
def bool? : Tree → Option Bool
  | .bool b => some b
  | _ => none

/-- A list, item by item. -/
def list? {α : Type} (read : Tree → Option α) : Tree → Option (List α)
  | .array items => items.mapM read
  | _ => none

/-- The variant without content that a tree names. -/
def constant? {α : Type} (o : Origin) (ofName : String → Option α) : Tree → Option α
  | .string s => ofName s
  | .object [(some n, t)] => if o.isNoContent t then ofName n else none
  | _ => none

/-- The variants of a record that is told by a tag, by position. -/
def tag? {α : Type} (o : Origin) (variants : List (String × α)) : Tree → Option α
  | .string s => (variants.find? (·.1 == s)).map (·.2)
  | .number (.int n) =>
    if o.allowsTagPosition && 0 ≤ n then variants[n.toNat]?.map (·.2) else none
  | _ => none

/-- The tag of a record and the record without it. An object has its tag under the name `label`,
once; an array has it first. The whole tree must be readable. -/
def tagged? (label : String) (t : Tree) : Option (Tree × Tree) :=
  if t.isReadable then
    match t with
    | .object ms =>
      match ms.filter (·.1 == some label) with
      | [(_, tag)] => some (tag, .object (ms.filter (·.1 != some label)))
      | _ => none
    | .array (tag :: rest) => some (tag, .array rest)
    | _ => none
  else none

end Joinery.Json
