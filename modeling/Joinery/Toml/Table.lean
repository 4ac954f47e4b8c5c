/-
Tables as headers and keys fill them.

A table is stated by a header of its own, implied by a header that goes through
it, or dotted, that is, opened by a key with dots. A header may state what is
implied, once; a key with dots goes through implied and dotted tables and ends
in a dotted one, so no table is filled from two places.
-/
import Joinery.Json.Tree

namespace Joinery.Toml

open Json (Tree)

/-- How a table has come about. -/
inductive Standing where
  | stated
  | implied
  | dotted
  deriving DecidableEq

/-- What stands under a key. -/
inductive Node where
  /-- A value, closed to headers and keys. -/
  | value (tree : Tree)
  | table (standing : Standing) (members : List (String × Node))
  /-- The tables of a repeated header, the newest first. -/
  | tables (elements : List (List (String × Node)))

/-- The members of a table. -/
abbrev Members := List (String × Node)

namespace Node

mutual
/-- The tree of a node. -/
def tree : Node → Tree
  | .value t => t
  | .table _ ms => .object (memberTrees ms)
  | .tables elements => .array (elementTrees elements).reverse

/-- The members of a table as those of a tree. -/
def memberTrees : List (String × Node) → List (Option String × Tree)
  | [] => []
  | (key, n) :: ms => (some key, tree n) :: memberTrees ms

/-- The tables of an array as trees, the last one first. -/
def elementTrees : List (List (String × Node)) → List Tree
  | [] => []
  | ms :: rest => .object (memberTrees ms) :: elementTrees rest
end

end Node

namespace Members

/-- Changes what stands under a key, or puts something there. -/
def alter? (key : String) (change : Option Node → Option Node) : Members → Option Members
  | [] => (change none).map fun n => [(key, n)]
  | (k, n) :: ms =>
    if k = key then (change (some n)).map fun m => (k, m) :: ms
    else (alter? key change ms).map ((k, n) :: ·)

/-- Changes the table that a header's keys lead to. What is missing on the way is implied; of the
tables of a repeated header the newest counts. -/
def alterAt? (change : Members → Option Members) : List String → Members → Option Members
  | [], ms => change ms
  | key :: path, ms => ms.alter? key fun
    | none => (alterAt? change path []).map (.table .implied)
    | some (.table standing inner) => (alterAt? change path inner).map (.table standing)
    | some (.tables (newest :: older)) =>
      (alterAt? change path newest).map fun inner => .tables (inner :: older)
    | _ => none

/-- States the table under a key. It may have been implied before. -/
def state? (key : String) (ms : Members) : Option Members :=
  ms.alter? key fun
    | none => some (.table .stated [])
    | some (.table .implied inner) => some (.table .stated inner)
    | _ => none

/-- Adds a table to those of a repeated header. -/
def repeat? (key : String) (ms : Members) : Option Members :=
  ms.alter? key fun
    | none => some (.tables [[]])
    | some (.tables elements) => some (.tables ([] :: elements))
    | _ => none

/-- Puts a value under a key with dots. Nothing may stand there. -/
def put? (value : Tree) : List String → Members → Option Members
  | [], _ => none
  | [key], ms => ms.alter? key fun
    | none => some (.value value)
    | some _ => none
  | key :: path, ms => ms.alter? key fun
    | none => (put? value path []).map (.table .dotted)
    | some (.table standing inner) =>
      if standing = .dotted || standing = .implied && path.length ≠ 1 then
        (put? value path inner).map (.table standing)
      else none
    | some (.tables (newest :: older)) =>
      if path.length ≠ 1 then
        (put? value path newest).map fun inner => .tables (inner :: older)
      else none
    | _ => none

end Members

end Joinery.Toml
