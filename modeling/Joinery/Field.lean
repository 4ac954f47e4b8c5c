/-
Fields: scalars, defined aggregates and joins.

A join names its target source and carries a condition over the rows of its
owner and of its target: a tree of equalities between references. A reference
of one segment is a field of the owner; one of two segments, the first of them
the name of the join, is a field of the target.
-/
import Joinery.Aggregate

namespace Joinery

/-- How many target rows an owner row has. -/
inductive Cardinality where
  | one
  | many
  deriving DecidableEq

namespace Cardinality

/-- The name of a cardinality in documents. -/
def name : Cardinality → String
  | .one => "one"
  | .many => "many"

/-- The cardinality of a name. -/
def ofName? (name : String) : Option Cardinality :=
  [one, many].find? (·.name == name)

end Cardinality

/-- The condition of a join: an equality, or all of some conditions. -/
inductive Condition where
  | equal (left right : Path)
  | all (kids : List Condition)
  deriving Inhabited

namespace Condition

mutual
/-- The equalities of a condition from left to right. It holds when all of them do. -/
def equalities : Condition → List (Path × Path)
  | .equal left right => [(left, right)]
  | .all kids => allEqualities kids

/-- The equalities of conditions, in order. -/
def allEqualities : List Condition → List (Path × Path)
  | [] => []
  | c :: cs => equalities c ++ allEqualities cs
end

mutual
/-- The text of a condition, for error messages. -/
def text : Condition → String
  | .equal left right => s!"{left.text} = {right.text}"
  | .all kids => " and ".intercalate (texts kids)

/-- The texts of conditions. -/
def texts : List Condition → List String
  | [] => []
  | c :: cs => text c :: texts cs
end

end Condition

/-- What a join field says: its target, how many rows it finds there, and which. -/
structure Join where
  /-- The name of the target source, which need not be defined. -/
  target : String
  cardinality : Cardinality
  on : Condition

/-- What a field holds: a value of the row, an aggregate, or a way to another source. -/
inductive FieldKind where
  | scalar
  | aggregate (definition : Aggregate)
  | join (definition : Join)

namespace FieldKind

/-- The name of a kind, for error messages. -/
def name : FieldKind → String
  | .scalar => "scalar"
  | .aggregate _ => "aggregate"
  | .join _ => "join"

/-- The definition of an aggregate field. -/
def aggregate? : FieldKind → Option Aggregate
  | .aggregate a => some a
  | _ => none

/-- The definition of a join field. -/
def join? : FieldKind → Option Join
  | .join j => some j
  | _ => none

end FieldKind

/-- A field before a source owns it. -/
structure FieldDef where
  name : String
  kind : FieldKind

/-- The number of a source, in the order of definition. -/
abbrev SourceId := Nat

/-- The number of a field, in the order of creation. -/
abbrev FieldId := Nat

/-- A field of a source. -/
structure Field where
  id : FieldId
  owner : SourceId
  name : String
  kind : FieldKind

end Joinery
