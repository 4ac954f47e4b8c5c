/-
Plans: one aggregate query as a base relation, joins that each hang off an
earlier relation, grouping keys and aggregates.

A relation of a plan is known by its slot and never by its name, so a plan that
comes to one source twice stays unambiguous. The sources that are queries
themselves have their plans nested inside.
-/
import Joinery.Field

namespace Joinery

/-- A relation of a plan: the base, or the join at a position. -/
inductive Slot where
  | root
  | join (position : Nat)
  deriving DecidableEq, Inhabited

/-- The place of a slot among all relations of the plan: the base is the first. -/
def Slot.index : Slot → Nat
  | .root => 0
  | .join position => position + 1

/-- A column of a relation. -/
structure Column where
  slot : Slot
  field : String
  deriving DecidableEq, Inhabited

/-- A condition whose references are columns of the plan. -/
inductive BoundCondition where
  | equal (left right : Column)
  | all (kids : List BoundCondition)
  deriving Inhabited

namespace BoundCondition

mutual
/-- The equalities of a condition from left to right. It holds when all of them do. -/
def equalities : BoundCondition → List (Column × Column)
  | .equal left right => [(left, right)]
  | .all kids => allEqualities kids

/-- The equalities of bound conditions, in order. -/
def allEqualities : List BoundCondition → List (Column × Column)
  | [] => []
  | c :: cs => equalities c ++ allEqualities cs
end

end BoundCondition

/-- Where a plan reads its base rows: the table of a source, or the nested plan at a position. -/
inductive Base where
  | table (name : String)
  | subPlan (position : Nat)
  deriving DecidableEq, Inhabited

/-- A join of a plan: which field it follows, from where, and which rows it finds. -/
structure PlannedJoin where
  /-- The names of the joins from the root to this one, with dots. -/
  label : String
  /-- The relation that the join hangs off. -/
  parent : Slot
  field : FieldId
  owner : String
  name : String
  target : String
  cardinality : Cardinality
  on : BoundCondition
  /-- The position of the nested plan of the target, if the target is a query. -/
  subPlan : Option Nat

/-- A column that rows are grouped by. -/
structure GroupingKey where
  /-- The output column. -/
  name : String
  path : Path
  column : Column
  field : FieldId
  /-- The source that owns the field. -/
  source : String
  deriving DecidableEq

/-- What an aggregate runs over: the rows of a relation, or the values of a column. -/
inductive AggregateTarget where
  | rows (slot : Slot)
  | column (column : Column)
  deriving DecidableEq

/-- The relation that an aggregate takes its rows or cells from. -/
def AggregateTarget.slot : AggregateTarget → Slot
  | .rows slot => slot
  | .column c => c.slot

/-- An aggregate of a plan, with what asked for it. -/
structure PlannedAggregate where
  /-- The output column. -/
  name : String
  op : Operator
  target : AggregateTarget
  path : Option Path
  /-- The field that defines the aggregate, if it was requested by a defined one. -/
  definedBy : Option FieldId
  deriving DecidableEq

/-- What a run does: from a base along the joins, then by the keys into groups with their aggregates. -/
structure Plan where
  source : String
  base : Base
  /-- In the order in which they are first needed. -/
  joins : List PlannedJoin
  groupBy : List GroupingKey
  aggregates : List PlannedAggregate
  /-- The nested plans, each with the source whose rows it gives. -/
  subPlans : List (String × Plan)
  deriving Inhabited

namespace Plan

/-- The output columns: the keys, then the aggregates. -/
def outputColumns (p : Plan) : List String :=
  p.groupBy.map (·.name) ++ p.aggregates.map (·.name)

/-- The name of a relation: the source for the root, the label for a join. -/
def slotName (p : Plan) : Slot → String
  | .root => p.source
  | .join position => (p.joins[position]?.map (·.label)).getD "?"

/-- The first join with a label. -/
def joinNamed? (p : Plan) (label : String) : Option PlannedJoin :=
  p.joins.find? (·.label == label)

mutual
/-- The number of plans, nested ones at any depth included. -/
def planCount : Plan → Nat
  | ⟨_, _, _, _, _, subPlans⟩ => 1 + planCounts subPlans

/-- The number of plans in nested plans. -/
def planCounts : List (String × Plan) → Nat
  | [] => 0
  | (_, p) :: ps => planCount p + planCounts ps
end

/-! ## The plan as indented lines -/

/-- A column with the name of its relation. -/
def columnText (p : Plan) (c : Column) : String := s!"{p.slotName c.slot}.{c.field}"

mutual
/-- The text of a bound condition. -/
def conditionText (p : Plan) : BoundCondition → String
  | .equal left right => s!"{p.columnText left} = {p.columnText right}"
  | .all kids => " and ".intercalate (conditionTexts p kids)

/-- The texts of bound conditions. -/
def conditionTexts (p : Plan) : List BoundCondition → List String
  | [] => []
  | c :: cs => conditionText p c :: conditionTexts p cs
end

/-- The line of what a plan starts from. -/
def Base.line : Base → String
  | .table name => s!"base: table {name}"
  | .subPlan position => s!"base: sub_plan {position}"

/-- The line of a join. -/
def joinLine (p : Plan) (j : PlannedJoin) : String :=
  let via := match j.subPlan with
    | some position => s!" via sub_plan {position}"
    | none => ""
  s!"join {j.label}: {j.owner}.{j.name} -> {j.target} [{j.cardinality.name}] on {p.conditionText j.on}{via}"

/-- The line of a grouping key. -/
def keyLine (p : Plan) (k : GroupingKey) : String :=
  s!"group_by {k.name}: {p.columnText k.column}"

/-- The line of an aggregate. -/
def aggregateLine (p : Plan) (a : PlannedAggregate) : String :=
  let target := match a.target with
    | .rows slot => p.slotName slot
    | .column c => p.columnText c
  s!"aggregate {a.name}: {a.op.name}({target})"

/-- The lines of a plan itself, below its heading. -/
def ownLines (p : Plan) : List String :=
  Base.line p.base :: p.joins.map p.joinLine ++ p.groupBy.map p.keyLine ++
    p.aggregates.map p.aggregateLine

mutual
/-- The lines of a plan and its nested plans; those of a nested plan are indented by four blanks
under its heading. -/
def lines : Plan → List String
  | ⟨source, base, joins, groupBy, aggregates, subPlans⟩ =>
    let p : Plan := ⟨source, base, joins, groupBy, aggregates, []⟩
    s!"plan {source}" :: (p.ownLines ++ nestedLines 0 subPlans).map ("  " ++ ·)

/-- The lines of nested plans, each set in below its position and its source. -/
def nestedLines (position : Nat) : List (String × Plan) → List String
  | [] => []
  | (source, p) :: ps =>
    s!"sub_plan {position}: {source}" :: (lines p).map ("  " ++ ·) ++ nestedLines (position + 1) ps
end

/-- The plan as a text for readers. -/
def explain (p : Plan) : String := String.join (p.lines.map (· ++ "\n"))

end Plan

end Joinery
