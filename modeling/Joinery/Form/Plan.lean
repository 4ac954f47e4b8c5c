/-
The written form of a plan. Every member is written, null where there is
nothing.
-/
import Joinery.Form.Model
import Joinery.Plan

namespace Joinery

open Json

/-- The root by its name, a join by its position. -/
def Slot.toValue : Slot → Value
  | .root => .string "root"
  | .join position => .object [("join", .int position)]

/-- A column with the relation that it is in. -/
def Column.toValue (c : Column) : Value :=
  .object [("relation", c.slot.toValue), ("field", .string c.field)]

namespace BoundCondition

mutual
/-- A bound condition as it is written. -/
def toValue : BoundCondition → Value
  | .equal left right => .object [("eq", .object [("left", left.toValue), ("right", right.toValue)])]
  | .all kids => .object [("and", .array (toValues kids))]

/-- Bound conditions as they are written. -/
def toValues : List BoundCondition → List Value
  | [] => []
  | c :: cs => toValue c :: toValues cs
end

end BoundCondition

/-- What a plan starts from, by its kind. -/
def Base.toValue : Base → Value
  | .table name => .object [("table", .string name)]
  | .subPlan position => .object [("sub_plan", .int position)]

/-- A planned join as it is written. -/
def PlannedJoin.toValue (j : PlannedJoin) : Value :=
  .object [("alias", .string j.label), ("parent", j.parent.toValue), ("field", .int j.field),
    ("owner", .string j.owner), ("name", .string j.name), ("target", .string j.target),
    ("cardinality", j.cardinality.toValue), ("on", j.on.toValue),
    ("sub_plan", orNull (fun (position : Nat) => .int position) j.subPlan)]

/-- A grouping key as it is written. -/
def GroupingKey.toValue (k : GroupingKey) : Value :=
  .object [("name", .string k.name), ("path", k.path.toValue), ("column", k.column.toValue),
    ("field", .int k.field), ("source", .string k.source)]

/-- The target of an aggregate, by its kind. -/
def AggregateTarget.toValue : AggregateTarget → Value
  | .rows slot => .object [("rows", slot.toValue)]
  | .column c => .object [("column", c.toValue)]

/-- A planned aggregate as it is written. -/
def PlannedAggregate.toValue (a : PlannedAggregate) : Value :=
  .object [("name", .string a.name), ("op", a.op.toValue), ("target", a.target.toValue),
    ("path", orNull Path.toValue a.path),
    ("defined_by", orNull (fun (id : FieldId) => .int id) a.definedBy)]

namespace Plan

mutual
/-- A plan as it is written, with its nested plans in it. -/
def toValue : Plan → Value
  | ⟨source, base, joins, groupBy, aggregates, subPlans⟩ =>
    .object [("source", .string source), ("base", base.toValue),
      ("joins", listed PlannedJoin.toValue joins),
      ("group_by", listed GroupingKey.toValue groupBy),
      ("aggregates", listed PlannedAggregate.toValue aggregates),
      ("sub_plans", .array (nestedValues subPlans))]

/-- Nested plans as they are written, each with its source. -/
def nestedValues : List (String × Plan) → List Value
  | [] => []
  | (source, p) :: ps =>
    .object [("source", .string source), ("plan", toValue p)] :: nestedValues ps
end

end Plan

end Joinery
