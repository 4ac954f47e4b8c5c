/-
Running a plan over tables.

A joined row has one row position for each relation of the plan, or none where
nothing matched: a row without a match is kept. A join of cardinality one takes
the first match, one of cardinality many takes each. Joined rows are grouped by
their keys, in the order in which keys first occur; without keys there is one
group, even of no rows. An aggregate takes each row of its relation once in a
group, however often joins have repeated it.
-/
import Joinery.Cell
import Joinery.Plan
import Joinery.Relation

namespace Joinery

/-- A row position for each relation joined so far. -/
abbrev JoinedRow := List (Option Nat)

/-- A column of a relation, both known by their positions. -/
structure Place where
  relation : Nat
  column : Nat
  deriving DecidableEq

/-- What an aggregate takes: the rows of a relation, or a column of it. -/
inductive Input where
  | rows (relation : Nat)
  | column (place : Place)
  deriving DecidableEq

/-- The relation that is aggregated. -/
def Input.relation : Input → Nat
  | .rows relation => relation
  | .column place => place.relation

namespace Engine

open Json (Value)

/-! ## Columns -/

/-- The place of a column of the plan. -/
def bind (relations : List Relation) (c : Column) : Except ExecutionError Place :=
  match relations[c.slot.index]? with
  | none => .error (.missingRelation c.slot.index)
  | some r => do return ⟨c.slot.index, ← r.position c.field⟩

/-- The cell at a place, for a given row of its relation. Where there is no row the cell is null. -/
def cellAt (relations : List Relation) (place : Place) (row : Option Nat) : Value :=
  (do (← relations[place.relation]?).cell? (← row) place.column).getD .null

/-- The cell that a joined row has at a place. -/
def cell (relations : List Relation) (row : JoinedRow) (place : Place) : Value :=
  cellAt relations place (row[place.relation]?.bind id)

/-! ## Joins -/

/-- The places of the equalities of a condition. -/
def bindEqualities (relations : List Relation) (on : BoundCondition) :
    Except ExecutionError (List (Place × Place)) :=
  on.equalities.mapM fun (left, right) => do
    return (← bind relations left, ← bind relations right)

/-- Does a joined row, extended by a row of the next relation, satisfy all the equalities? -/
def satisfies (relations : List Relation) (equalities : List (Place × Place)) (row : JoinedRow) :
    Bool :=
  equalities.all fun (left, right) =>
    Cell.matched (cell relations row left) (cell relations row right)

/-- The rows of the next relation that match a joined row. -/
def matchesOf (relations : List Relation) (equalities : List (Place × Place)) (size : Nat)
    (row : JoinedRow) : List Nat :=
  (List.range size).filter fun candidate => satisfies relations equalities (row ++ [some candidate])

/-- The joined row with each match that the cardinality admits, or with no row if there is none. -/
def extend (cardinality : Cardinality) (row : JoinedRow) (found : List Nat) : List JoinedRow :=
  match found, cardinality with
  | [], _ => [row ++ [none]]
  | first :: _, .one => [row ++ [some first]]
  | found, .many => found.map fun candidate => row ++ [some candidate]

/-- Joins relation after relation, the next of which has the given index. -/
def joinRows (relations : List Relation) (next : Nat) (rows : List JoinedRow) :
    List PlannedJoin → Except ExecutionError (List JoinedRow)
  | [] => .ok rows
  | j :: js => do
    let equalities ← bindEqualities relations j.on
    let size := (relations[next]?.map (·.rows.length)).getD 0
    let extended := rows.flatMap fun row =>
      extend j.cardinality row (matchesOf relations equalities size row)
    joinRows relations (next + 1) extended js

/-! ## Groups -/

/-- The joined rows that have the same keys, with the keys of the first of them. -/
structure Group where
  signature : String
  keys : List Value
  rows : List JoinedRow

/-- One more joined row: it goes to the group of its signature, or starts one at the end. -/
def addRow (signature : String) (keys : List Value) (row : JoinedRow) : List Group → List Group
  | [] => [⟨signature, keys, [row]⟩]
  | g :: gs =>
    if g.signature = signature then { g with rows := g.rows ++ [row] } :: gs
    else g :: addRow signature keys row gs

/-- The groups of some joined rows. -/
def groups (relations : List Relation) (keys : List Place) (rows : List JoinedRow) : List Group :=
  match keys with
  | [] => [⟨Cell.signature [], [], rows⟩]
  | keys =>
    rows.foldl (fun gs row =>
      let cells := keys.map (cell relations row)
      addRow (Cell.signature cells) cells row gs) []

/-- The rows of a relation that occur in some joined rows, each once. -/
def distinctRows (relation : Nat) (rows : List JoinedRow) : List Nat :=
  (rows.filterMap fun row => row[relation]?.bind id).eraseDups

/-- The cells of a column that are not null, one for each distinct row of its relation. -/
def inputCells (relations : List Relation) (place : Place) (rows : List JoinedRow) : List Value :=
  ((distinctRows place.relation rows).map fun row => cellAt relations place (some row)).filter
    fun v => !v.isNull

/-- An operator over cells. -/
def overCells (op : Operator) (cells : List Value) : Value :=
  match op with
  | .count => .int cells.length
  | .countDistinct => .int (Cell.countDistinct cells)
  | .sum => Cell.sum cells
  | .avg => Cell.average cells
  | .min => Cell.extreme .lt cells
  | .max => Cell.extreme .gt cells

/-- An operator over rows: they can be counted, and have no cells. -/
def overRows (op : Operator) (count : Nat) : Value :=
  match op with
  | .count | .countDistinct => .int count
  | op => overCells op []

/-- An aggregate of the rows of a group. -/
def aggregate (relations : List Relation) (op : Operator) (rows : List JoinedRow) : Input → Value
  | .rows relation => overRows op (distinctRows relation rows).length
  | .column place => overCells op (inputCells relations place rows)

/-! ## Plans -/

/-- A nested plan's rows as a relation. -/
def derivedRelation (derived : List Relation) (position : Nat) : Except ExecutionError Relation :=
  match derived[position]? with
  | some r => .ok r
  | none => .error (.missingSubPlan position)

/-- The relation that a plan starts from: a table, or the rows of a nested plan. -/
def baseRelation (tables : Tables) (derived : List Relation) : Base → Except ExecutionError Relation
  | .table name => tables.get name
  | .subPlan position => derivedRelation derived position

/-- The relation that a join leads to: the rows of a nested plan if it has one, else a table. -/
def joinRelation (tables : Tables) (derived : List Relation) (j : PlannedJoin) :
    Except ExecutionError Relation :=
  match j.subPlan with
  | some position => derivedRelation derived position
  | none => tables.get j.target

/-- Where the target of an aggregate is among the relations. -/
def bindTarget (relations : List Relation) : AggregateTarget → Except ExecutionError Input
  | .rows slot => .ok (.rows slot.index)
  | .column c => do return .column (← bind relations c)

/-- Runs a plan whose nested plans have given their rows. -/
def evaluate (tables : Tables) (derived : List Relation) (p : Plan) :
    Except ExecutionError Result := do
  let base ← baseRelation tables derived p.base
  let targets ← p.joins.mapM (joinRelation tables derived)
  let relations := base :: targets
  let start := (List.range base.rows.length).map fun position => [some position]
  let rows ← joinRows relations 1 start p.joins
  let keys ← p.groupBy.mapM fun key => bind relations key.column
  let inputs ← p.aggregates.mapM fun a => do return (a.op, ← bindTarget relations a.target)
  let output (g : Group) : Row :=
    g.keys ++ inputs.map fun (op, input) => aggregate relations op g.rows input
  return ⟨p.outputColumns, (groups relations keys rows).map output⟩

mutual
/-- Runs a plan, the nested plans first. -/
def run (tables : Tables) : Plan → Except ExecutionError Result
  | ⟨source, base, joins, groupBy, aggregates, subPlans⟩ => do
    let derived ← runAll tables subPlans
    evaluate tables derived ⟨source, base, joins, groupBy, aggregates, []⟩

/-- The rows of some nested plans, each under the name of its source. -/
def runAll (tables : Tables) : List (String × Plan) → Except ExecutionError (List Relation)
  | [] => .ok []
  | (source, p) :: rest => do
    let result ← run tables p
    return ⟨source, result.columns, result.rows⟩ :: (← runAll tables rest)
end

end Engine

end Joinery
