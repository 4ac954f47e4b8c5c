/-
Relations: rows of cells under named columns, and the tables that a plan runs
over.

Every row of a table has a cell for each column: `Tables.insert` refuses any
other, and a table of a name that is taken replaces the former one.
-/
import Joinery.Json.Value
import Joinery.Plan.CompileError

namespace Joinery

/-- Why a plan does not run. -/
inductive ExecutionError where
  | missingTable (source : String)
  | missingColumn (relation column : String)
  | rowWidth (table : String) (row expected found : Nat)
  | compile (inner : CompileError)
  /-- The plan refers to a nested plan that it does not have. -/
  | missingSubPlan (position : Nat)
  /-- The plan refers to a relation that it does not have. -/
  | missingRelation (index : Nat)
  deriving DecidableEq

/-- What is said of the error. -/
def ExecutionError.message : ExecutionError → String
  | .missingTable source => s!"No table registered for source '{source}'"
  | .missingColumn relation column => s!"Relation '{relation}' has no column '{column}'"
  | .rowWidth table row expected found =>
    s!"Row {row} of table '{table}' has {found} values, expected {expected}"
  | .compile inner => s!"Compile error: {inner.message}"
  | .missingSubPlan position => s!"Engine error: sub_plan {position} is missing"
  | .missingRelation index => s!"Engine error: relation {index} is missing"

/-- The cells of a row, in the order of the columns. -/
abbrev Row := List Json.Value

/-- Rows with named columns. -/
structure Relation where
  name : String
  columns : List String
  rows : List Row
  deriving Inhabited

/-- The position of a column. -/
def Relation.position (r : Relation) (column : String) : Except ExecutionError Nat :=
  match r.columns.findIdx? (· == column) with
  | some position => .ok position
  | none => .error (.missingColumn r.name column)

/-- The cell at a position of a row. -/
def Relation.cell? (r : Relation) (row column : Nat) : Option Json.Value := do
  (← r.rows[row]?)[column]?

/-- What a plan gives when it runs. -/
structure Result where
  /-- The names of the keys, then those of the aggregates. -/
  columns : List String
  rows : List Row

namespace Result

/-- The cell of a row under the first column of a name. -/
def get? (r : Result) (row : Nat) (column : String) : Option Json.Value := do
  let position ← r.columns.findIdx? (· == column)
  (← r.rows[row]?)[position]?

/-- The rows as objects. Of several columns of one name the last counts. -/
def objects (r : Result) : Json.Value :=
  .array (r.rows.map fun row => .ofMembers (r.columns.zip row))

end Result

/-- The tables of an engine, no two of them of one name. -/
structure Tables where
  relations : List Relation

namespace Tables

/-- No tables. -/
def empty : Tables := ⟨[]⟩

/-- The table of a name. -/
def get (ts : Tables) (name : String) : Except ExecutionError Relation :=
  match ts.relations.find? (·.name == name) with
  | some r => .ok r
  | none => .error (.missingTable name)

/-- The first row whose width is not that of the table, with its position. -/
def misfit? (r : Relation) : Option (Row × Nat) :=
  r.rows.zipIdx.find? fun (row, _) => row.length != r.columns.length

/-- The tables with one more, in the place of the one of its name. -/
def insert (ts : Tables) (r : Relation) : Except ExecutionError Tables :=
  match misfit? r with
  | some (row, position) =>
    .error (.rowWidth r.name position r.columns.length row.length)
  | none => .ok ⟨ts.relations.filter (·.name != r.name) ++ [r]⟩

/-- The tables of a list, a later one in the place of an earlier one of its name. -/
def ofList (relations : List Relation) : Except ExecutionError Tables :=
  relations.foldlM insert empty

end Tables

end Joinery
