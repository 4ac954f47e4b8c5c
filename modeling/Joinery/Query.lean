/-
Queries: a source with stages of grouping paths and aggregates, as a source can
be derived from, and requests, which are queries of one stage.
-/
import Joinery.Aggregate

namespace Joinery

/-- One stage: the rows are grouped by the paths, and each group is aggregated. -/
structure Stage where
  groupBy : List Path
  aggregates : List AggregateRequest
  deriving DecidableEq

/-- The output columns: the ends of the grouping paths, then the aggregates. A path without
segments has no column. -/
def Stage.outputNames (s : Stage) : List String :=
  s.groupBy.filterMap Path.last? ++ s.aggregates.map AggregateRequest.outputName

/-- A query: a source, and the stages that its rows pass through. -/
structure Query where
  source : String
  stages : List Stage
  deriving DecidableEq

/-- The output columns are those of the final stage. -/
def Query.outputNames (q : Query) : List String :=
  match q.stages.getLast? with
  | some stage => stage.outputNames
  | none => []

/-- A query to be compiled: where it starts and its one stage. -/
structure Request where
  source : String
  groupBy : List Path
  aggregates : List AggregateRequest
  deriving DecidableEq

namespace Request

/-- The request that some texts write. -/
def parse (source : String) (groupBy aggregates : List String) : Except ParseError Request := do
  let keys ← groupBy.mapM Path.parse
  let aggs ← aggregates.mapM AggregateRequest.parse
  return ⟨source, keys, aggs⟩

/-- The request of a query that has one stage. -/
def ofQuery? (q : Query) : Option Request :=
  match q.stages with
  | [stage] => some ⟨q.source, stage.groupBy, stage.aggregates⟩
  | _ => none

/-- The one stage of a request. -/
def stage (r : Request) : Stage := ⟨r.groupBy, r.aggregates⟩

end Request

end Joinery
