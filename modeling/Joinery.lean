import Joinery.Main
import Joinery.Proofs.Plan.Item
import Joinery.Proofs.Plan.Growth
import Joinery.Proofs.Json.Writer
import Joinery.Proofs.Path
import Joinery.Proofs.Form.Request
import Joinery.Proofs.Session
import Joinery.Proofs.Plan.Condition
import Joinery.Proofs.Plan.Chains
import Joinery.Proofs.Plan.Layout
import Joinery.Proofs.Plan.Stage
import Joinery.Proofs.Relation.Groups
import Joinery.Proofs.Relation.Thin
import Joinery.Proofs.Plan.Run
import Joinery.Proofs.Plan.Alone
import Joinery.Proofs.Plan.Alike
import Joinery.Proofs.Plan.Derivation
import Joinery.Proofs.Plan.Exchange
import Joinery.Proofs.Plan.Materialise
import Joinery.Proofs.Plan.Same
import Joinery.Proofs.Plan.Paired
import Joinery.Proofs.Plan.Mirror
import Joinery.Proofs.Store.Model
import Joinery.Proofs.Plan.History
import Joinery.Proofs.Plan.Verdict
import Joinery.Proofs.Plan.Needed
import Joinery.Proofs.Plan.Leads
import Joinery.Proofs.Plan.Readable
import Joinery.Proofs.Plan.Cycle
import Joinery.Proofs.Plan.Runnable
import Joinery.Proofs.Plan.ReadBack
import Joinery.Proofs.Store.Arena
import Joinery.Proofs.Relation.Joined
import Joinery.Proofs.Plan.Joined
import Joinery.Proofs.Cell.Sum
import Joinery.Proofs.Decimal.Conversion
import Joinery.Proofs.Cell.Equality
import Joinery.Proofs.Relation.Counts
import Joinery.Proofs.Plan.Counts
import Joinery.Proofs.Cell.Order
import Joinery.Proofs.Relation.Exact
import Joinery.Proofs.Plan.Conserved
import Joinery.Proofs.Relation.Moved
import Joinery.Proofs.Relation.Permuted
import Joinery.Proofs.Plan.Permuted
import Joinery.Proofs.Composition
import Joinery.Proofs.Plan.Resumed
import Joinery.Proofs.Plan.Substitution
import Joinery.Proofs.Plan.PrimaryKey
import Joinery.Proofs.Plan.Definition
import Joinery.Proofs.Plan.SubPlans
import Joinery.Proofs.Plan.Multiplicity
import Joinery.Proofs.PlanKey
import Joinery.Proofs.Store.Batch
import Joinery.Proofs.Document
import Joinery.Proofs.Plan.FailingPath
import Joinery.Proofs.Aggregate
import Joinery.Proofs.Graph.Paths
import Joinery.Proofs.Path.Format
import Joinery.Proofs.Settings
import Joinery.Proofs.Plan.Labels
import Joinery.Proofs.Json.Value
import Joinery.Proofs.Json.Record
import Joinery.Proofs.Form.Document
import Joinery.Proofs.Relation.Rectangular
import Joinery.Proofs.Plan.Rectangular
import Joinery.Proofs.Plan.Indexed
