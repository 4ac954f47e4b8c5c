/-
Why a request has no plan.

A failure inside the plan of a derived source is wrapped once for every source
on the way. The innermost wrapper within the plan of the request then learns
which requested path had reached the source.
-/
import Joinery.Resolution

namespace Joinery

/-- Why a path cannot be grouped by. -/
inductive KeyProblem where
  /-- It ends at a join, and the target has no key to group by. -/
  | noPrimaryKey (target : String)
  | isAggregate (field : String)
  deriving DecidableEq

/-- What is said of the problem. -/
def KeyProblem.message : KeyProblem → String
  | .noPrimaryKey target => s!"join target '{target}' has no primary key"
  | .isAggregate field => s!"'{field}' is an aggregate; use it as an aggregate instead"

/-- Why an aggregate has no meaning. -/
inductive AggregateProblem where
  | needsArgument (op : Operator)
  /-- It has no operator and its path ends at a field that defines none. -/
  | needsOperator (field kind : String)
  | nothingToAggregate
  /-- Only `count` applies to a join. -/
  | notApplicable (op : Operator) (join : String)
  | alreadyAggregate (field : String)
  deriving DecidableEq

/-- What is said of the problem. -/
def AggregateProblem.message : AggregateProblem → String
  | .needsArgument op => s!"{op.name}() needs an argument"
  | .needsOperator field kind => s!"'{field}' is a {kind} field; give an aggregate operator"
  | .nothingToAggregate => "nothing to aggregate"
  | .notApplicable op join => s!"{op.name} cannot be applied to join '{join}'"
  | .alreadyAggregate field => s!"'{field}' is already an aggregate"

/-- Why a reference in the condition of a join is no column. -/
inductive ReferenceProblem where
  | targetUndefined
  /-- It is neither a field nor a field behind the name of the join. -/
  | malformed (join : String)
  | notScalar (field kind : String)
  | noField (field source : String)
  deriving DecidableEq

/-- What is said of the problem. -/
def ReferenceProblem.message : ReferenceProblem → String
  | .targetUndefined => "join target is not defined"
  | .malformed join => s!"expected 'field' or '{join}.field'"
  | .notScalar field kind => s!"'{field}' is a {kind} field"
  | .noField field source => s!"no field '{field}' on '{source}'"

/-- What the compiler is never asked for by a path that resolves. -/
inductive InternalProblem where
  | noTarget (join : String)
  | notDerived (source : String)
  | emptyChain
  | notAJoin (field : String)
  deriving DecidableEq

/-- What is said of the problem. -/
def InternalProblem.message : InternalProblem → String
  | .noTarget join => s!"join '{join}' has no target"
  | .notDerived source => s!"'{source}' is not query-based"
  | .emptyChain => "empty join chain"
  | .notAJoin field => s!"'{field}' is not a join"

/-- Why a request does not compile. -/
inductive CompileError where
  /-- A requested path does not resolve, or the path of the aggregate that it leads to. -/
  | resolution (path : Path) (definition : Option Path) (cause : ResolutionError)
  | unknownSource (name : String)
  | invalidGroupingKey (path : Path) (problem : KeyProblem)
  | invalidAggregate (request : AggregateRequest) (problem : AggregateProblem)
  | invalidCondition (join : String) (reference : Path) (problem : ReferenceProblem)
  /-- A derived source needs itself: the last name of the chain is an earlier one. -/
  | cyclicDerivation (chain : List String)
  | unsupportedPipeline (source : String) (stages : Nat)
  | duplicateOutput (name : String)
  /-- The query of a derived source has no plan. The path is the requested one that reached the
  source; there is none if the source is the start. -/
  | derived (source : String) (path : Option Path) (inner : CompileError)
  | internal (problem : InternalProblem)
  deriving DecidableEq

namespace CompileError

/-- A path, with the path of the definition that it leads to in brackets. -/
def pathText (path : Path) : Option Path → String
  | none => path.text
  | some definition => s!"{path.text} ({definition.text})"

/-- What is said of the error. -/
def message : CompileError → String
  | .resolution path definition cause =>
    s!"Cannot resolve '{pathText path definition}': {cause.message}"
  | .unknownSource name => s!"Unknown source: {name}"
  | .invalidGroupingKey path problem => s!"Invalid grouping key '{path.text}': {problem.message}"
  | .invalidAggregate request problem => s!"Invalid aggregate '{request.text}': {problem.message}"
  | .invalidCondition join reference problem =>
    s!"Invalid on-expression for join '{join}' at '{reference.text}': {problem.message}"
  | .cyclicDerivation chain => "Cyclic query derivation: " ++ " -> ".intercalate chain
  | .unsupportedPipeline source stages =>
    s!"Source '{source}' has {stages} query stages; only single-stage queries are supported"
  | .duplicateOutput name => s!"Duplicate output column: {name}"
  | .derived source none inner => s!"In query-based source '{source}': {inner.message}"
  | .derived source (some path) inner =>
    s!"In query-based source '{source}' (via '{path.text}'): {inner.message}"
  | .internal problem => s!"Internal compiler error: {problem.message}"

/-- The failure to resolve behind an error, at whatever depth. -/
def resolution? : CompileError → Option ResolutionError
  | .resolution _ _ cause => some cause
  | .derived _ _ inner => inner.resolution?
  | _ => none

/-- The requested path that an error is due to. For a failure inside a derived source this is the
outermost path that is known to have reached it. -/
def failingPath? : CompileError → Option String
  | .resolution path definition _ => some (pathText path definition)
  | .derived _ (some path) _ => some path.text
  | .derived _ none inner => inner.failingPath?
  | _ => none

/-- Notes the requested path that reached a derived source, unless one is known. -/
def requestedBy (path : Path) : CompileError → CompileError
  | .derived source none inner => .derived source (some path) inner
  | e => e

/-- The error of a plan that the plan of `source` failed to give. A cycle is reported as it is: its
chain already names every source involved. -/
def within (source : String) : CompileError → CompileError
  | .cyclicDerivation chain => .cyclicDerivation chain
  | e => .derived source none e

end CompileError

end Joinery
