/-
From a request to its plan.

The items of a request are planned one after another, the keys before the
aggregates. Each needs a chain of joins; the assembly holds the joins planned so
far, and a chain that an earlier item has planned is used again. A derived
source that a chain reaches has its query compiled as a plan of its own, once
for each plan. Names that are being derived are kept on a trail, and a name that
comes back is a cycle: since no name stands on the trail twice, compiling ends
on every model.
-/
import Joinery.Plan.JoinSet

namespace Joinery

/-- What is planned so far: the joins, and the plans of derived sources. -/
structure Assembly where
  joins : JoinSet
  subPlans : List (Source × Plan)

namespace Assembly

/-- Nothing is assembled yet. -/
def empty : Assembly := ⟨.empty, []⟩

/-- The position of the plan of a source. -/
def subPlan? (a : Assembly) (source : Source) : Option Nat :=
  a.subPlans.findIdx? (·.1.id == source.id)

end Assembly

/-- Gives the plan of the derived source of a name. -/
abbrev Derive := String → Except CompileError Plan

namespace Store

/-! ## Chains -/

/-- The position of the plan of a source, compiled unless the assembly has it. -/
def needSubPlan (derive : Derive) (a : Assembly) (source : Source) :
    Except CompileError (Nat × Assembly) :=
  match a.subPlan? source with
  | some position => .ok (position, a)
  | none => do
    let plan ← derive source.name
    return (a.subPlans.length, { a with subPlans := a.subPlans ++ [(source, plan)] })

/-- The position of the plan of a source, if it is derived. -/
def rowsOf (derive : Derive) (a : Assembly) (source : Source) :
    Except CompileError (Option Nat × Assembly) :=
  match source.query with
  | none => .ok (none, a)
  | some _ => do
    let (position, a) ← needSubPlan derive a source
    return (some position, a)

/-- Plans the last join of a chain on the relation that the joins before it have led to. -/
def addJoin (s : Store) (derive : Derive) (a : Assembly) (chain : List Field) (f : Field)
    (parent : Slot) : Except CompileError (Slot × Assembly) :=
  match a.joins.lookup? (chain.map (·.id)) with
  | some slot => .ok (slot, a)
  | none =>
    match s.target? f with
    | none => .error (.internal (.noTarget (s.qualifiedName f)))
    | some target => do
      let (subPlan, a) ← rowsOf derive a target
      let (slot, joins) ← JoinSet.push s a.joins chain parent subPlan
      return (slot, { a with joins })

/-- Plans the rest of a chain behind the joins `walked`, which have led to the relation `slot`. -/
def addRest (s : Store) (derive : Derive) (a : Assembly) (walked : List Field) (slot : Slot) :
    List Field → Except CompileError (Slot × Assembly)
  | [] => .ok (slot, a)
  | f :: rest => do
    let (next, a) ← s.addJoin derive a (walked ++ [f]) f slot
    s.addRest derive a (walked ++ [f]) next rest

/-- Plans every join of a chain and gives the relation that it ends at. -/
def addChain (s : Store) (derive : Derive) (a : Assembly) (chain : List Field) :
    Except CompileError (Slot × Assembly) :=
  s.addRest derive a [] .root chain

/-! ## Items -/

/-- Resolves a requested path. -/
def resolveRequested (s : Store) (start : Source) (path : Path) : Except CompileError Resolved :=
  (s.resolveFrom start path).mapError (.resolution path none)

/-- The error of a path that ends at a join whose target is not defined. -/
def danglingEnd (s : Store) (path : Path) (f : Field) (join : Join) : CompileError :=
  .resolution path none (.unknownSource join.target (some (s.qualifiedName f)))

/-- What is grouped by: a field of a source, behind a chain of joins. -/
structure KeyEnd where
  chain : List Field
  field : Field
  source : Source

/-- What a resolved path groups by: a scalar field, or the primary key of the target of a join. -/
def keyEnd (s : Store) (path : Path) (r : Resolved) : Except CompileError KeyEnd :=
  match r.field.kind with
  | .scalar => .ok ⟨r.joins, r.field, r.source⟩
  | .aggregate _ =>
    .error (.invalidGroupingKey path (.isAggregate (s.qualifiedName r.field)))
  | .join join =>
    match s.sourceNamed? join.target with
    | none => .error (s.danglingEnd path r.field join)
    | some target =>
      match target.primaryKey.bind (s.fieldNamed? target.id) with
      | none => .error (.invalidGroupingKey path (.noPrimaryKey target.name))
      | some key => .ok ⟨r.joins ++ [r.field], key, target⟩

/-- Plans a grouping path. The joins on its way are planned before its end is looked at. -/
def addKey (s : Store) (derive : Derive) (start : Source) (a : Assembly) (path : Path) :
    Except CompileError (GroupingKey × Assembly) := do
  let r ← s.resolveRequested start path
  let (_, a) ← s.addChain derive a r.joins
  let e ← s.keyEnd path r
  let (slot, a) ← s.addChain derive a e.chain
  let key : GroupingKey :=
    { name := path.last?.getD r.field.name
      path, column := ⟨slot, e.field.name⟩, field := e.field.id, source := e.source.name }
  return (key, a)

/-- What is aggregated: the rows of the relation behind a chain of joins, or a column of it. -/
structure AggregateEnd where
  op : Operator
  chain : List Field
  column : Option String
  definedBy : Option FieldId

/-- What an operator is applied to at the end of a path: a scalar field, or, for `count`, the rows
of a join. -/
def appliedEnd (s : Store) (request : AggregateRequest) (path : Path) (op : Operator)
    (joins : List Field) (f : Field) : Except CompileError AggregateEnd :=
  match f.kind with
  | .scalar => .ok ⟨op, joins, some f.name, none⟩
  | .aggregate _ =>
    .error (.invalidAggregate request (.alreadyAggregate (s.qualifiedName f)))
  | .join join =>
    if op = .count then
      match s.target? f with
      | none => .error (s.danglingEnd path f join)
      | some _ => .ok ⟨op, joins ++ [f], none, none⟩
    else .error (.invalidAggregate request (.notApplicable op (s.qualifiedName f)))

/-- What an operator without a path is applied to: the rows behind a chain of joins. -/
def rowsEnd (request : AggregateRequest) (op : Operator) (joins : List Field) :
    Except CompileError AggregateEnd :=
  if op.allowsNoArgument then .ok ⟨op, joins, none, none⟩
  else .error (.invalidAggregate request (.needsArgument op))

/-- What the aggregate is that a field defines: its path starts at the owner of the field. -/
def definedEnd (s : Store) (request : AggregateRequest) (path : Path) (r : Resolved) :
    Except CompileError AggregateEnd :=
  match r.field.kind.aggregate? with
  | none =>
    .error (.invalidAggregate request (.needsOperator (s.qualifiedName r.field) r.field.kind.name))
  | some definition => do
    let e ← match definition.path with
      | none => rowsEnd request definition.op r.joins
      | some inner => do
        let i ← (s.resolveFrom r.source inner).mapError (.resolution path (some inner))
        s.appliedEnd request path definition.op (r.joins ++ i.joins) i.field
    return { e with definedBy := some r.field.id }

/-- What a request for an aggregate asks for. -/
def aggregateEnd (s : Store) (start : Source) (request : AggregateRequest) :
    Except CompileError AggregateEnd :=
  match request.op, request.path with
  | none, none => .error (.invalidAggregate request .nothingToAggregate)
  | some op, none => rowsEnd request op []
  | some op, some path => do
    let r ← s.resolveRequested start path
    s.appliedEnd request path op r.joins r.field
  | none, some path => do
    s.definedEnd request path (← s.resolveRequested start path)

/-- Plans an aggregate. -/
def addAggregate (s : Store) (derive : Derive) (start : Source) (a : Assembly)
    (request : AggregateRequest) : Except CompileError (PlannedAggregate × Assembly) := do
  let e ← s.aggregateEnd start request
  let (slot, a) ← s.addChain derive a e.chain
  let planned : PlannedAggregate :=
    { name := request.outputName
      op := e.op
      target := match e.column with
        | none => .rows slot
        | some field => .column ⟨slot, field⟩
      path := request.path
      definedBy := e.definedBy }
  return (planned, a)

/-- An error of an aggregate, with the path that it was requested by. -/
def blame (request : AggregateRequest) (e : CompileError) : CompileError :=
  match request.path with
  | some path => e.requestedBy path
  | none => e

/-! ## Stages -/

/-- Plans some grouping paths in order. -/
def addKeys (s : Store) (derive : Derive) (start : Source) (a : Assembly) :
    List Path → Except CompileError (List GroupingKey × Assembly)
  | [] => .ok ([], a)
  | path :: paths => do
    let (key, a) ← (s.addKey derive start a path).mapError (.requestedBy path)
    let (keys, a) ← s.addKeys derive start a paths
    return (key :: keys, a)

/-- Plans some aggregates in order. -/
def addAggregates (s : Store) (derive : Derive) (start : Source) (a : Assembly) :
    List AggregateRequest → Except CompileError (List PlannedAggregate × Assembly)
  | [] => .ok ([], a)
  | request :: requests => do
    let (planned, a) ← (s.addAggregate derive start a request).mapError (blame request)
    let (rest, a) ← s.addAggregates derive start a requests
    return (planned :: rest, a)

/-- Where the base rows come from: the table of the source, or the plan of its query. -/
def baseOf (derive : Derive) (source : Source) : Except CompileError (Base × Assembly) := do
  let (subPlan, a) ← rowsOf derive .empty source
  return (match subPlan with
    | none => .table source.name
    | some position => .subPlan position, a)

/-- The plan of a stage on a source. No two output columns may have one name. -/
def compileStage (s : Store) (derive : Derive) (start : Source) (stage : Stage) :
    Except CompileError Plan := do
  let (base, a) ← baseOf derive start
  let (groupBy, a) ← s.addKeys derive start a stage.groupBy
  let (aggregates, a) ← s.addAggregates derive start a stage.aggregates
  let plan : Plan :=
    { source := start.name, base, joins := a.joins.joins, groupBy, aggregates
      subPlans := a.subPlans.map fun (source, plan) => (source.name, plan) }
  match firstRepeat? plan.outputColumns with
  | some name => .error (.duplicateOutput name)
  | none => return plan

/-- The plan of a query, which must have one stage. `owner` is the name that a query of any other
number of stages is reported under. -/
def compileQueryOf (s : Store) (derive : Derive) (owner : String) (query : Query) :
    Except CompileError Plan :=
  match query.stages with
  | [stage] =>
    match s.sourceNamed? query.source with
    | none => .error (.unknownSource query.source)
    | some start => s.compileStage derive start stage
  | stages => .error (.unsupportedPipeline owner stages.length)

/-! ## Derived sources -/

/-- How many sources are not on the trail. -/
def room (s : Store) (trail : List String) : Nat :=
  s.sources.countP fun source => !trail.contains source.name

theorem countP_lt_of_mem {α : Type} {p q : α → Bool} {x : α} :
    ∀ {l : List α}, (∀ y, p y = true → q y = true) → x ∈ l → p x = false → q x = true →
      l.countP p < l.countP q
  | [], _, hx, _, _ => nomatch hx
  | y :: ys, hpq, hx, hp, hq => by
    have mono : ys.countP p ≤ ys.countP q := List.countP_mono_left fun z _ => hpq z
    simp only [List.countP_cons]
    rcases List.mem_cons.mp hx with rfl | hx
    · simp only [hp, hq, if_true, Bool.false_eq_true, if_false]
      omega
    · have ih := countP_lt_of_mem hpq hx hp hq
      have := hpq y
      split <;> split <;> first | omega | simp_all

/-- A source that comes onto the trail leaves less room. -/
theorem room_lt {s : Store} {trail : List String} {name : String} {source : Source}
    (hs : s.sourceNamed? name = some source) (ht : ¬ trail.contains name = true) :
    s.room (trail ++ [name]) < s.room trail := by
  unfold sourceNamed? at hs
  have hname := List.find?_some hs
  refine countP_lt_of_mem ?_ (List.mem_of_find?_eq_some hs) ?_ ?_ <;> simp_all

/-- The plan of the derived source of a name. The names on the trail are being derived. -/
def derive (s : Store) (trail : List String) (name : String) : Except CompileError Plan :=
  if ht : trail.contains name then .error (.cyclicDerivation (trail ++ [name]))
  else match hs : s.sourceNamed? name with
    | none => .error (.internal (.notDerived name))
    | some source =>
      match source.query with
      | none => .error (.internal (.notDerived name))
      | some query =>
        have := room_lt hs ht
        (s.compileQueryOf (s.derive (trail ++ [name])) name query).mapError (.within name)
termination_by s.room trail

/-! ## Requests -/

/-- The plan of a stage on the source of a name. -/
def compile (s : Store) (start : String) (stage : Stage) : Except CompileError Plan :=
  match s.sourceNamed? start with
  | none => .error (.unknownSource start)
  | some source => s.compileStage (s.derive []) source stage

/-- The plan of a request. -/
def compileRequest (s : Store) (request : Request) : Except CompileError Plan :=
  s.compile request.source request.stage

/-- The plan of a query as a source can be derived from. -/
def compileQuery (s : Store) (query : Query) : Except CompileError Plan :=
  s.compileQueryOf (s.derive []) query.source query

end Store

end Joinery
