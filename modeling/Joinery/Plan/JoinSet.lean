/-
The joins of a plan, each planned once.

A join of a plan is known by its chain: the joins that lead to it from the root,
itself the last. Chains with a common beginning share the joins of the
beginning, and one join field behind two chains is two joins of the plan, since
each of them joins rows of its own.
-/
import Joinery.Plan
import Joinery.Plan.CompileError

namespace Joinery

/-- The numbers of the fields of a chain. -/
abbrev Chain := List FieldId

/-- The planned joins with their chains, in the order of planning. -/
structure JoinSet where
  entries : List (Chain × PlannedJoin)

namespace JoinSet

/-- No joins. -/
def empty : JoinSet := ⟨[]⟩

/-- The planned joins. -/
def joins (js : JoinSet) : List PlannedJoin := js.entries.map (·.2)

/-- The relation of a chain, if its join is planned. -/
def lookup? (js : JoinSet) (chain : Chain) : Option Slot :=
  (js.entries.findIdx? (·.1 == chain)).map .join

end JoinSet

namespace Store

/-- The side of a join that a reference reads: the source, the relation and the name of the field
there. -/
def side (s : Store) (f : Field) (reference : Path) (parent own : Slot) :
    Except CompileError (SourceId × Slot × String) :=
  let invalid (problem : ReferenceProblem) : CompileError :=
    .invalidCondition (s.qualifiedName f) reference problem
  match reference.segments with
  | [name] => .ok (f.owner, parent, name)
  | [join, name] =>
    if join = f.name then
      match s.target? f with
      | some target => .ok (target.id, own, name)
      | none => .error (invalid .targetUndefined)
    else .error (invalid (.malformed f.name))
  | _ => .error (invalid (.malformed f.name))

/-- The column of a reference: a scalar field of the owner, or of the target. -/
def bindReference (s : Store) (f : Field) (parent own : Slot) (reference : Path) :
    Except CompileError Column := do
  let (source, slot, name) ← s.side f reference parent own
  let invalid (problem : ReferenceProblem) : CompileError :=
    .invalidCondition (s.qualifiedName f) reference problem
  match s.fieldNamed? source name with
  | none => .error (invalid (.noField name (s.sourceName source)))
  | some g =>
    match g.kind with
    | .scalar => return ⟨slot, name⟩
    | kind => .error (invalid (.notScalar name kind.name))

mutual
/-- The condition of a join with columns for its references: those of the owner in the parent
relation, those of the target in the join's own. -/
def bind (s : Store) (f : Field) (parent own : Slot) :
    Condition → Except CompileError BoundCondition
  | .equal left right => do
    return .equal (← s.bindReference f parent own left) (← s.bindReference f parent own right)
  | .all kids => do return .all (← s.bindAll f parent own kids)

/-- Binds conditions one after the other. -/
def bindAll (s : Store) (f : Field) (parent own : Slot) :
    List Condition → Except CompileError (List BoundCondition)
  | [] => return []
  | c :: cs => do
    let kid ← s.bind f parent own c
    return kid :: (← s.bindAll f parent own cs)
end

end Store

namespace JoinSet

/-- Plans the join of a chain on the relation `parent`. Nothing happens if it is planned. -/
def push (s : Store) (js : JoinSet) (chain : List Field) (parent : Slot) (subPlan : Option Nat) :
    Except CompileError (Slot × JoinSet) :=
  let ids := chain.map (·.id)
  match js.lookup? ids, chain.getLast? with
  | some slot, _ => .ok (slot, js)
  | none, none => .error (.internal .emptyChain)
  | none, some f =>
    match f.kind with
    | .join join => do
      let own := Slot.join js.entries.length
      let on ← s.bind f parent own join.on
      let planned : PlannedJoin :=
        { label := ".".intercalate (chain.map (·.name))
          parent, field := f.id, owner := s.sourceName f.owner, name := f.name
          target := join.target, cardinality := join.cardinality, on, subPlan }
      return (own, ⟨js.entries ++ [(ids, planned)]⟩)
    | _ => .error (.internal (.notAJoin (s.qualifiedName f)))

end JoinSet

end Joinery
