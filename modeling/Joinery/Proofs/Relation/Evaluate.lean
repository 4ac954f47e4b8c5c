/-
Running a plan in two parts: its relations, and what is made of them.

A plan runs when its nested plans do and every relation is there
(`run_eq_ok_iff`); the result is a function of the relations (`evaluateOn`). All
of its rows are as wide as the output (`evaluateOn_length`).
-/
import Joinery.Proofs.Outcome
import Joinery.Proofs.Relation.Groups

namespace Joinery.Engine

open Json (Value)

/-- What a plan makes of the relations of its base and its joins. -/
def evaluateOn (base : Relation) (targets : List Relation) (p : Plan) :
    Except ExecutionError Result := do
  let relations := base :: targets
  let start := (List.range base.rows.length).map fun position => [some position]
  let rows ← joinRows relations 1 start p.joins
  let keys ← p.groupBy.mapM fun key => bind relations key.column
  let inputs ← p.aggregates.mapM fun a => do return (a.op, ← bindTarget relations a.target)
  let output (g : Group) : Row :=
    g.keys ++ inputs.map fun (op, input) => aggregate relations op g.rows input
  return ⟨p.outputColumns, (groups relations keys rows).map output⟩

/-- The relation that a nested plan gives under the name of its source. -/
def Ran (tables : Tables) (nested : String × Plan) (r : Relation) : Prop :=
  ∃ result, run tables nested.2 = .ok result ∧ r = ⟨nested.1, result.columns, result.rows⟩

theorem Ran.unique {tables : Tables} {nested : String × Plan} {r q : Relation}
    (hr : Ran tables nested r) (hq : Ran tables nested q) : r = q := by
  obtain ⟨result, hr, rfl⟩ := hr
  obtain ⟨result', hq, rfl⟩ := hq
  cases hr.symm.trans hq
  rfl

/-- The relation that a nested plan gives, if it runs. -/
def nestedRelation (tables : Tables) (nested : String × Plan) : Except ExecutionError Relation := do
  let result ← run tables nested.2
  return ⟨nested.1, result.columns, result.rows⟩

theorem nestedRelation_eq_ok_iff {tables : Tables} {nested : String × Plan} {r : Relation} :
    nestedRelation tables nested = .ok r ↔ Ran tables nested r := by
  simp only [nestedRelation, bind_eq_ok_iff, pure_eq_ok_iff, Ran]
  exact exists_congr fun _ => and_congr_right fun _ => eq_comm

theorem runAll_eq (tables : Tables) : ∀ subPlans : List (String × Plan),
    runAll tables subPlans = subPlans.mapM (nestedRelation tables)
  | [] => rfl
  | (source, p) :: rest => by
    rw [runAll, List.mapM_cons, ← runAll_eq tables rest]
    simp only [nestedRelation, bind_assoc, pure_bind]

theorem evaluate_eq (tables : Tables) (derived : List Relation) (p : Plan) :
    evaluate tables derived p = (do
      let base ← baseRelation tables derived p.base
      let targets ← p.joins.mapM (joinRelation tables derived)
      evaluateOn base targets p) := rfl

theorem run_eq (tables : Tables) (p : Plan) : run tables p = (do
    let derived ← p.subPlans.mapM (nestedRelation tables)
    evaluate tables derived p) := by
  cases p
  rw [run, runAll_eq]
  rfl

theorem run_eq_ok_iff {tables : Tables} {p : Plan} {result : Result} :
    run tables p = .ok result ↔ ∃ derived base targets,
      List.Forall₂ (Ran tables) p.subPlans derived ∧
      baseRelation tables derived p.base = .ok base ∧
      List.Forall₂ (fun j r => joinRelation tables derived j = .ok r) p.joins targets ∧
      evaluateOn base targets p = .ok result := by
  simp only [run_eq, evaluate_eq, bind_eq_ok_iff, mapM_eq_ok_iff, nestedRelation_eq_ok_iff]
  constructor
  · rintro ⟨derived, hd, base, hb, targets, ht, h⟩
    exact ⟨derived, base, targets, hd, hb, ht, h⟩
  · rintro ⟨derived, base, targets, hd, hb, ht, h⟩
    exact ⟨derived, hd, base, hb, targets, ht, h⟩

/-- The joins are alike for the engine. -/
def JoinsAlike (a b : PlannedJoin) : Prop := a.cardinality = b.cardinality ∧ a.on = b.on

theorem joinRows_congr {relations : List Relation} {as bs : List PlannedJoin}
    (h : List.Forall₂ JoinsAlike as bs) : ∀ (next : Nat) (rows : List JoinedRow),
      joinRows relations next rows as = joinRows relations next rows bs := by
  induction h with
  | nil => exact fun _ _ => rfl
  | cons hab _ ih =>
    intro next rows
    simp only [joinRows, hab.1, hab.2, ih]

/-- Of the joins of a plan, only the conditions and the cardinalities matter. -/
theorem evaluateOn_congr {p q : Plan} (hj : List.Forall₂ JoinsAlike p.joins q.joins)
    (hk : p.groupBy = q.groupBy) (ha : p.aggregates = q.aggregates) (base : Relation)
    (targets : List Relation) : evaluateOn base targets p = evaluateOn base targets q := by
  simp only [evaluateOn, joinRows_congr hj, hk, ha, Plan.outputColumns]

theorem evaluateOn_length {base : Relation} {targets : List Relation} {p : Plan} {result : Result}
    (h : evaluateOn base targets p = .ok result) :
    result.columns = p.outputColumns ∧
      ∀ row ∈ result.rows, row.length = p.groupBy.length + p.aggregates.length := by
  simp only [evaluateOn, bind_eq_ok_iff, pure_eq_ok_iff, mapM_eq_ok_iff] at h
  obtain ⟨rows, _, keys, hkeys, inputs, hinputs, rfl⟩ := h
  refine ⟨rfl, fun row hrow => ?_⟩
  obtain ⟨g, hg, rfl⟩ := List.mem_map.mp hrow
  rw [List.length_append, List.length_map, groups_keys_length hg, hkeys.length_eq, hinputs.length_eq]

theorem run_width {tables : Tables} {p : Plan} {result : Result} (h : run tables p = .ok result) :
    ∀ row ∈ result.rows, row.length = result.columns.length := by
  obtain ⟨derived, base, targets, -, -, -, heval⟩ := run_eq_ok_iff.mp h
  obtain ⟨hcolumns, hrows⟩ := evaluateOn_length heval
  intro row hrow
  rw [hrows row hrow, hcolumns, Plan.outputColumns, List.length_append, List.length_map,
    List.length_map]

end Joinery.Engine
