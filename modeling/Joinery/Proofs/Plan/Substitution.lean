/-
One item of a stage in place of another.

The items of a stage are planned in turn, each on what the earlier ones have left (`InTurn`). So where
an item plans what another one does, it can stand in its place beside any other items: the stages compile
or fail together, their plans differ in that item alone, and these give the same rows (`substitute_key`,
`substitute_aggregate`). Names are no matter of planning, so long as no two output columns have the
same one, nor of running: the rows of a plan are settled by the columns that it reads
(`Plan.SameColumns.rows`).
-/
import Joinery.Proofs.Plan.Resumed
import Joinery.Proofs.Relation.Evaluate

namespace Joinery

/-- Two lists that differ in one member, the one at a position, where their members are related. -/
def DifferAt {α : Type} (i : Nat) (R : α → α → Prop) (xs ys : List α) : Prop :=
  ∃ before x y after, before.length = i ∧ R x y ∧ xs = before ++ x :: after ∧ ys = before ++ y :: after

theorem DifferAt.cons {α : Type} {i : Nat} {R : α → α → Prop} {xs ys : List α} (x : α)
    (h : DifferAt i R xs ys) : DifferAt (i + 1) R (x :: xs) (x :: ys) := by
  obtain ⟨before, y, z, after, rfl, hR, rfl, rfl⟩ := h
  exact ⟨x :: before, y, z, after, rfl, hR, rfl, rfl⟩

theorem DifferAt.map_eq {α β : Type} {i : Nat} {R : α → α → Prop} {xs ys : List α}
    (h : DifferAt i R xs ys) {f : α → β} (hf : ∀ x y, R x y → f x = f y) : xs.map f = ys.map f := by
  obtain ⟨before, x, y, after, -, hR, rfl, rfl⟩ := h
  simp [hf x y hR]

/-! ## In turn -/

/-- `all` plans the members of a list in turn, each as `one` plans it on what the earlier ones left. -/
structure InTurn {ε α β : Type} (one : Assembly → α → Except ε (β × Assembly))
    (all : Assembly → List α → Except ε (List β × Assembly)) : Prop where
  nil : ∀ a, all a [] = .ok ([], a)
  cons : ∀ a x xs, all a (x :: xs) = do
    let (y, b) ← one a x
    let (ys, c) ← all b xs
    return (y :: ys, c)

namespace InTurn

variable {ε α β γ : Type} {one : Assembly → α → Except ε (β × Assembly)}
  {all : Assembly → List α → Except ε (List β × Assembly)}

/-- What each member is planned under is what all of them are planned under. -/
theorem named (h : InTurn one all) {f : α → Option γ} {g : β → γ}
    (hone : ∀ a x y b, one a x = .ok (y, b) → f x = some (g y)) :
    ∀ {xs : List α} {a b : Assembly} {ys : List β}, all a xs = .ok (ys, b) →
      xs.filterMap f = ys.map g
  | [], a, b, ys, hall => by
    cases (h.nil a).symm.trans hall
    rfl
  | x :: xs, a, c, ys, hall => by
    simp only [h.cons, bind_eq_ok_iff] at hall
    obtain ⟨⟨y, b⟩, hy, ⟨ys, c⟩, hys, hall⟩ := hall
    cases hall
    rw [List.filterMap_cons_some (hone a x y b hy), h.named hone hys, List.map_cons]

/-- A member may stand in the place of another that leaves the same. -/
theorem substitute (h : InTurn one all) {R : β → β → Prop} {x x' : α}
    (hone : ∀ a, Parallel (fun out out' => R out.1 out'.1 ∧ out.2 = out'.2) (one a x) (one a x'))
    (after : List α) : ∀ (before : List α) (a : Assembly),
      Parallel (fun out out' => DifferAt before.length R out.1 out'.1 ∧ out.2 = out'.2)
        (all a (before ++ x :: after)) (all a (before ++ x' :: after))
  | [], a => by
    rw [List.nil_append, List.nil_append, h.cons, h.cons]
    refine (hone a).bind ?_
    rintro ⟨y, b⟩ ⟨y', _⟩ - - ⟨hR, rfl⟩
    -- What comes after is planned on the same assembly.
    refine (Parallel.refl (all b after)).bind ?_
    rintro ⟨ys, c⟩ _ - - rfl
    exact .ok ⟨⟨[], y, y', ys, rfl, hR, rfl, rfl⟩, rfl⟩
  | z :: before, a => by
    rw [List.cons_append, List.cons_append, h.cons, h.cons]
    refine (Parallel.refl (one a z)).bind ?_
    rintro ⟨y, b⟩ _ - - rfl
    refine (h.substitute hone after before b).bind ?_
    rintro ⟨ys, c⟩ ⟨ys', _⟩ - - ⟨hd, rfl⟩
    exact .ok ⟨hd.cons y, rfl⟩

end InTurn

/-! ## Names of columns -/

/-- Plans of the same relations that group by the same columns and aggregate the same. Their output
columns need not have the same names. -/
structure Plan.SameColumns (p q : Plan) : Prop where
  base : p.base = q.base
  joins : p.joins = q.joins
  subPlans : p.subPlans = q.subPlans
  keys : p.groupBy.map (·.column) = q.groupBy.map (·.column)
  aggregates : p.aggregates.map (fun x => (x.op, x.target)) = q.aggregates.map fun x => (x.op, x.target)

/-- The names of the output columns are not read when a plan runs. -/
theorem Plan.SameColumns.rows {p q : Plan} (h : p.SameColumns q) (tables : Tables) :
    (Engine.run tables p).map (·.rows) = (Engine.run tables q).map (·.rows) := by
  have hkeys (relations : List Relation) : p.groupBy.mapM (fun key => Engine.bind relations key.column) =
      q.groupBy.mapM fun key => Engine.bind relations key.column := by
    have hmap := congrArg (·.mapM (Engine.bind relations)) h.keys
    simpa only [List.mapM_map, Function.comp_def] using hmap
  have hinputs (relations : List Relation) :
      p.aggregates.mapM (fun x => do return (x.op, ← Engine.bindTarget relations x.target)) =
        q.aggregates.mapM fun x => do return (x.op, ← Engine.bindTarget relations x.target) := by
    have hmap := congrArg
      (·.mapM fun x => do return (x.1, ← Engine.bindTarget relations x.2)) h.aggregates
    simpa only [List.mapM_map, Function.comp_def] using hmap
  have hevaluate (base : Relation) (targets : List Relation) :
      (Engine.evaluateOn base targets p).map (·.rows) = (Engine.evaluateOn base targets q).map (·.rows) := by
    simp only [Engine.evaluateOn, except_map_bind, h.joins, hkeys, hinputs]
    rfl
  simp only [Engine.run_eq, Engine.evaluate_eq, except_map_bind, h.base, h.joins, h.subPlans, hevaluate]

namespace Store

variable {s : Store} {derive : Derive} {start : Source} {a b : Assembly}

theorem addKeys_inTurn : InTurn (fun a path => (s.addKey derive start a path).mapError (.requestedBy path))
    (s.addKeys derive start) := ⟨fun _ => rfl, fun _ _ _ => rfl⟩

theorem addAggregates_inTurn :
    InTurn (fun a request => (s.addAggregate derive start a request).mapError (blame request))
      (s.addAggregates derive start) := ⟨fun _ => rfl, fun _ _ _ => rfl⟩

/-! ## Names -/

theorem addAggregate_name {request : AggregateRequest} {planned : PlannedAggregate}
    (h : s.addAggregate derive start a request = .ok (planned, b)) :
    planned.name = request.outputName := by
  simp only [addAggregate, bind_eq_ok_iff] at h
  obtain ⟨e, -, ⟨slot, c⟩, -, h⟩ := h
  cases h
  rfl

theorem addKey_name {path : Path} {key : GroupingKey} (h : s.addKey derive start a path = .ok (key, b)) :
    path.last? = some key.name := by
  obtain ⟨e, name, slot, -, hname, -, rfl⟩ := addKey_eq_ok_iff.mp h
  exact hname

theorem planned_names {stage : Stage} {c : Assembly} {keys : List GroupingKey}
    {aggregates : List PlannedAggregate} (hk : s.addKeys derive start a stage.groupBy = .ok (keys, b))
    (ha : s.addAggregates derive start b stage.aggregates = .ok (aggregates, c)) :
    keys.map (·.name) ++ aggregates.map (·.name) = stage.outputNames := by
  have hkeys : stage.groupBy.filterMap Path.last? = keys.map (·.name) :=
    addKeys_inTurn.named (fun _ _ _ _ h => addKey_name (mapError_eq_ok_iff.mp h)) hk
  have haggregates : stage.aggregates.filterMap (some ∘ AggregateRequest.outputName) =
      aggregates.map (·.name) :=
    addAggregates_inTurn.named
      (fun _ _ _ _ h => congrArg some (addAggregate_name (mapError_eq_ok_iff.mp h)).symm) ha
  rw [Stage.outputNames, hkeys, ← haggregates, List.filterMap_eq_map]

/-! ## Stages -/

/-- Stages whose items leave the same compile or fail together, if their output columns have distinct
names. -/
theorem compileStage_parallel (stage stage' : Stage) {K : List GroupingKey → List GroupingKey → Prop}
    {A : List PlannedAggregate → List PlannedAggregate → Prop}
    (hk : ∀ a, Parallel (fun out out' => K out.1 out'.1 ∧ out.2 = out'.2)
      (s.addKeys derive start a stage.groupBy) (s.addKeys derive start a stage'.groupBy))
    (ha : ∀ a, Parallel (fun out out' => A out.1 out'.1 ∧ out.2 = out'.2)
      (s.addAggregates derive start a stage.aggregates) (s.addAggregates derive start a stage'.aggregates))
    (hnames : stage.outputNames.Nodup) (hnames' : stage'.outputNames.Nodup) :
    Parallel (fun p q => K p.groupBy q.groupBy ∧ A p.aggregates q.aggregates ∧
        q = { p with groupBy := q.groupBy, aggregates := q.aggregates })
      (s.compileStage derive start stage) (s.compileStage derive start stage') := by
  refine (Parallel.refl (baseOf derive start)).bind ?_
  rintro ⟨base, a⟩ _ - - rfl
  refine (hk a).bind ?_
  rintro ⟨keys, b⟩ ⟨keys', _⟩ hkeys hkeys' ⟨hK, rfl⟩
  refine (ha b).bind ?_
  rintro ⟨aggregates, c⟩ ⟨aggregates', _⟩ haggregates haggregates' ⟨hA, rfl⟩
  simp only [Plan.outputColumns, planned_names hkeys haggregates, planned_names hkeys' haggregates',
    firstRepeat?_eq_none_iff.mpr hnames, firstRepeat?_eq_none_iff.mpr hnames']
  exact .ok ⟨hK, hA, rfl⟩

/-- What holds of the stage of a request holds of the request. -/
theorem compileRequest_parallel {request request' : Request} {R : Plan → Plan → Prop}
    (hsource : request.source = request'.source)
    (h : ∀ start, s.sourceNamed? request.source = some start → Parallel R
      (s.compileStage (s.derive []) start request.stage) (s.compileStage (s.derive []) start request'.stage)) :
    Parallel R (s.compileRequest request) (s.compileRequest request') := by
  unfold compileRequest compile
  rw [← hsource]
  cases hstart : s.sourceNamed? request.source with
  | none => exact .error _ _
  | some start => exact h start hstart

/-! ## One item for another -/

variable {name : String} {before after : List Path} {requests : List AggregateRequest}

theorem split_same {ε α : Type} (x : Except ε (α × Assembly)) :
    Parallel (fun out out' => out.1 = out'.1 ∧ out.2 = out'.2) x x :=
  (Parallel.refl x).mono fun _ _ h => Prod.ext_iff.mp h

/-- A key may stand in the place of another that has its column and leaves the same. -/
theorem substitute_key {path path' : Path} {R : GroupingKey → GroupingKey → Prop}
    (hone : ∀ start, s.sourceNamed? name = some start → ∀ a,
      Parallel (fun out out' => R out.1 out'.1 ∧ out.2 = out'.2)
        (s.addKey (s.derive []) start a path) (s.addKey (s.derive []) start a path'))
    (hcolumn : ∀ key key', R key key' → key.column = key'.column)
    (hnames : (Stage.mk (before ++ path :: after) requests).outputNames.Nodup)
    (hnames' : (Stage.mk (before ++ path' :: after) requests).outputNames.Nodup) :
    Parallel (fun p q => q = { p with groupBy := q.groupBy } ∧
        DifferAt before.length R p.groupBy q.groupBy ∧
        ∀ tables, (Engine.run tables p).map (·.rows) = (Engine.run tables q).map (·.rows))
      (s.compileRequest ⟨name, before ++ path :: after, requests⟩)
      (s.compileRequest ⟨name, before ++ path' :: after, requests⟩) := by
  refine compileRequest_parallel rfl fun start hstart => ?_
  have hkeys := addKeys_inTurn.substitute (fun b => (hone start hstart b).mapError) after before
  refine (compileStage_parallel ⟨before ++ path :: after, requests⟩ ⟨before ++ path' :: after, requests⟩
    hkeys (fun _ => split_same _) hnames hnames').mono ?_
  rintro p q ⟨hd, ha, hq⟩
  rw [← ha] at hq
  refine ⟨hq, hd, fun tables => Plan.SameColumns.rows ?_ tables⟩
  have hcolumns := hd.map_eq hcolumn
  rw [hq]
  exact ⟨rfl, rfl, rfl, hcolumns, rfl⟩

theorem substitute_aggregate {keys : List Path} {before after : List AggregateRequest}
    {request request' : AggregateRequest} {R : PlannedAggregate → PlannedAggregate → Prop}
    (hone : ∀ start, s.sourceNamed? name = some start → ∀ a,
      Parallel (fun out out' => R out.1 out'.1 ∧ out.2 = out'.2)
        (s.addAggregate (s.derive []) start a request) (s.addAggregate (s.derive []) start a request'))
    (htarget : ∀ x x', R x x' → (x.op, x.target) = (x'.op, x'.target))
    (hnames : (Stage.mk keys (before ++ request :: after)).outputNames.Nodup)
    (hnames' : (Stage.mk keys (before ++ request' :: after)).outputNames.Nodup) :
    Parallel (fun p q => q = { p with aggregates := q.aggregates } ∧
        DifferAt before.length R p.aggregates q.aggregates ∧
        ∀ tables, (Engine.run tables p).map (·.rows) = (Engine.run tables q).map (·.rows))
      (s.compileRequest ⟨name, keys, before ++ request :: after⟩)
      (s.compileRequest ⟨name, keys, before ++ request' :: after⟩) := by
  refine compileRequest_parallel rfl fun start hstart => ?_
  have haggregates := addAggregates_inTurn.substitute (fun b => (hone start hstart b).mapError) after before
  refine (compileStage_parallel ⟨keys, before ++ request :: after⟩ ⟨keys, before ++ request' :: after⟩
    (fun _ => split_same _) haggregates hnames hnames').mono ?_
  rintro p q ⟨hk, hd, hq⟩
  rw [← hk] at hq
  refine ⟨hq, hd, fun tables => Plan.SameColumns.rows ?_ tables⟩
  have htargets := hd.map_eq htarget
  rw [hq]
  exact ⟨rfl, rfl, rfl, rfl, htargets⟩

end Store

end Joinery
