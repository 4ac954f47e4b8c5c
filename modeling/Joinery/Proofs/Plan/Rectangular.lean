/-
The results of requests, and of the plans that are nested in theirs.

A plan that compiles has a key and an aggregate for each one of its stage, and no
two output columns of one name. So what it gives is a table under these names
(`compileStage_tabulates`). If a plan runs, so do the plans that are nested in it at
any depth; their results are the relations that the plans around them read, and are
tables of that kind as well (`Reachable.results_rectangular`).
-/
import Joinery.Proofs.Plan.ReadBack
import Joinery.Proofs.Plan.Readable
import Joinery.Proofs.Relation.Rectangular

namespace Joinery

/-- A result of a plan is a table for a stage. -/
structure Plan.Tabulates (p : Plan) (tables : Tables) (stage : Stage) (r : Result) : Prop where
  run : Engine.run tables p = .ok r
  /-- The columns are the requested ones: the keys, then the aggregates. -/
  columns : r.columns = stage.outputNames
  counted : r.columns.length = stage.groupBy.length + stage.aggregates.length
  rectangular : r.Rectangular
  keyless : stage.groupBy = [] → r.rows.length = 1
  keyed : stage.groupBy ≠ [] →
    ∃ base, Engine.baseOf tables p = .ok base ∧ (r.rows = [] ↔ base.rows = [])
  /-- The cell under a column is found by the name of the column. -/
  cells : ∀ (i k : Nat) row name, r.rows[i]? = some row → r.columns[k]? = some name →
    ∃ v, row[k]? = some v ∧ r.get? i name = some v
  /-- There is an object for each row, with the cells that are found by name, and no others. -/
  objects : ∃ objects, r.objects = .array objects ∧ objects.length = r.rows.length ∧
    ∀ i object, objects[i]? = some object → r.Shows i object
  /-- Each row has the keys and the aggregates of a group of joined rows under their names. -/
  labelled : ∃ relations rows groups, Engine.joined tables p = .ok (relations, rows) ∧
    Engine.grouped relations p rows = .ok groups ∧ r.rows.length = groups.length ∧
    ∀ i g, groups[i]? = some g → Engine.ShowsGroup relations p r i g

/-- If a plan runs, the plans that are nested in it do. -/
theorem Plan.Holds.exists_run {p q : Plan} {tables : Tables} (hq : p.Holds q) {result : Result}
    (h : Engine.run tables p = .ok result) : ∃ r, Engine.run tables q = .ok r := by
  induction hq generalizing result with
  | self => exact ⟨result, h⟩
  | nested hmem _ ih =>
    obtain ⟨derived, _, _, hd, -⟩ := Engine.run_eq_ok_iff.mp h
    obtain ⟨_, -, r, hr, -⟩ := forall₂_mem hd hmem
    exact ih hr

namespace Store

variable {s : Store} {derive : Derive} {start : Source} {p : Plan} {tables : Tables} {result : Result}

theorem compileStage_lengths (hs : s.Coherent) (hstart : start ∈ s.sources) {stage : Stage}
    (h : s.compileStage derive start stage = .ok p) :
    p.groupBy.length = stage.groupBy.length ∧ p.aggregates.length = stage.aggregates.length := by
  obtain ⟨items, hitems, a, ha⟩ := (compileStage_agree hs hstart stage).right h
  obtain ⟨-, hkeys, haggregates, -⟩ := stageItems_eq_ok_iff.mp hitems
  exact ⟨(hkeys.length_eq.trans ha.keys.length_eq).symm,
    (haggregates.length_eq.trans ha.aggregates.length_eq).symm⟩

/-- **What the plan of a stage gives is a table for the stage.** -/
theorem compileStage_tabulates (hs : s.Coherent) (hstart : start ∈ s.sources) {stage : Stage}
    (h : s.compileStage derive start stage = .ok p) (hrun : Engine.run tables p = .ok result) :
    p.Tabulates tables stage result := by
  obtain ⟨hnames, hdistinct⟩ := compileStage_columns hs hstart h
  obtain ⟨hkeys, haggregates⟩ := compileStage_lengths hs hstart h
  have hcolumns : result.columns = p.outputColumns := Engine.run_columns hrun
  have hrectangular : result.Rectangular :=
    ⟨by rwa [hcolumns, hnames], Engine.run_width hrun⟩
  have hnone : p.groupBy = [] ↔ stage.groupBy = [] := by
    rw [← List.length_eq_zero_iff, hkeys, List.length_eq_zero_iff]
  obtain ⟨hkeyless, hkeyed⟩ := Engine.run_rows hrun
  exact {
    run := hrun
    columns := hcolumns.trans hnames
    counted := by
      rw [hcolumns, Plan.outputColumns, List.length_append, List.length_map, List.length_map, hkeys,
        haggregates]
    rectangular := hrectangular
    keyless := fun hnil => hkeyless (hnone.mpr hnil)
    keyed := fun hne => hkeyed (mt hnone.mp hne)
    cells := fun i k row name hrow hname => hrectangular.get?_column hrow hname
    objects := hrectangular.objects
    labelled := Engine.run_labelled hrun (hnames.symm ▸ hdistinct) }

theorem derive_tabulates (hs : s.Coherent) {trail : List String} {name : String}
    (h : s.derive trail name = .ok p) (hrun : Engine.run tables p = .ok result) :
    ∃ source query stage, s.sourceNamed? name = some source ∧ source.query = some query ∧
      query.stages = [stage] ∧ p.Tabulates tables stage result := by
  obtain ⟨-, source, query, hsource, hquery, hplan⟩ := derive_eq_ok_iff.mp h
  obtain ⟨stage, start, hstages, hstart, hplan⟩ := compileQueryOf_eq_ok hplan
  exact ⟨source, query, stage, hsource, hquery, hstages,
    compileStage_tabulates hs (sourceNamed?_mem hstart) hplan hrun⟩

/-- **Results are tables under the names that were asked for.** If the plan of a request runs, its
result has the requested columns, none twice, and rows as wide as these; without keys it has one row,
and with keys none exactly if there are no base rows. Its objects have each cell under the name of
its column. The same holds, for the query of its source, of what each nested plan at any depth
gives to the plan that it is nested in. -/
theorem Reachable.results_rectangular (hs : s.Reachable) {request : Request}
    (h : s.compileRequest request = .ok p) (hrun : Engine.run tables p = .ok result) :
    p.Tabulates tables request.stage result ∧
      ∀ q, p.Holds q → ∀ name nested, (name, nested) ∈ q.subPlans →
        ∃ source query stage r, s.sourceNamed? name = some source ∧ source.query = some query ∧
          query.stages = [stage] ∧ nested.Tabulates tables stage r ∧
          Engine.nestedRelation tables (name, nested) = .ok ⟨name, r.columns, r.rows⟩ := by
  constructor
  · obtain ⟨start, hstart, hplan⟩ := compileRequest_eq_ok h
    exact compileStage_tabulates hs.coherent (sourceNamed?_mem hstart) hplan hrun
  · intro q hq name nested hmem
    have hcompiled : s.Compiled q := (compiled_of_request h).holds hs.coherent hq
    obtain ⟨trail, hderive⟩ := hcompiled.derives hs.coherent hmem
    obtain ⟨_, hq⟩ := hq.exists_run hrun
    obtain ⟨r, hr⟩ := (Plan.Holds.nested hmem .self).exists_run hq
    obtain ⟨source, query, stage, hsource, hquery, hstages, htable⟩ :=
      derive_tabulates hs.coherent hderive hr
    exact ⟨source, query, stage, r, hsource, hquery, hstages, htable,
      Engine.nestedRelation_eq_ok_iff.mpr ⟨r, hr, rfl⟩⟩

/-- What the customers of each region have spent: a table of regions and totals, read off a table of
customers and totals. -/
theorem results_rectangular_shop :
    let request : Request := ⟨"customers", [⟨["region"]⟩], [⟨none, some .sum, some ⟨["spending", "total"]⟩⟩]⟩
    shop.Reachable ∧ ∃ plan result nested stage r, shop.compileRequest request = .ok plan ∧
      Engine.run shopTables plan = .ok result ∧ plan.Tabulates shopTables request.stage result ∧
      plan.subPlans = [("spending", nested)] ∧ nested.Tabulates shopTables stage r ∧
      r.columns = ["customer_id", "total"] := by
  intro request
  obtain ⟨plan, result, hplan, hrun⟩ :=
    exists_run shopTables (shop.compileRequest request) (by decide +kernel)
  have hcomputed : (shop.compileRequest request).map (·.subPlans.map (·.1)) = .ok ["spending"] := by
    decide +kernel
  rw [hplan] at hcomputed
  obtain ⟨⟨name, nested⟩, hsub, rfl⟩ := List.map_eq_singleton_iff.mp (Except.ok.inj hcomputed)
  obtain ⟨htable, hnested⟩ := shop_reachable.results_rectangular hplan hrun
  obtain ⟨source, query, stage, r, hsource, hquery, hstages, hr, -⟩ :=
    hnested plan .self _ nested (hsub ▸ List.mem_singleton_self _)
  have hstage : (shop.sourceNamed? "spending").bind (·.query.map (·.stages.map (·.outputNames))) =
      some [["customer_id", "total"]] := by decide +kernel
  have hnames : some [stage.outputNames] = some [["customer_id", "total"]] := by
    rw [← hstage, hsource, Option.bind_some, hquery, Option.map_some, hstages, List.map_singleton]
  exact ⟨shop_reachable, plan, result, nested, stage, r, hplan, hrun, htable, hsub, hr,
    hr.columns.trans (List.singleton_inj.mp (Option.some.inj hnames))⟩

end Store

end Joinery
