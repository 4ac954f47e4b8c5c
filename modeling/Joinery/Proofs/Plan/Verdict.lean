/-
Whether a stage compiles, and why not.

The items of a stage are planned one after another on what the earlier ones have
left, and yet each fails or succeeds as it does alone. So the verdict on a stage
is put together from the verdicts on its source, on each item as a stage of its
own, and on the names of the output columns, in this order
(`compileStage_verdict`).
-/
import Joinery.Proofs.Plan.Stage

namespace Joinery

/-- The items of a stage as stages of their own, the keys before the aggregates. -/
def Stage.singles (stage : Stage) : List Stage :=
  stage.groupBy.map (fun path => ⟨[path], []⟩) ++ stage.aggregates.map fun request => ⟨[], [request]⟩

namespace Store

/-- No two output columns may have one name. -/
def checkNames (names : List String) : Except CompileError Unit :=
  match firstRepeat? names with
  | some name => .error (.duplicateOutput name)
  | none => .ok ()

variable {s : Store} {derive : Derive} {start : Source}

theorem keyItem_name {path : Path} {k : KeyItem} (h : s.keyItem derive start path = .ok k) :
    path.last? = some k.name := by
  simp only [keyItem, bind_eq_ok_iff, pure_eq_ok_iff] at h
  obtain ⟨r, hr, _, _, e, _, _, _, rfl⟩ := h
  obtain ⟨_, _, hne⟩ := resolveFrom_fields (resolveRequested_eq_ok hr)
  rw [Path.last?, List.getLast?_eq_some_getLast hne, Option.getD_some]

theorem aggregateItem_request {request : AggregateRequest} {i : AggregateItem}
    (h : s.aggregateItem derive start request = .ok i) : i.request = request := by
  simp only [aggregateItem, bind_eq_ok_iff, pure_eq_ok_iff] at h
  obtain ⟨e, _, _, _, rfl⟩ := h
  rfl

theorem items_names {stage : Stage} {keys : List KeyItem} {aggregates : List AggregateItem}
    (hk : s.keyItems derive start stage.groupBy = .ok keys)
    (ha : s.aggregateItems derive start stage.aggregates = .ok aggregates) :
    (StageItems.mk keys aggregates).names = stage.outputNames := by
  rw [keyItems, mapM_eq_ok_iff] at hk
  rw [aggregateItems, mapM_eq_ok_iff] at ha
  have hkeys : stage.groupBy.filterMap Path.last? = keys.map (·.name) := by
    generalize stage.groupBy = paths at hk
    induction hk with
    | nil => rfl
    | cons hk _ ih =>
      rw [List.filterMap_cons, keyItem_name (mapError_eq_ok_iff.mp hk), ih, List.map_cons]
  have haggregates : stage.aggregates.map AggregateRequest.outputName =
      aggregates.map (·.request.outputName) :=
    forall₂_map_eq (fun request i hi => by rw [aggregateItem_request (mapError_eq_ok_iff.mp hi)]) ha
  rw [Stage.outputNames, hkeys, haggregates, StageItems.names]

/-- Whether a stage has items is settled by its source, each item for itself, and the names. -/
theorem stageItems_verdict (stage : Stage) : verdict (s.stageItems derive start stage) = (do
    checkRows derive start
    forM stage.groupBy fun path => verdict ((s.keyItem derive start path).mapError (.requestedBy path))
    forM stage.aggregates fun request =>
      verdict ((s.aggregateItem derive start request).mapError (blame request))
    checkNames stage.outputNames) := by
  rw [← verdict_mapM, ← verdict_mapM, ← verdict_unit (checkRows derive start)]
  refine verdict_bind fun _ _ => verdict_bind fun keys hk => verdict_bind fun aggregates ha => ?_
  simp only [← items_names hk ha, checkNames]
  cases firstRepeat? (StageItems.mk keys aggregates).names <;> rfl

theorem stageItems_key (hrows : checkRows derive start = .ok ()) (path : Path) :
    verdict (s.stageItems derive start ⟨[path], []⟩) =
      verdict ((s.keyItem derive start path).mapError (.requestedBy path)) := by
  have hnames : checkNames (Stage.outputNames ⟨[path], []⟩) = .ok () := by
    cases hp : path.last? <;> simp [Stage.outputNames, hp, checkNames, firstRepeat?, repeatAfter?]
  rw [stageItems_verdict, hrows, hnames, List.forM_cons]
  cases s.keyItem derive start path <;> rfl

theorem stageItems_aggregate (hrows : checkRows derive start = .ok ()) (request : AggregateRequest) :
    verdict (s.stageItems derive start ⟨[], [request]⟩) =
      verdict ((s.aggregateItem derive start request).mapError (blame request)) := by
  have hnames : checkNames (Stage.outputNames ⟨[], [request]⟩) = .ok () := by
    simp [Stage.outputNames, checkNames, firstRepeat?, repeatAfter?]
  rw [stageItems_verdict, hrows, hnames, List.forM_cons]
  cases s.aggregateItem derive start request <;> rfl

/-- A stage compiles when its source, each of its items for itself, and its names let it. -/
theorem compileStage_verdict (hs : s.Coherent) (hstart : start ∈ s.sources) (stage : Stage) :
    verdict (s.compileStage derive start stage) = (do
      verdict (s.compileStage derive start ⟨[], []⟩)
      forM stage.singles fun item => verdict (s.compileStage derive start item)
      checkNames stage.outputNames) := by
  have h (stage : Stage) : verdict (s.stageItems derive start stage) =
      verdict (s.compileStage derive start stage) := (compileStage_agree hs hstart stage).verdict
  simp only [← h]
  cases hrows : checkRows derive start with
  | error e => simp only [stageItems_verdict, hrows]; rfl
  | ok _ =>
    have hsingles : (forM stage.singles fun item => verdict (s.stageItems derive start item)) = (do
        forM stage.groupBy fun path =>
          verdict ((s.keyItem derive start path).mapError (.requestedBy path))
        forM stage.aggregates fun request =>
          verdict ((s.aggregateItem derive start request).mapError (blame request))) := by
      rw [Stage.singles, List.forM_append, List.forM_map, List.forM_map]
      simp only [stageItems_key hrows, stageItems_aggregate hrows]
    rw [hsingles, bind_assoc, stageItems_verdict stage, stageItems_verdict ⟨[], []⟩, hrows]
    rfl

theorem compile_verdict (hs : s.Coherent) (name : String) (stage : Stage) :
    verdict (s.compile name stage) = (do
      verdict (s.compile name ⟨[], []⟩)
      forM stage.singles fun item => verdict (s.compile name item)
      checkNames stage.outputNames) := by
  unfold compile
  cases hstart : s.sourceNamed? name with
  | none => rfl
  | some start => exact compileStage_verdict hs (sourceNamed?_mem hstart) stage

/-- **The items of a stage compile independently.** What fails without any items fails with them.
Otherwise the first item that fails alone gives the error; if there is none, the stage compiles
exactly when its output columns have distinct names, and the first that repeats is reported. -/
theorem Reachable.compile_items (hs : s.Reachable) (name : String) (stage : Stage) :
    (∀ e, s.compile name ⟨[], []⟩ = .error e → s.compile name stage = .error e) ∧
    ((∃ p, s.compile name ⟨[], []⟩ = .ok p) →
      (∀ before item after e, stage.singles = before ++ item :: after →
        (∀ i ∈ before, ∃ p, s.compile name i = .ok p) → s.compile name item = .error e →
        s.compile name stage = .error e) ∧
      ((∀ item ∈ stage.singles, ∃ p, s.compile name item = .ok p) →
        ((∃ p, s.compile name stage = .ok p) ↔ stage.outputNames.Nodup) ∧
        ∀ before repeated after, stage.outputNames = before ++ repeated :: after → before.Nodup →
          repeated ∈ before → s.compile name stage = .error (.duplicateOutput repeated))) := by
  have h := compile_verdict hs.coherent name stage
  refine ⟨fun e he => ?_, fun hbase =>
    ⟨fun before item after e hitems hbefore he => ?_, fun hall => ?_⟩⟩
  · rw [verdict_eq_error_iff.mpr he] at h
    exact verdict_eq_error_iff.mp h
  · rw [verdict_eq_ok_iff.mpr hbase, hitems,
      forM_eq_error (fun i hi => verdict_eq_ok_iff.mpr (hbefore i hi)) (verdict_eq_error_iff.mpr he)] at h
    exact verdict_eq_error_iff.mp h
  · rw [verdict_eq_ok_iff.mpr hbase, forM_eq_ok fun i hi => verdict_eq_ok_iff.mpr (hall i hi)] at h
    have h : verdict (s.compile name stage) = checkNames stage.outputNames := h
    refine ⟨?_, fun before repeated after hnames hd hr => ?_⟩
    · rw [← verdict_eq_ok_iff, h, ← firstRepeat?_eq_none_iff, checkNames]
      cases firstRepeat? stage.outputNames <;> simp
    · rw [checkNames, hnames, firstRepeat?_append after hd hr] at h
      exact verdict_eq_error_iff.mp h

/-- Two paths to a region: each of them can be grouped by, but not both. -/
theorem compile_items_shop :
    let stage : Stage := ⟨[⟨["region"]⟩, ⟨["orders", "customer", "region"]⟩], [⟨none, some .count, none⟩]⟩
    shop.Reachable ∧ (∃ p, shop.compile "customers" ⟨[], []⟩ = .ok p) ∧
      (∀ item ∈ stage.singles, ∃ p, shop.compile "customers" item = .ok p) ∧
      shop.compile "customers" stage = .error (.duplicateOutput "region") := by
  intro stage
  have hbase : ∃ p, shop.compile "customers" ⟨[], []⟩ = .ok p := exists_ok (by decide +kernel)
  have hitems : ∀ item ∈ stage.singles, ∃ p, shop.compile "customers" item = .ok p := by
    have hall : ∀ item ∈ stage.singles, (shop.compile "customers" item).toOption.isSome = true := by
      decide +kernel
    exact fun item hitem => exists_ok (hall item hitem)
  obtain ⟨-, h⟩ := shop_reachable.compile_items "customers" stage
  obtain ⟨-, hnames⟩ := h hbase
  exact ⟨shop_reachable, hbase, hitems,
    (hnames hitems).2 ["region"] "region" ["count"] rfl (by simp) (by simp)⟩

end Store

end Joinery
