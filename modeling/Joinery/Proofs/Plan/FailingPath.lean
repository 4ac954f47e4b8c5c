/-
Which path a failure is blamed on.

A request fails with its first item that fails alone, unless its start has no
rows. What fails a single item is blamed on the path of the item, however deep
among the derived sources it lies, but for a defined aggregate whose own path
does not resolve: that is named behind it, in brackets. If the start is derived
and has no plan, the blame is laid on a path of the query of the start, which the
request does not have (`Reachable.failing_path_requested`).
-/
import Joinery.Proofs.Plan.Failure
import Joinery.Proofs.Plan.Verdict

namespace Joinery

/-- The paths that a stage requests: of the keys, and of the aggregates that have one. -/
def Stage.paths (stage : Stage) : List Path := stage.groupBy ++ stage.aggregates.filterMap (·.path)

namespace CompileError

/-- The errors of the request itself are blamed on paths that stray. -/
theorem IsLocal.failingPath {stray : Path → Option Path → Prop} {e : CompileError} (h : e.IsLocal stray)
    {text : String} (ht : e.failingPath? = some text) :
    ∃ p definition, stray p definition ∧ text = pathText p definition := by
  cases e with
  | resolution p definition cause => exact ⟨p, definition, h, (Option.some.inj ht).symm⟩
  | invalidGroupingKey | invalidAggregate | invalidCondition => cases ht
  | unknownSource | cyclicDerivation | unsupportedPipeline | duplicateOutput | derived | internal =>
    exact h.elim

theorem IsLocal.requestedBy {stray : Path → Option Path → Prop} {e : CompileError} (h : e.IsLocal stray)
    (path : Path) : e.requestedBy path = e := by
  cases e <;> first | exact h.elim | rfl

end CompileError

namespace Store

variable {s : Store} {derive : Derive} {start : Source}

/-! ## Derived sources -/

/-- A derived source that has no plan has come back, or its query has none. -/
theorem derive_eq_error {trail : List String} {source : Source} {query : Query} {e : CompileError}
    (hsource : s.Finds source) (hq : source.query = some query)
    (h : s.derive trail source.name = .error e) :
    (∃ chain, e = .cyclicDerivation chain) ∨ ∃ inner, e = .derived source.name none inner ∧
      s.compileQueryOf (s.derive (trail ++ [source.name])) source.name query = .error inner := by
  rw [derive_eq] at h
  split at h
  · cases h
    exact .inl ⟨_, rfl⟩
  have hsource : s.sourceNamed? source.name = some source := hsource
  simp only [hsource, hq] at h
  cases hc : s.compileQueryOf (s.derive (trail ++ [source.name])) source.name query with
  | ok plan =>
    rw [hc] at h
    cases h
  | error inner =>
    rw [hc] at h
    cases h
    cases inner with
    | cyclicDerivation chain => exact .inl ⟨chain, rfl⟩
    | resolution | unknownSource | invalidGroupingKey | invalidAggregate | invalidCondition
    | unsupportedPipeline | duplicateOutput | derived | internal => exact .inr ⟨_, rfl, rfl⟩

/-- The failure of a derived source is blamed on the path that reached it. -/
theorem derive_failingPath {trail : List String} {source : Source} {e : CompileError}
    (hsource : s.Finds source) (hq : source.query.isSome) (h : s.derive trail source.name = .error e)
    (path : Path) {text : String} (ht : (e.requestedBy path).failingPath? = some text) :
    text = path.text := by
  obtain ⟨query, hquery⟩ := Option.isSome_iff_exists.mp hq
  rcases derive_eq_error hsource hquery h with ⟨chain, rfl⟩ | ⟨inner, rfl, -⟩
  · cases ht
  · exact (Option.some.inj ht).symm

/-! ## Items -/

/-- An item that fails is blamed on its path: on one that strays, or on the path that reached a derived
source. -/
theorem Failure.failingPath {trail : List String} {stray : Path → Option Path → Prop} {e : CompileError}
    (h : Failure (s.derive trail) s.Finds stray e) (path : Path) {text : String}
    (ht : (e.requestedBy path).failingPath? = some text) :
    (∃ p definition, stray p definition ∧ text = CompileError.pathText p definition) ∨ text = path.text := by
  rcases h with h | ⟨source, hsource, hq, he⟩
  · rw [h.requestedBy path] at ht
    exact .inl (h.failingPath ht)
  · exact .inr (derive_failingPath hsource hq he path ht)

theorem keyItem_failingPath {trail : List String} {path : Path} {e : CompileError}
    (h : s.keyItem (s.derive trail) start path = .error e) {text : String}
    (ht : (e.requestedBy path).failingPath? = some text) : text = path.text := by
  have hfails : Failure (s.derive trail) s.Finds _ e :=
    keyItem_fails (fun _ _ _ _ _ => finds_of_target) e h
  rcases hfails.failingPath path ht with ⟨_, _, ⟨rfl, rfl⟩, rfl⟩ | rfl <;> rfl

theorem strayDefinition?_eq_none {request : AggregateRequest} {e : AggregateEnd}
    (h : s.aggregateEnd start request = .ok e) : s.strayDefinition? start request = none := by
  unfold strayDefinition?
  split
  · next path hop hpath =>
    simp only [aggregateEnd, hop, hpath] at h
    obtain ⟨r, hr, he⟩ := bind_eq_ok_iff.mp h
    rw [resolveRequested_eq_ok hr, Except.toOption, Option.bind_some, strayInner?]
    unfold definedEnd at he
    split at he
    · cases he
    next definition hdefinition =>
    rw [hdefinition, Option.bind_some]
    split at he
    · next hnone => rw [hnone, Option.filter_none]
    · next inner hinner =>
      simp only [bind_eq_ok_iff, mapError_eq_ok_iff] at he
      obtain ⟨i, hi, -⟩ := he
      rw [hinner, Option.filter_some, hi]
      rfl
  · rfl

theorem aggregateItem_failingPath {trail : List String} (request : AggregateRequest) :
    FailsOnly (fun e => ∀ text, (blame request e).failingPath? = some text → ∃ path,
        request.path = some path ∧ text = CompileError.pathText path (s.strayDefinition? start request))
      (s.aggregateItem (s.derive trail) start request) := by
  unfold aggregateItem
  refine FailsOnly.bind (fun e hend text ht => ?_) fun ending hend =>
    FailsOnly.bind (fun e hchain text ht => ?_) fun _ _ => .ok _
  · have hlocal := aggregateEnd_local request e hend
    have hblame : blame request e = e := by
      unfold blame
      split
      · exact hlocal.requestedBy _
      · rfl
    rw [hblame] at ht
    obtain ⟨path, _, ⟨hpath, rfl⟩, rfl⟩ := hlocal.failingPath ht
    exact ⟨path, hpath, rfl⟩
  · cases hpath : request.path with
    | none =>
      -- Without a path there are no joins, so nothing of them can fail.
      have hneeds := aggregateEnd_needs hend
      simp only [aggregateNeeds, hpath] at hneeds
      rw [← Except.ok.inj hneeds] at hchain
      cases hchain
    | some path =>
      simp only [blame, hpath] at ht
      obtain ⟨source, hleads, -⟩ := aggregateEnd_leads hend
      have htargets := hleads.reads (fun _ hf => hf) fun _ _ _ => finds_of_target
      have hfails : Failure (s.derive trail) s.Finds (fun _ _ => False) e := checkChain_fails htargets e hchain
      refine ⟨path, rfl, ?_⟩
      rw [strayDefinition?_eq_none hend]
      rcases hfails.failingPath path ht with ⟨_, _, hfalse, -⟩ | rfl
      · exact hfalse.elim
      · rfl

/-! ## Requests -/

/-- The first item of a stage that has no plan alone, and why it has none. -/
def FailsFirst (s : Store) (name : String) (stage item : Stage) (e : CompileError) : Prop :=
  ∃ before after, stage.singles = before ++ item :: after ∧
    (∀ i ∈ before, ∃ p, s.compile name i = .ok p) ∧ s.compile name item = .error e

theorem FailsFirst.mem {name : String} {stage item : Stage} {e : CompileError}
    (h : s.FailsFirst name stage item e) : item ∈ stage.singles := by
  obtain ⟨before, after, hsingles, -⟩ := h
  simp [hsingles]

theorem FailsFirst.fails {name : String} {stage item : Stage} {e : CompileError}
    (h : s.FailsFirst name stage item e) : s.compile name item = .error e := by
  obtain ⟨before, after, -, -, hitem⟩ := h
  exact hitem

/-- A stage fails because its start has no rows, with its first item that fails, or because of its names. -/
theorem compile_eq_error (hs : s.Coherent) {name : String} {stage : Stage} {e : CompileError}
    (h : s.compile name stage = .error e) : s.compile name ⟨[], []⟩ = .error e ∨
      (∃ p, s.compile name ⟨[], []⟩ = .ok p) ∧
        ((∃ item, s.FailsFirst name stage item e) ∨ ∃ repeated, e = .duplicateOutput repeated) := by
  have hverdict := compile_verdict hs name stage
  rw [verdict_eq_error_iff.mpr h] at hverdict
  cases hbase : s.compile name ⟨[], []⟩ with
  | error e' =>
    rw [hbase] at hverdict
    cases hverdict
    exact .inl rfl
  | ok p =>
    refine .inr ⟨⟨p, rfl⟩, ?_⟩
    rw [hbase] at hverdict
    cases hitems : forM stage.singles fun item => verdict (s.compile name item) with
    | error e' =>
      simp only [hitems] at hverdict
      cases hverdict
      obtain ⟨before, item, after, hsingles, hbefore, hitem⟩ := exists_of_forM_eq_error hitems
      exact .inl ⟨item, before, after, hsingles, fun i hi => verdict_eq_ok_iff.mp (hbefore i hi),
        verdict_eq_error_iff.mp hitem⟩
    | ok _ =>
      simp only [hitems] at hverdict
      have hnames : checkNames stage.outputNames = .error e := hverdict.symm
      unfold checkNames at hnames
      split at hnames
      · next repeated _ =>
        cases hnames
        exact .inr ⟨repeated, rfl⟩
      · cases hnames

/-- A stage without items fails if its start is derived and has no plan. -/
theorem compileStage_empty (hs : s.Coherent) (hstart : s.Finds start) {e : CompileError}
    (h : s.compileStage derive start ⟨[], []⟩ = .error e) :
    ∃ query, start.query = some query ∧ derive start.name = .error e := by
  have hverdict : verdict (s.stageItems derive start ⟨[], []⟩) =
      verdict (s.compileStage derive start ⟨[], []⟩) :=
    (compileStage_agree hs (sourceNamed?_mem hstart) _).verdict
  rw [verdict_eq_error_iff.mpr h, stageItems_verdict] at hverdict
  cases hq : start.query with
  | none =>
    simp only [checkRows, hq] at hverdict
    cases hverdict
  | some query =>
    simp only [checkRows, hq] at hverdict
    cases hd : derive start.name with
    | ok plan =>
      rw [hd] at hverdict
      cases hverdict
    | error e' =>
      rw [hd] at hverdict
      cases hverdict
      exact ⟨query, rfl, rfl⟩

theorem single_failingPath (hs : s.Coherent) (hstart : s.Finds start) {trail : List String}
    (hrows : ∃ p, s.compileStage (s.derive trail) start ⟨[], []⟩ = .ok p) {stage item : Stage}
    (hitem : item ∈ stage.singles) {e : CompileError}
    (h : s.compileStage (s.derive trail) start item = .error e) {text : String}
    (ht : e.failingPath? = some text) : ∃ path, item.paths = [path] ∧
      text = CompileError.pathText path (item.aggregates.head?.bind (s.strayDefinition? start)) := by
  have hverdict (stage : Stage) : verdict (s.stageItems (s.derive trail) start stage) =
      verdict (s.compileStage (s.derive trail) start stage) :=
    (compileStage_agree hs (sourceNamed?_mem hstart) stage).verdict
  obtain ⟨p, hp⟩ := hrows
  have hrows : checkRows (s.derive trail) start = .ok () := by
    obtain ⟨items, hitems, -⟩ := (compileStage_agree hs (sourceNamed?_mem hstart) _).right hp
    exact (stageItems_eq_ok_iff.mp hitems).1
  have hfails := hverdict item
  rw [verdict_eq_error_iff.mpr h] at hfails
  rcases List.mem_append.mp hitem with hitem | hitem
  · obtain ⟨path, -, rfl⟩ := List.mem_map.mp hitem
    rw [stageItems_key hrows, verdict_eq_error_iff] at hfails
    cases hkey : s.keyItem (s.derive trail) start path with
    | ok k =>
      rw [hkey] at hfails
      cases hfails
    | error e' =>
      rw [hkey] at hfails
      cases hfails
      exact ⟨path, rfl, keyItem_failingPath hkey ht⟩
  · obtain ⟨request, -, rfl⟩ := List.mem_map.mp hitem
    rw [stageItems_aggregate hrows, verdict_eq_error_iff] at hfails
    cases haggregate : s.aggregateItem (s.derive trail) start request with
    | ok i =>
      rw [haggregate] at hfails
      cases hfails
    | error e' =>
      rw [haggregate] at hfails
      cases hfails
      obtain ⟨path, hpath, htext⟩ := aggregateItem_failingPath request e' haggregate text ht
      exact ⟨path, by simp [Stage.paths, hpath], htext⟩

/-- **A failure is blamed on the first item that fails alone**: on its path, with the path of the definition
that it leads to exactly if that does not resolve. Only if the request fails without any items, as
its start is derived and has no plan, it is blamed on a path of the query of the start. -/
theorem Reachable.failing_path_requested (hs : s.Reachable) {request : Request} {e : CompileError}
    {text : String} (h : s.compileRequest request = .error e) (ht : e.failingPath? = some text) :
    ∃ start, s.sourceNamed? request.source = some start ∧
      ((s.compile request.source ⟨[], []⟩ = .error e ∧ ∃ query inner, start.query = some query ∧
          s.compileQueryOf (s.derive [start.name]) start.name query = .error inner ∧
          e = .derived start.name none inner ∧ inner.failingPath? = some text) ∨
        (∃ p, s.compile request.source ⟨[], []⟩ = .ok p) ∧ ∃ item path,
          s.FailsFirst request.source request.stage item e ∧ item.paths = [path] ∧
          text = CompileError.pathText path (item.aggregates.head?.bind (s.strayDefinition? start))) := by
  have hcompile (start : Source) (hstart : s.sourceNamed? request.source = some start) (stage : Stage) :
      s.compile request.source stage = s.compileStage (s.derive []) start stage := by
    rw [compile, hstart]
  cases hstart : s.sourceNamed? request.source with
  | none =>
    rw [compileRequest, compile, hstart] at h
    cases h
    cases ht
  | some start =>
    have hfinds := finds_of_named hstart
    refine ⟨start, rfl, ?_⟩
    rcases compile_eq_error hs.coherent h with hbase | ⟨hrows, hrest⟩
    · refine .inl ⟨hbase, ?_⟩
      rw [hcompile start hstart] at hbase
      obtain ⟨query, hq, hderive⟩ := compileStage_empty hs.coherent hfinds hbase
      rcases derive_eq_error hfinds hq hderive with ⟨chain, rfl⟩ | ⟨inner, rfl, hinner⟩
      · cases ht
      · exact ⟨query, inner, hq, hinner, rfl, ht⟩
    · refine .inr ⟨hrows, ?_⟩
      rcases hrest with ⟨item, hfirst⟩ | ⟨repeated, rfl⟩
      · have hitem := hfirst.fails
        rw [hcompile start hstart] at hrows hitem
        obtain ⟨path, hpaths, htext⟩ := single_failingPath hs.coherent hfinds hrows hfirst.mem hitem ht
        exact ⟨item, path, hfirst, hpaths, htext⟩
      · cases ht

/-- Orders with an aggregate over lines that they do not have, and a source that is derived from them by a
month that they do not have, which they join. -/
def strays : Store :=
  [.defineSource "orders" [⟨"id", .scalar⟩, ⟨"size", .aggregate ⟨.sum, some ⟨["lines", "amount"]⟩⟩⟩] none,
    .defineQuerySource "monthly" ⟨"orders", [⟨[⟨["month"]⟩], []⟩]⟩ none,
    .addJoinField "orders" "monthly" "monthly" .one (.equal ⟨["id"]⟩ ⟨["monthly", "month"]⟩)].foldl
    attempt .empty

theorem strays_reachable : strays.Reachable := Reachable.empty.attempts _

/-- The second key of the orders misses the plan that the months lack, and is blamed for it. -/
theorem failing_path_requested_strays :
    let request : Request := ⟨"orders", [⟨["id"]⟩, ⟨["monthly", "month"]⟩], [⟨none, none, some ⟨["size"]⟩⟩]⟩
    strays.Reachable ∧ ∃ e start, strays.compileRequest request = .error e ∧
      e.failingPath? = some "monthly.month" ∧ strays.sourceNamed? "orders" = some start ∧
      ∃ item path, strays.FailsFirst "orders" request.stage item e ∧ item.paths = [path] ∧
        "monthly.month" =
          CompileError.pathText path (item.aggregates.head?.bind (strays.strayDefinition? start)) := by
  intro request
  have hcomputed : verdict (strays.compileRequest request) = .error (.derived "monthly"
      (some ⟨["monthly", "month"]⟩) (.resolution ⟨["month"]⟩ none (.unknownSegment "orders" "month" 0))) := by
    decide +kernel
  have hcompile := verdict_eq_error_iff.mp hcomputed
  have hrows : ∃ p, strays.compile "orders" ⟨[], []⟩ = .ok p := exists_ok (by decide +kernel)
  refine ⟨strays_reachable, ?_⟩
  obtain ⟨start, hstart, ⟨hbase, _⟩ | ⟨_, hitem⟩⟩ :=
    strays_reachable.failing_path_requested hcompile (by decide +kernel : _ = some "monthly.month")
  · obtain ⟨p, hp⟩ := hrows
    have hbase : strays.compile "orders" ⟨[], []⟩ = _ := hbase
    cases hp.symm.trans hbase
  · exact ⟨_, start, hcompile, by decide +kernel, hstart, hitem⟩

/-- Neither an aggregate whose definition does not resolve nor a start without a plan is blamed on a path
of the request. -/
theorem unrequested_path : strays.Reachable ∧
    (∃ e, strays.compileRequest ⟨"orders", [], [⟨none, none, some ⟨["size"]⟩⟩]⟩ = .error e ∧
      e.failingPath? = some "size (lines.amount)" ∧ (⟨["size"]⟩ : Path).text ≠ "size (lines.amount)") ∧
    ∃ e, strays.compileRequest ⟨"monthly", [], []⟩ = .error e ∧ e.failingPath? = some "month" := by
  have hsize : verdict (strays.compileRequest ⟨"orders", [], [⟨none, none, some ⟨["size"]⟩⟩]⟩) =
      .error (.resolution ⟨["size"]⟩ (some ⟨["lines", "amount"]⟩) (.unknownSegment "orders" "lines" 0)) := by
    decide +kernel
  have hmonthly : verdict (strays.compileRequest ⟨"monthly", [], []⟩) =
      .error (.derived "monthly" none (.resolution ⟨["month"]⟩ none (.unknownSegment "orders" "month" 0))) := by
    decide +kernel
  exact ⟨strays_reachable, ⟨_, verdict_eq_error_iff.mp hsize, by decide +kernel, by decide +kernel⟩,
    _, verdict_eq_error_iff.mp hmonthly, by decide +kernel⟩

end Store

end Joinery
