/-
Reading a derived source back.

The output columns of a query are scalar fields of the source that is derived from
it, so the request for all of them compiles, to a plan without joins over the
relation of the source. It groups rows that are distinct as a whole, and gives
them back as they are (`Reachable.read_back`).
-/
import Joinery.Proofs.Plan.Derivation
import Joinery.Proofs.Plan.Run
import Joinery.Proofs.Plan.Verdict
import Joinery.Proofs.Relation.ReadBack
import Joinery.Proofs.Relation.Schema
import Joinery.Proofs.Store.Model

namespace Joinery

/-- The paths of one segment to some fields. -/
def Path.toFields (names : List String) : List Path := names.map fun name => ⟨[name]⟩

namespace Store

variable {s : Store} {derive : Derive} {start : Source} {items : StageItems} {a : Assembly} {p : Plan}

/-! ## Queries that compile -/

theorem compileStage_columns (hs : s.Coherent) (hstart : start ∈ s.sources) {stage : Stage}
    (h : s.compileStage derive start stage = .ok p) :
    p.outputColumns = stage.outputNames ∧ stage.outputNames.Nodup := by
  obtain ⟨items, hitems, a, ha⟩ := (compileStage_agree hs hstart stage).right h
  obtain ⟨-, hkeys, haggregates, hnodup⟩ := stageItems_eq_ok_iff.mp hitems
  have hkeys : s.keyItems derive start stage.groupBy = .ok items.keys :=
    mapM_eq_ok_iff.mpr (hkeys.imp fun _ _ hk => mapError_eq_ok_iff.mpr hk)
  have haggregates : s.aggregateItems derive start stage.aggregates = .ok items.aggregates :=
    mapM_eq_ok_iff.mpr (haggregates.imp fun _ _ hi => mapError_eq_ok_iff.mpr hi)
  rw [ha.outputColumns, ← items_names hkeys haggregates]
  exact ⟨rfl, hnodup⟩

theorem compileQueryOf_columns (hs : s.Coherent) {owner : String} {query : Query}
    (h : s.compileQueryOf derive owner query = .ok p) :
    p.outputColumns = query.outputNames ∧ query.outputNames.Nodup := by
  obtain ⟨stage, start, hstages, hstart, hplan⟩ := compileQueryOf_eq_ok h
  have houtput : query.outputNames = stage.outputNames := by
    rw [Query.outputNames, hstages]
    rfl
  rw [houtput]
  exact compileStage_columns hs (sourceNamed?_mem hstart) hplan

/-! ## The request for all columns -/

/-- The item of a path to a scalar field of the start. -/
def fieldItem (start : Source) (f : Field) : KeyItem := ⟨f.name, ⟨[f.name]⟩, [], f, start⟩

theorem resolveRequested_field {f : Field} (hf : s.fieldNamed? start.id f.name = some f) :
    s.resolveRequested start ⟨[f.name]⟩ = .ok ⟨[], start, f⟩ :=
  mapError_eq_ok_iff.mpr (resolveFrom_field hf)

theorem keyItem_field {f : Field} (hf : s.fieldNamed? start.id f.name = some f) (hk : f.kind = .scalar) :
    s.keyItem derive start ⟨[f.name]⟩ = .ok (fieldItem start f) := by
  have hend : s.keyEnd ⟨[f.name]⟩ ⟨[], start, f⟩ = .ok ⟨[], f, start⟩ := by
    simp only [keyEnd, hk]
  simp only [keyItem, bind_eq_ok_iff, pure_eq_ok_iff]
  exact ⟨_, resolveRequested_field hf, (), rfl, _, hend, (), rfl, rfl⟩

/-- The output columns of a query are scalar fields of the source derived from it. -/
theorem Reachable.output_field (hs : s.Reachable) {source : Source} (hmem : source ∈ s.sources)
    {query : Query} (hq : source.query = some query) {name : String} (hname : name ∈ query.outputNames) :
    ∃ f, f.name = name ∧ s.fieldNamed? source.id f.name = some f ∧ f.kind = .scalar := by
  have hbegins := (hs.furnished source hmem).outputs query hq
  obtain ⟨f, hf, hdef⟩ := List.mem_map.mp (hbegins.subset (List.mem_map_of_mem hname))
  obtain ⟨hn, hk⟩ := FieldDef.mk.inj hdef
  exact ⟨f, hn, hs.fieldNamed?_of_mem hf, hk⟩

theorem stageItems_fields {names : List String} (hrows : checkRows derive start = .ok ())
    (hnodup : names.Nodup) (hfields : ∀ name ∈ names,
      ∃ f, f.name = name ∧ s.fieldNamed? start.id f.name = some f ∧ f.kind = .scalar) :
    ∃ fs : List Field, fs.map (·.name) = names ∧
      s.stageItems derive start ⟨Path.toFields names, []⟩ = .ok ⟨fs.map (fieldItem start), []⟩ := by
  obtain ⟨fs, hfs⟩ := forall₂_exists hfields
  have hnames : fs.map (·.name) = names := by
    rw [← List.map_id names]
    exact (forall₂_map_eq (fun _ _ hf => hf.1.symm) hfs).symm
  refine ⟨fs, hnames, stageItems_eq_ok_iff.mpr ⟨hrows, ?_, .nil, ?_⟩⟩
  · rw [Path.toFields, List.forall₂_map_left_iff, List.forall₂_map_right_iff]
    refine hfs.imp ?_
    rintro _ f ⟨rfl, hf, hk⟩
    exact keyItem_field hf hk
  · rw [← hnames] at hnodup
    simpa [StageItems.names, fieldItem, Function.comp_def] using hnodup

theorem LaysOut.joins_eq_nil (h : LaysOut s derive start items a p) (hc : ∀ c ∈ items.chains, c = []) :
    p.joins = [] := by
  have hchains : a.joins.chains = [] := by
    rw [h.chains]
    refine List.eq_nil_iff_forall_not_mem.mpr fun c hgrown => ?_
    obtain ⟨hne, whole, hwhole, hprefix⟩ := (mem_growAll.mp hgrown).resolve_left List.not_mem_nil
    exact hne (List.prefix_nil.mp (hc whole hwhole ▸ hprefix))
  rw [h.joins, JoinSet.joins, List.map_eq_nil_iff]
  exact List.map_eq_nil_iff.mp hchains

/-- A plan of keys that need no joins groups by fields of its base. -/
theorem LaysOut.groupsAll {fs : List Field} (h : LaysOut s derive start ⟨fs.map (fieldItem start), []⟩ a p)
    {base : Relation} (hbase : base.columns = fs.map (·.name)) : Engine.GroupsAll p base := by
  refine ⟨?_, ?_, ?_⟩
  · refine h.joins_eq_nil fun c hc => ?_
    simp only [StageItems.chains, List.map_nil, List.append_nil, List.map_map] at hc
    obtain ⟨f, -, rfl⟩ := List.mem_map.mp hc
    rfl
  · have hkeys := h.keys
    rw [List.forall₂_map_left_iff] at hkeys
    rw [hbase, List.forall₂_map_left_iff]
    refine hkeys.imp fun f key hkey => ?_
    obtain ⟨slot, hat, rfl⟩ := hkey
    obtain rfl : slot = .root := hat.unique h.laid.rooted At.root
    rfl
  · exact List.forall₂_nil_left_iff.mp h.aggregates

/-- **Reading a derived source back gives its rows.** If the query of a source compiles and runs, then so
does the request that groups the source by all output columns of the query, and gives the same
columns and rows. -/
theorem Reachable.read_back (hs : s.Reachable) {source : Source} (hmem : source ∈ s.sources)
    {query : Query} (hq : source.query = some query) {plan : Plan} (hplan : s.compileQuery query = .ok plan)
    {tables : Tables} {result : Result} (hrun : Engine.run tables plan = .ok result) :
    ∃ p, s.compileRequest ⟨source.name, Path.toFields query.outputNames, []⟩ = .ok p ∧
      Engine.run tables p = .ok result := by
  have hnamed := hs.sourceNamed?_of_mem hmem
  have hderive := hs.coherent.derive_of_query hnamed hq hplan
  obtain ⟨hcolumns, hnodup⟩ := compileQueryOf_columns hs.coherent hplan
  have hresult : result.columns = query.outputNames := (Engine.run_columns hrun).trans hcolumns
  have hrows : checkRows (s.derive []) source = .ok () := checkRows_eq_ok_iff.mpr (.inr ⟨plan, hderive⟩)
  obtain ⟨fs, hnames, hitems⟩ :=
    stageItems_fields hrows hnodup fun name hname => hs.output_field hmem hq hname
  obtain ⟨p, hp, a, ha⟩ := (compileStage_agree hs.coherent hmem _).left hitems
  refine ⟨p, ?_, ?_⟩
  · simp only [compileRequest, compile, hnamed]
    exact hp
  -- The base of the plan is the result under the name of the source.
  let base : Relation := ⟨source.name, result.columns, result.rows⟩
  have hgives : Gives (s.derive []) tables source base := by
    unfold Gives
    rw [hq]
    exact ⟨plan, hderive, result, hrun, rfl⟩
  have hbase : base.columns.Nodup := by
    show result.columns.Nodup
    rwa [hresult]
  have hall : Engine.GroupsAll p base := ha.groupsAll (hresult.trans hnames.symm)
  obtain ⟨_, _, _, -, -, -, heval⟩ := Engine.run_eq_ok_iff.mp hrun
  have hagain : Engine.evaluateOn base [] p = .ok ⟨p.outputColumns, result.rows⟩ :=
    Engine.evaluateOn_again hall hbase (Engine.run_width hrun)
      (Engine.evaluateOn_distinct heval) (Engine.evaluateOn_bare heval)
  have houtput : p.outputColumns = result.columns := by
    rw [ha.outputColumns, hresult, ← hnames]
    simp [StageItems.names, fieldItem, Function.comp_def]
  rw [houtput] at hagain
  exact ha.run_eq_ok_iff.mpr ⟨base, [], hgives, hall.joins ▸ .nil, hagain⟩

/-- What each customer of the shop has spent, read back from the source of the spending. -/
theorem read_back_shop :
    let query : Query :=
      ⟨"orders", [⟨[⟨["customer_id"]⟩], [⟨some "total", some .sum, some ⟨["amount"]⟩⟩]⟩]⟩
    shop.Reachable ∧ ∃ source ∈ shop.sources, source.query = some query ∧
      ∃ plan result p, shop.compileQuery query = .ok plan ∧ Engine.run shopTables plan = .ok result ∧
        shop.compileRequest ⟨source.name, [⟨["customer_id"]⟩, ⟨["total"]⟩], []⟩ = .ok p ∧
        Engine.run shopTables p = .ok result := by
  intro query
  have hderived : (shop.sources.any fun source => source.query == some query) = true := by
    decide +kernel
  obtain ⟨source, hmem, hq⟩ := List.any_eq_true.mp hderived
  have hq : source.query = some query := by simpa using hq
  obtain ⟨plan, result, hplan, hrun⟩ :=
    exists_run shopTables (shop.compileQuery query) (by decide +kernel)
  obtain ⟨p, hp, hagain⟩ := shop_reachable.read_back hmem hq hplan hrun
  exact ⟨shop_reachable, source, hmem, hq, plan, result, p, hplan, hrun, hp, hagain⟩

end Store

end Joinery
