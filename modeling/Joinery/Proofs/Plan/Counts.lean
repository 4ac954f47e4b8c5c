/-
Counting the different values of a field, and grouping by the field.

The aggregate and the grouping path each compile to a plan without joins over the
table of the source, which counts its column or groups by it. So the engine's
comparison of the two is one of two requests (`Reachable.distinct_counts`).
-/
import Joinery.Proofs.Plan.ReadBack
import Joinery.Proofs.Relation.Counts

namespace Joinery

open Json (Value)

/-- The request for the number of different values at a path. -/
def Request.counting (source : String) (label : Option String) (path : Path) : Request :=
  ⟨source, [], [⟨label, some .countDistinct, some path⟩]⟩

/-- The request that groups a source by a path. -/
def Request.grouping (source : String) (path : Path) : Request := ⟨source, [path], []⟩

namespace Store

variable {s : Store} {derive : Derive} {start : Source} {a : Assembly} {p : Plan}

/-! ## The two plans -/

/-- The item that counts the different values of a scalar field of the start. -/
def countItem (label : Option String) (f : Field) : AggregateItem :=
  ⟨⟨label, some .countDistinct, some ⟨[f.name]⟩⟩, ⟨.countDistinct, [], some f.name, none⟩⟩

theorem aggregateItem_field {f : Field} (hf : s.fieldNamed? start.id f.name = some f)
    (hk : f.kind = .scalar) (label : Option String) :
    s.aggregateItem derive start ⟨label, some .countDistinct, some ⟨[f.name]⟩⟩ =
      .ok (countItem label f) := by
  simp only [aggregateItem, aggregateEnd, resolveRequested_field hf, bind_eq_ok_iff, pure_eq_ok_iff]
  refine ⟨_, ⟨_, rfl, ?_⟩, (), rfl, rfl⟩
  simp only [appliedEnd, hk]

theorem LaysOut.countsColumn {f : Field} {label : Option String}
    (h : LaysOut s derive start ⟨[], [countItem label f]⟩ a p) : Engine.CountsColumn p f.name := by
  obtain ⟨planned, _, ⟨slot, hat, rfl⟩, hnil, haggregates⟩ := List.forall₂_cons_left_iff.mp h.aggregates
  obtain rfl := List.forall₂_nil_left_iff.mp hnil
  obtain rfl : slot = .root := hat.unique h.laid.rooted At.root
  exact ⟨h.joins_eq_nil fun c hc => List.mem_singleton.mp hc, List.forall₂_nil_left_iff.mp h.keys,
    _, haggregates, rfl, rfl⟩

theorem LaysOut.groupsColumn {f : Field} (h : LaysOut s derive start ⟨[fieldItem start f], []⟩ a p) :
    Engine.GroupsColumn p f.name := by
  obtain ⟨key, _, ⟨slot, hat, rfl⟩, hnil, hkeys⟩ := List.forall₂_cons_left_iff.mp h.keys
  obtain rfl := List.forall₂_nil_left_iff.mp hnil
  obtain rfl : slot = .root := hat.unique h.laid.rooted At.root
  exact ⟨h.joins_eq_nil fun c hc => List.mem_singleton.mp hc, ⟨_, hkeys, rfl⟩,
    List.forall₂_nil_left_iff.mp h.aggregates⟩

/-- A plan without joins over a table runs as the engine evaluates it over that table. -/
theorem LaysOut.run_table {items : StageItems} (h : LaysOut s derive start items a p)
    (hq : start.query = none) (hjoins : p.joins = []) {tables : Tables} {r : Relation}
    (hr : tables.get start.name = .ok r) {result : Result} (heval : Engine.evaluateOn r [] p = .ok result) :
    Engine.run tables p = .ok result := by
  have hgives : Gives derive tables start r := by
    unfold Gives
    rwa [hq]
  exact h.run_eq_ok_iff.mpr ⟨r, [], hgives, hjoins ▸ .nil, heval⟩

/-- A request whose items are planned each for itself compiles to a plan that lays them out. -/
theorem Reachable.compileRequest_of_items (hs : s.Reachable) {source : Source} (hmem : source ∈ s.sources)
    (request : Request) (hname : request.source = source.name) {items : StageItems}
    (hitems : s.stageItems (s.derive []) source request.stage = .ok items) :
    ∃ p, s.compileRequest request = .ok p ∧ ∃ a, LaysOut s (s.derive []) source items a p := by
  obtain ⟨p, hp, hlaid⟩ := (compileStage_agree hs.coherent hmem request.stage).left hitems
  refine ⟨p, ?_, hlaid⟩
  simp only [compileRequest, compile, hname, hs.sourceNamed?_of_mem hmem]
  exact hp

/-- **Grouping a table by a column gives no more rows with a key than the column has different cells**,
and as many exactly when different cells are never grouped together. -/
theorem Reachable.distinct_counts (hs : s.Reachable) {source : Source} (hmem : source ∈ s.sources)
    (hq : source.query = none) {f : Field} (hf : f ∈ s.fieldsOf source.id) (hk : f.kind = .scalar)
    {tables : Tables} {r : Relation} (hr : tables.get source.name = .ok r) (hc : f.name ∈ r.columns)
    (hfinite : ∀ v ∈ r.cells f.name, v.IsFinite) (label : Option String) :
    ∃ p q counted grouped n,
      s.compileRequest (.counting source.name label ⟨[f.name]⟩) = .ok p ∧
      s.compileRequest (.grouping source.name ⟨[f.name]⟩) = .ok q ∧
      Engine.run tables p = .ok counted ∧ Engine.run tables q = .ok grouped ∧
      counted.rows = [[.int (n : Nat)]] ∧ grouped.keyed ≤ n ∧
      (grouped.keyed = n ↔ ∀ v ∈ r.values f.name, ∀ w ∈ r.values f.name,
        Cell.signature [v] = Cell.signature [w] → v = w) := by
  have hfield := hs.fieldNamed?_of_mem hf
  have hrows : checkRows (s.derive []) source = .ok () := checkRows_eq_ok_iff.mpr (.inl hq)
  have hcount : s.stageItems (s.derive []) source ⟨[], [⟨label, some .countDistinct, some ⟨[f.name]⟩⟩]⟩ =
      .ok ⟨[], [countItem label f]⟩ :=
    stageItems_eq_ok_iff.mpr
      ⟨hrows, .nil, .cons (aggregateItem_field hfield hk label) .nil, List.nodup_singleton _⟩
  have hgroup : s.stageItems (s.derive []) source ⟨[⟨[f.name]⟩], []⟩ = .ok ⟨[fieldItem source f], []⟩ :=
    stageItems_eq_ok_iff.mpr ⟨hrows, .cons (keyItem_field hfield hk) .nil, .nil, List.nodup_singleton _⟩
  obtain ⟨p, hp, a, hap⟩ :=
    hs.compileRequest_of_items hmem (.counting source.name label ⟨[f.name]⟩) rfl hcount
  obtain ⟨q, hq', b, hbq⟩ :=
    hs.compileRequest_of_items hmem (.grouping source.name ⟨[f.name]⟩) rfl hgroup
  obtain ⟨counted, grouped, n, hcounted, hgrouped, hn, hle, heq⟩ :=
    Engine.groups_le_countDistinct hap.countsColumn hbq.groupsColumn hc hfinite
  exact ⟨p, q, counted, grouped, n, hp, hq', hap.run_table hq hap.countsColumn.joins hr hcounted,
    hbq.run_table hq hbq.groupsColumn.joins hr hgrouped, hn, hle, heq⟩

/-- The regions of the customers of the shop, one of whom has none. -/
theorem distinct_counts_shop :
    let tables : Tables := ⟨[⟨"customers", ["id", "region"], [[.int 1, .string "north"],
      [.int 2, .string "south"], [.int 3, .string "north"], [.int 4, .null]]⟩]⟩
    shop.Reachable ∧ ∃ p q counted grouped,
      shop.compileRequest (.counting "customers" none ⟨["region"]⟩) = .ok p ∧
      shop.compileRequest (.grouping "customers" ⟨["region"]⟩) = .ok q ∧
      Engine.run tables p = .ok counted ∧ Engine.run tables q = .ok grouped ∧
      counted.rows = [[.int grouped.keyed]] ∧ grouped.keyed = 2 := by
  intro tables
  let customers : Source := ⟨0, "customers", some "id", none⟩
  let region : Field := ⟨1, 0, "region", .scalar⟩
  obtain ⟨r, hr⟩ : ∃ r, tables.get customers.name = .ok r := ⟨_, rfl⟩
  have hcells : r.cells "region" = [.string "north", .string "south", .string "north", .null] := by
    cases hr
    rfl
  have hfinite : ∀ v ∈ r.cells "region", v.IsFinite := by
    rw [hcells]
    simp [Value.IsFinite]
  have hmem : customers ∈ shop.sources := List.mem_of_getElem? (i := 0) rfl
  have hf : region ∈ shop.fieldsOf customers.id := List.mem_of_getElem? (i := 1) rfl
  obtain ⟨p, q, counted, grouped, n, hp, hq, hcounted, hgrouped, hn, -, heq⟩ :=
    shop_reachable.distinct_counts hmem rfl hf rfl hr (by cases hr; decide) hfinite none
  -- What is no number stands in its signature as it is.
  have hkeyed : grouped.keyed = n := heq.mpr fun v hv w hw hsame => by
    have bare : ∀ u ∈ r.values "region", u.number? = none := by
      rw [Relation.values, hcells]
      decide +kernel
    have finite : ∀ u ∈ r.values "region", u.IsFinite := fun u hu =>
      hfinite u (List.mem_of_mem_filter hu)
    have hnormal := (Cell.signature_eq_iff (finite v hv) (finite w hw)).mp hsame
    rwa [Cell.normal_of_number?_eq_none (bare v hv), Cell.normal_of_number?_eq_none (bare w hw)] at hnormal
  have hcomputed : (shop.compileRequest (.grouping "customers" ⟨["region"]⟩)).map (fun plan =>
      (Engine.run tables plan).map (·.keyed)) = .ok (.ok 2) := by decide +kernel
  obtain ⟨q', hq', hrun⟩ := map_eq_ok_iff.mp hcomputed
  obtain ⟨grouped', hgrouped', htwo⟩ := map_eq_ok_iff.mp hrun
  cases hq.symm.trans hq'
  cases hgrouped.symm.trans hgrouped'
  exact ⟨shop_reachable, p, q, counted, grouped, hp, hq, hcounted, hgrouped, hkeyed ▸ hn, htwo⟩

/-- An integer and the same number as a double are one group, and are counted as two. -/
theorem counted_apart :
    let tables : Tables := ⟨[⟨"customers", ["id", "region"],
      [[.int 1, .int 1], [.int 2, .number (.double 1.0)]]⟩]⟩
    shop.Reachable ∧ ∃ p q counted grouped,
      shop.compileRequest (.counting "customers" none ⟨["region"]⟩) = .ok p ∧
      shop.compileRequest (.grouping "customers" ⟨["region"]⟩) = .ok q ∧
      Engine.run tables p = .ok counted ∧ Engine.run tables q = .ok grouped ∧
      counted.rows = [[.int 2]] ∧ grouped.keyed = 1 := by
  intro tables
  have hcount : (shop.compileRequest (.counting "customers" none ⟨["region"]⟩)).map (fun plan =>
      (Engine.run tables plan).map (·.rows)) = .ok (.ok [[.int 2]]) := rfl
  have hgroup : (shop.compileRequest (.grouping "customers" ⟨["region"]⟩)).map (fun plan =>
      (Engine.run tables plan).map (·.keyed)) = .ok (.ok 1) := by decide +kernel
  obtain ⟨p, hp, hrun⟩ := map_eq_ok_iff.mp hcount
  obtain ⟨counted, hcounted, htwo⟩ := map_eq_ok_iff.mp hrun
  obtain ⟨q, hq, hrun⟩ := map_eq_ok_iff.mp hgroup
  obtain ⟨grouped, hgrouped, hone⟩ := map_eq_ok_iff.mp hrun
  exact ⟨shop_reachable, p, q, counted, grouped, hp, hq, hcounted, hgrouped, htwo, hone⟩

end Store

end Joinery
