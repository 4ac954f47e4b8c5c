/-
Counting the rows of the base, group by group.

Joins repeat a row of the base but never drop it (`joinRows_keeps`). A relation
that is reached by joins of cardinality one alone has one row for each row of the
base, however often other joins repeat it (`agree_of_single`). So if all keys are in
such relations, all repetitions of a row are in one group, and the counts of the
groups add up to the rows of the base (`Reachable.count_conserved`).
-/
import Joinery.Proofs.Plan.Joined
import Joinery.Proofs.Relation.Exact

namespace Joinery

open Json (Value)

/-- The relation has at most one row for a row of the base: it is the base, or joined to such a
relation by a join of cardinality one. -/
inductive Plan.Single (p : Plan) : Slot → Prop where
  | root : Single p .root
  | join {i : Nat} {j : PlannedJoin} (hj : p.joins[i]? = some j) (hone : j.cardinality = .one)
    (hparent : Single p j.parent) : Single p (.join i)

namespace Engine

variable {relations : List Relation} {p : Plan}

/-! ## Single rows -/

/-- What a join matches depends on the row of its parent relation alone. -/
def SeesParent (relations : List Relation) (p : Plan) : Prop :=
  ∀ i j, p.joins[i]? = some j → ∀ row row' : JoinedRow, i + 1 < row.length → i + 1 < row'.length →
    row[j.parent.index]? = row'[j.parent.index]? → ∀ m,
      Matches relations j.on (i + 1) (row.take (i + 1)) m ↔
        Matches relations j.on (i + 1) (row'.take (i + 1)) m

/-- Every join of the plan has chosen its row in a joined row. -/
structure ChosenAll (relations : List Relation) (p : Plan) (row : JoinedRow) : Prop where
  length : row.length = p.joins.length + 1
  chosen : ∀ i j, p.joins[i]? = some j → ChosenAt relations j (i + 1) row

/-- Joined rows that agree on the base agree on every single relation. -/
theorem agree_of_single (hsees : SeesParent relations p) {row row' : JoinedRow}
    (hrow : ChosenAll relations p row) (hrow' : ChosenAll relations p row')
    (hbase : row[0]? = row'[0]?) {slot : Slot} (h : p.Single slot) :
    row[slot.index]? = row'[slot.index]? := by
  induction h with
  | root => exact hbase
  | @join i j hj hone _ ih =>
    obtain ⟨x, hx, hchosen⟩ := hrow.chosen i j hj
    obtain ⟨x', hx', hchosen'⟩ := hrow'.chosen i j hj
    have hi := (List.getElem?_eq_some_iff.mp hj).1
    have hlength := hrow.length
    have hlength' := hrow'.length
    have hsame := hsees i j hj row row' (by omega) (by omega) ih
    rw [hone] at hchosen hchosen'
    rw [Slot.index, hx, hx', hchosen.unique ((Cardinality.Chooses.congr hsame x').mpr hchosen')]

theorem keyCells_agree (hsees : SeesParent relations p)
    (hkeys : ∀ key ∈ p.groupBy, p.Single key.column.slot) {row row' : JoinedRow}
    (hrow : ChosenAll relations p row) (hrow' : ChosenAll relations p row')
    (hbase : row[0]? = row'[0]?) : keyCells relations p row = keyCells relations p row' := by
  refine List.map_congr_left fun key hkey => ?_
  rw [valueAt, valueAt, agree_of_single hsees hrow hrow' hbase (hkeys key hkey)]

/-! ## Groups -/

/-- The groups have the joined rows. -/
theorem mem_grouped {rows : List JoinedRow} {gs : List Group} (h : grouped relations p rows = .ok gs)
    {row : JoinedRow} : (∃ g ∈ gs, row ∈ g.rows) ↔ row ∈ rows := by
  simp only [grouped, bind_eq_ok_iff, pure_eq_ok_iff] at h
  obtain ⟨keys, -, rfl⟩ := h
  rw [groups_eq]
  split
  · simp
  · constructor
    · rintro ⟨g, hg, hrow⟩
      obtain ⟨r, -, rfl⟩ := mem_groupsBy_iff.mp hg
      exact List.mem_of_mem_filter hrow
    · intro hrow
      obtain ⟨k, g, hg, hmem⟩ := exists_contributes _ hrow
      exact ⟨g, List.mem_of_getElem? hg, hmem⟩

theorem grouped_apart {rows : List JoinedRow} {gs : List Group}
    (h : grouped relations p rows = .ok gs) : gs.Pairwise fun g g' =>
      ∀ r ∈ g.rows, ∀ r' ∈ g'.rows, keyCells relations p r ≠ keyCells relations p r' := by
  simp only [grouped, bind_eq_ok_iff, pure_eq_ok_iff] at h
  obtain ⟨keys, hkeys, rfl⟩ := h
  rw [groups_eq]
  split
  · exact List.pairwise_singleton _ _
  · have hnodup := groupsBy_signatures_nodup (fun row => keys.map (cell relations row)) rows
    refine (List.pairwise_map.mp hnodup).imp_of_mem fun {g g'} hg hg' hne r hr r' hr' hsame => hne ?_
    obtain ⟨t, -, rfl⟩ := List.mem_map.mp hg
    obtain ⟨t', -, rfl⟩ := List.mem_map.mp hg'
    have hr := eq_of_beq (List.mem_filter.mp hr).2
    have hr' := eq_of_beq (List.mem_filter.mp hr').2
    simp only [signatureOf, keys_cells hkeys] at hr hr'
    show t = t'
    rw [← hr, ← hr', hsame]

/-- The rows of the base in a group. -/
def baseRows (g : Group) : List Nat := distinctRows 0 g.rows

/-- **Every row of the base is in one group**, if all keys are in single relations. -/
theorem baseRows_perm {tables : Tables} {base : Relation} {targets : List Relation} {rows : List JoinedRow}
    (hsees : SeesParent (base :: targets) p) (hkeys : ∀ key ∈ p.groupBy, p.Single key.column.slot)
    (hjoined : joined tables p = .ok (base :: targets, rows)) {gs : List Group}
    (h : grouped (base :: targets) p rows = .ok gs) :
    (gs.flatMap baseRows).Perm (List.range base.rows.length) := by
  obtain ⟨_, _, _, -, -, -, heq, hrows⟩ := joined_eq_ok_iff.mp hjoined
  cases heq
  have hmem := mem_joinRows hrows startRows_length
  have hchosen (row : JoinedRow) (hrow : row ∈ rows) : ChosenAll (base :: targets) p row := by
    obtain ⟨hlength, -, hjoins⟩ := (hmem row).mp hrow
    exact ⟨by omega, fun i j hj => Nat.add_comm 1 i ▸ hjoins i j hj⟩
  refine (List.perm_ext_iff_of_nodup (List.nodup_flatMap.mpr ⟨fun g _ => nodup_eraseDups _, ?_⟩)
    List.nodup_range).mpr fun m => ?_
  · refine (grouped_apart h).imp_of_mem fun {g g'} hg hg' hne m hm hm' => ?_
    obtain ⟨r, hr, hbase⟩ := mem_distinctRows.mp hm
    obtain ⟨r', hr', hbase'⟩ := mem_distinctRows.mp hm'
    exact hne r hr r' hr' (keyCells_agree hsees hkeys (hchosen r ((mem_grouped h).mp ⟨g, hg, hr⟩))
      (hchosen r' ((mem_grouped h).mp ⟨g', hg', hr'⟩)) (hbase.trans hbase'.symm))
  · rw [List.mem_flatMap, List.mem_range]
    constructor
    · rintro ⟨g, hg, hm⟩
      obtain ⟨r, hr, hbase⟩ := mem_distinctRows.mp hm
      obtain ⟨hlength, hstart, -⟩ := (hmem r).mp ((mem_grouped h).mp ⟨g, hg, hr⟩)
      obtain ⟨i, hi, hzero⟩ := (Store.mem_startRows_iff (by omega)).mp hstart
      cases hbase.symm.trans hzero
      exact hi
    · intro hm
      have hstart : [some m] ∈ startRows base := List.mem_map_of_mem (List.mem_range.mpr hm)
      obtain ⟨r, hr, htake⟩ := joinRows_keeps hrows startRows_length _ hstart
      obtain ⟨g, hg, hmem⟩ := (mem_grouped h).mpr hr
      refine ⟨g, hg, mem_distinctRows.mpr ⟨r, hmem, ?_⟩⟩
      rw [← List.getElem?_take_of_lt Nat.zero_lt_one, htake]
      rfl

end Engine

namespace Store

open Engine (SeesParent grouped boundInputs baseRows outputRow)

variable {s : Store}

/-! ## Compiled plans -/

/-- What matches for a join field depends on the row of the parent relation alone. -/
theorem JoinMatches.congr {relations : List Relation} {j : PlannedJoin} {index : Nat}
    {row row' : JoinedRow} (h : row[j.parent.index]? = row'[j.parent.index]?) (m : Nat) :
    s.JoinMatches relations j index row m ↔ s.JoinMatches relations j index row' m := by
  rw [JoinMatches, JoinMatches, h]

theorem LaysOut.seesParent {derive : Derive} {start : Source} {items : StageItems} {a : Assembly}
    {p : Plan} (h : LaysOut s derive start items a p) {relations : List Relation}
    (hlength : relations.length = p.joins.length + 1) : SeesParent relations p := by
  intro i j hj row row' hrow hrow' hsame m
  rw [h.matches_iff hlength hj hrow, h.matches_iff hlength hj hrow', JoinMatches.congr hsame]

/-- A request to count without a path is planned as counting the rows of the base. -/
theorem LaysOut.counts {derive : Derive} {start : Source} {items : StageItems} {a : Assembly}
    {p : Plan} (h : LaysOut s derive start items a p) {stage : Stage}
    (hitems : s.stageItems derive start stage = .ok items) {i : Nat} {request : AggregateRequest}
    (hi : stage.aggregates[i]? = some request) (hop : request.op = some .count)
    (hpath : request.path = none) : ∃ planned, p.aggregates[i]? = some planned ∧
      planned.op = .count ∧ planned.target = .rows .root := by
  obtain ⟨-, -, haggregates, -⟩ := stageItems_eq_ok_iff.mp hitems
  obtain ⟨item, hitem, hend⟩ := forall₂_getElem? haggregates hi
  obtain ⟨planned, hplanned, slot, hat, rfl⟩ := forall₂_getElem? h.aggregates hitem
  simp only [aggregateItem, aggregateEnd, hop, hpath, bind_eq_ok_iff, pure_eq_ok_iff] at hend
  obtain ⟨_, hrows, _, -, rfl⟩ := hend
  cases hrows
  obtain rfl : slot = .root := hat.unique h.laid.rooted At.root
  exact ⟨_, hplanned, rfl, rfl⟩

/-- The cell of such a count in an output row. -/
theorem LaysOut.count_cell {derive : Derive} {start : Source} {items : StageItems} {a : Assembly}
    {p : Plan} (h : LaysOut s derive start items a p) {stage : Stage}
    (hitems : s.stageItems derive start stage = .ok items) {i : Nat} {request : AggregateRequest}
    (hi : stage.aggregates[i]? = some request) (hop : request.op = some .count)
    (hpath : request.path = none) {relations : List Relation} {rows : List JoinedRow}
    {gs : List Engine.Group} {inputs : List (Operator × Input)}
    (hgrouped : grouped relations p rows = .ok gs) (hinputs : boundInputs relations p = .ok inputs)
    {g : Engine.Group} (hg : g ∈ gs) :
    (outputRow relations inputs g)[p.groupBy.length + i]? = some (.int (baseRows g).length) := by
  obtain ⟨planned, hplanned, hcount, htarget⟩ := h.counts hitems hi hop hpath
  obtain ⟨⟨op, input⟩, hinput, hbound⟩ := forall₂_getElem? (mapM_eq_ok_iff.mp hinputs) hplanned
  simp only [hcount, htarget, Engine.bindTarget] at hbound
  cases hbound
  rw [outputRow, List.getElem?_append_right (by rw [Engine.grouped_keys_length hgrouped hg]; omega),
    Engine.grouped_keys_length hgrouped hg, Nat.add_sub_cancel_left, List.getElem?_map, hinput]
  rfl

/-- **The counts of the groups add up to the rows of the base** if every key is in a single relation:
each row of the base is counted once, whether it is matched or not, and whatever else is joined. -/
theorem Reachable.count_conserved (hs : s.Reachable) {request : Request} {plan : Plan}
    (hplan : s.compileRequest request = .ok plan) {i : Nat} {a : AggregateRequest}
    (ha : request.aggregates[i]? = some a) (hop : a.op = some .count) (hpath : a.path = none)
    (hkeys : ∀ key ∈ plan.groupBy, plan.Single key.column.slot) {tables : Tables} {result : Result}
    (hrun : Engine.run tables plan = .ok result) :
    ∃ base targets rows gs, Engine.joined tables plan = .ok (base :: targets, rows) ∧
      grouped (base :: targets) plan rows = .ok gs ∧
      result.rows.map (·[request.groupBy.length + i]?) =
        gs.map (fun g => some (.int (baseRows g).length)) ∧
      (gs.map fun g => (baseRows g).length).sum = base.rows.length ∧
      (gs.flatMap baseRows).Perm (List.range base.rows.length) := by
  obtain ⟨start, items, assembly, -, hitems, hout⟩ := compileRequest_laysOut hs.coherent hplan
  rw [Engine.run_eq_joined] at hrun
  obtain ⟨⟨relations, rows⟩, hjoined, hrun⟩ := bind_eq_ok_iff.mp hrun
  obtain ⟨gs, inputs, hgrouped, hinputs, rfl⟩ := Engine.output_eq_ok_iff.mp hrun
  obtain ⟨derived, base, targets, -, -, htargets, rfl, -⟩ := Engine.joined_eq_ok_iff.mp hjoined
  have hsees : SeesParent (base :: targets) plan :=
    hout.seesParent (by rw [List.length_cons, htargets.length_eq])
  have hperm := Engine.baseRows_perm hsees hkeys hjoined hgrouped
  refine ⟨base, targets, rows, gs, hjoined, hgrouped, ?_, ?_, hperm⟩
  · have hwidth : plan.groupBy.length = request.groupBy.length := by
      rw [← hout.keys.length_eq, ← (stageItems_eq_ok_iff.mp hitems).2.1.length_eq]
      rfl
    rw [List.map_map]
    refine List.map_congr_left fun g hg => ?_
    rw [← hwidth]
    exact hout.count_cell hitems ha hop hpath hgrouped hinputs hg
  · rw [← List.length_flatMap, hperm.length_eq, List.length_range]

/-- Four orders by the region of their customer, one without a customer, and one order repeated by the
other orders of its customer. -/
theorem count_conserved_shop :
    let request : Request := ⟨"orders", [⟨["customer", "region"]⟩],
      [⟨none, some .count, none⟩, ⟨some "all", some .count, some ⟨["customer", "orders"]⟩⟩]⟩
    let tables : Tables := ⟨[⟨"customers", ["id", "region"],
        [[.int 1, .string "north"], [.int 2, .string "south"]]⟩,
      ⟨"orders", ["id", "customer_id", "amount"], [[.int 1, .int 1, .int 5], [.int 2, .int 9, .int 7],
        [.int 3, .int 1, .int 9], [.int 4, .int 2, .int 9]]⟩]⟩
    shop.Reachable ∧ ∃ plan relations rows gs result, shop.compileRequest request = .ok plan ∧
      (∀ key ∈ plan.groupBy, plan.Single key.column.slot) ∧ Engine.run tables plan = .ok result ∧
      Engine.joined tables plan = .ok (relations, rows) ∧ grouped relations plan rows = .ok gs ∧
      rows.length = 6 ∧ result.rows.map (·[1]?) = gs.map (fun g => some (.int (baseRows g).length)) ∧
      (gs.map fun g => (baseRows g).length).sum = 4 := by
  intro request tables
  have hcompiled : (shop.compileRequest request).map (fun plan =>
      (plan.groupBy.map (·.column.slot), plan.joins[0]?.map fun j => (j.cardinality, j.parent))) =
      .ok ([.join 0], some (.one, .root)) := by
    decide +kernel
  have hcomputed : (shop.compileRequest request).map (fun plan =>
      (Engine.joined tables plan).map fun x => (x.2.length, x.1.map (·.rows.length))) =
      .ok (.ok (6, [4, 2, 4])) := by
    decide +kernel
  obtain ⟨plan, result, hplan, hrun⟩ := exists_run tables (shop.compileRequest request) (by decide +kernel)
  rw [hplan] at hcompiled hcomputed
  obtain ⟨hslots, hjoin⟩ := Prod.mk.inj (Except.ok.inj hcompiled)
  obtain ⟨j, hj, hone⟩ := Option.map_eq_some_iff.mp hjoin
  obtain ⟨hcardinality, hparent⟩ := Prod.mk.inj hone
  have hkeys : ∀ key ∈ plan.groupBy, plan.Single key.column.slot := fun key hkey => by
    have hslot : key.column.slot ∈ plan.groupBy.map (·.column.slot) := List.mem_map_of_mem hkey
    rw [hslots] at hslot
    rw [List.mem_singleton.mp hslot]
    exact .join hj hcardinality (hparent ▸ .root)
  obtain ⟨base, targets, rows, gs, hjoined, hgrouped, hcells, hsum, -⟩ :=
    shop_reachable.count_conserved hplan (i := 0) rfl rfl rfl hkeys hrun
  obtain ⟨_, hjoined', hsizes⟩ := map_eq_ok_iff.mp (Except.ok.inj hcomputed)
  cases hjoined.symm.trans hjoined'
  obtain ⟨hlength, hsizes⟩ := Prod.mk.inj hsizes
  exact ⟨shop_reachable, plan, _, rows, gs, result, hplan, hkeys, hrun, hjoined, hgrouped, hlength,
    hcells, hsum.trans (List.cons.inj hsizes).1⟩

end Store

end Joinery
