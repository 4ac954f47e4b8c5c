/-
Groups of keys without doubles.

Rows are grouped by the text of their keys, in which only a double is not seen as
it is. If there are none, the text tells all keys apart (`signature_inj`), so a
group has all the joined rows of one key tuple and no other, and the output rows
show the tuples in the order in which they first occur (`run_groups_exact`).
-/
import Joinery.Plan.Compile
import Joinery.Proofs.Cell.Order
import Joinery.Proofs.Relation.Joined
import Joinery.Proofs.Store.Reachable

namespace Joinery

open Json (Value)

namespace Cell

/-- No cell has a double in it. -/
def DoubleFree (cells : List Value) : Prop := ∀ v ∈ cells, v.isDoubleFree = true

theorem normal_of_isDoubleFree {v : Value} (h : v.isDoubleFree = true) : normal v = v := by
  rcases v with _ | _ | (n | x) | _ | _ | _
  all_goals first | rfl | cases h

theorem itemsDoubleFree_iff {cells : List Value} :
    Value.itemsDoubleFree cells = true ↔ DoubleFree cells := by
  induction cells with
  | nil => simp [Value.itemsDoubleFree, DoubleFree]
  | cons v vs ih => simp [Value.itemsDoubleFree, DoubleFree, ih]

/-- The signature of cells without doubles is the text of the cells as they are. -/
theorem signature_eq {cells : List Value} (h : DoubleFree cells) :
    signature cells = (Value.array cells).text := by
  have hnormal : cells.map normal = cells :=
    (List.map_congr_left fun v hv => normal_of_isDoubleFree (h v hv)).trans (List.map_id' cells)
  rw [signature, hnormal]

/-- Signatures tell cells without doubles apart. -/
theorem signature_inj {vs ws : List Value} (hv : DoubleFree vs) (hw : DoubleFree ws) :
    signature vs = signature ws ↔ vs = ws := by
  have hfinite {us : List Value} (hu : DoubleFree us) : (Value.array us).IsFinite :=
    Value.itemsFinite_of_itemsDoubleFree (itemsDoubleFree_iff.mpr hu)
  rw [signature_eq hv, signature_eq hw]
  exact ⟨fun h => Value.array.inj (Value.text_inj (hfinite hv) (hfinite hw) h),
    fun h => h ▸ rfl⟩

end Cell

namespace Engine

/-! ## First occurrences -/

/-- The rows whose cells differ from those of all rows before them. -/
def firstRows (cells : JoinedRow → List Value) : List JoinedRow → List JoinedRow
  | [] => []
  | row :: rows => row :: (firstRows cells rows).filter fun r => !Value.sameItems (cells row) (cells r)

variable {cells : JoinedRow → List Value} {rows : List JoinedRow}

theorem firstRows_sublist : ∀ rows : List JoinedRow, (firstRows cells rows).Sublist rows
  | [] => .slnil
  | row :: rows => (List.filter_sublist.trans (firstRows_sublist rows)).cons_cons row

theorem sameItems_iff {vs ws : List Value} (hv : Cell.DoubleFree vs) (hw : Cell.DoubleFree ws) :
    Value.sameItems vs ws = true ↔ vs = ws := by
  rw [← Cell.itemsDoubleFree_iff] at hv hw
  constructor
  · exact Value.eq_of_sameItems (Value.itemsZeroUnsigned_of_itemsDoubleFree hv)
      (Value.itemsZeroUnsigned_of_itemsDoubleFree hw)
  · rintro rfl
    exact Value.sameItems_refl (Value.itemsFinite_of_itemsDoubleFree hv)

theorem signatureOf_inj (h : ∀ row ∈ rows, Cell.DoubleFree (cells row)) {r r' : JoinedRow}
    (hr : r ∈ rows) (hr' : r' ∈ rows) :
    signatureOf cells r = signatureOf cells r' ↔ cells r = cells r' :=
  Cell.signature_inj (h r hr) (h r' hr')

/-- The signatures in order of first occurrence are those of the rows that are the first of their
cells. -/
theorem eraseDups_signatures : ∀ {rows : List JoinedRow}, (∀ row ∈ rows, Cell.DoubleFree (cells row)) →
    (rows.map (signatureOf cells)).eraseDups = (firstRows cells rows).map (signatureOf cells)
  | [], _ => rfl
  | row :: rows, h => by
    obtain ⟨hrow, hrows⟩ := List.forall_mem_cons.mp h
    rw [List.map_cons, List.eraseDups_cons, eraseDups_filter, eraseDups_signatures hrows, firstRows,
      List.map_cons, List.filter_map]
    refine congrArg (_ :: ·) (congrArg _ (List.filter_congr fun r hr => ?_))
    have hmem : r ∈ row :: rows := List.mem_cons_of_mem row ((firstRows_sublist rows).subset hr)
    refine congrArg (!·) (Bool.eq_iff_iff.mpr ?_)
    rw [beq_iff_eq, signatureOf_inj h hmem List.mem_cons_self,
      sameItems_iff hrow (h r hmem), eq_comm]

/-! ## Groups of one tuple -/

/-- The keys of the group of a row are the cells of the row. -/
theorem groupOf_keys (h : ∀ row ∈ rows, Cell.DoubleFree (cells row)) {row : JoinedRow} (hrow : row ∈ rows) :
    (groupOf cells rows (signatureOf cells row)).keys = cells row := by
  have hfound : (rows.find? (signatureOf cells · == signatureOf cells row)).isSome :=
    List.find?_isSome.mpr ⟨row, hrow, beq_self_eq_true _⟩
  obtain ⟨r, hr⟩ := Option.isSome_iff_exists.mp hfound
  have hsame := List.find?_some hr
  rw [beq_iff_eq, signatureOf_inj h (List.mem_of_find?_eq_some hr) hrow] at hsame
  simp only [groupOf, hr, Option.map_some, Option.getD_some, hsame]

theorem groupsBy_map_keys (h : ∀ row ∈ rows, Cell.DoubleFree (cells row)) :
    (groupsBy cells rows).map (·.keys) = (firstRows cells rows).map cells := by
  rw [groupsBy, eraseDups_signatures h, List.map_map, List.map_map]
  exact List.map_congr_left fun row hrow => groupOf_keys h ((firstRows_sublist rows).subset hrow)

theorem mem_groupsBy_rows (h : ∀ row ∈ rows, Cell.DoubleFree (cells row)) {g : Group}
    (hg : g ∈ groupsBy cells rows) {row : JoinedRow} :
    row ∈ g.rows ↔ row ∈ rows ∧ cells row = g.keys := by
  obtain ⟨r, hr, rfl⟩ := mem_groupsBy_iff.mp hg
  rw [groupOf_keys h hr]
  simp only [groupOf, List.mem_filter, beq_iff_eq]
  exact and_congr_right fun hrow => signatureOf_inj h hrow hr

theorem groupsBy_keys_nodup (h : ∀ row ∈ rows, Cell.DoubleFree (cells row)) :
    ((groupsBy cells rows).map (·.keys)).Nodup := by
  refine (List.Nodup.of_map _ (groupsBy_signatures_nodup cells rows)).map_on fun g hg g' hg' hsame => ?_
  refine List.inj_on_of_nodup_map (groupsBy_signatures_nodup cells rows) hg hg' ?_
  obtain ⟨r, hr, rfl⟩ := mem_groupsBy_iff.mp hg
  obtain ⟨r', hr', rfl⟩ := mem_groupsBy_iff.mp hg'
  rw [groupOf_keys h hr, groupOf_keys h hr'] at hsame
  exact (signatureOf_inj h hr hr').mpr hsame

/-! ## Output rows -/

/-- The cells that a joined row has under the keys of a plan. -/
def keyCells (relations : List Relation) (p : Plan) (row : JoinedRow) : List Value :=
  p.groupBy.map fun key => valueAt relations row key.column

/-- The groups that a plan makes of its joined rows. -/
def grouped (relations : List Relation) (p : Plan) (rows : List JoinedRow) :
    Except ExecutionError (List Group) := do
  return groups relations (← p.groupBy.mapM fun key => bind relations key.column) rows

/-- The aggregates of a plan, each with what it takes. -/
def boundInputs (relations : List Relation) (p : Plan) :
    Except ExecutionError (List (Operator × Input)) :=
  p.aggregates.mapM fun a => do return (a.op, ← bindTarget relations a.target)

/-- The output row of a group. -/
def outputRow (relations : List Relation) (inputs : List (Operator × Input)) (g : Group) : Row :=
  g.keys ++ inputs.map fun (op, input) => aggregate relations op g.rows input

theorem output_eq_ok_iff {relations : List Relation} {p : Plan} {result : Result} :
    output relations p rows = .ok result ↔ ∃ gs inputs, grouped relations p rows = .ok gs ∧
      boundInputs relations p = .ok inputs ∧
      result = ⟨p.outputColumns, gs.map (outputRow relations inputs)⟩ := by
  simp only [output, grouped, boundInputs, bind_eq_ok_iff, pure_eq_ok_iff]
  constructor
  · rintro ⟨keys, hkeys, inputs, hinputs, rfl⟩
    exact ⟨_, inputs, ⟨keys, hkeys, rfl⟩, hinputs, rfl⟩
  · rintro ⟨_, inputs, ⟨keys, hkeys, rfl⟩, hinputs, rfl⟩
    exact ⟨keys, hkeys, inputs, hinputs, rfl⟩

theorem keys_cells {relations : List Relation} {p : Plan} {keys : List Place}
    (h : p.groupBy.mapM (fun key => bind relations key.column) = .ok keys) (row : JoinedRow) :
    keys.map (cell relations row) = keyCells relations p row := by
  rw [mapM_eq_ok_iff] at h
  unfold keyCells
  generalize p.groupBy = groupBy at h
  induction h with
  | nil => rfl
  | cons hkey _ ih => rw [List.map_cons, List.map_cons, cell_of_bind hkey, ih]

theorem grouped_eq {relations : List Relation} {p : Plan} {gs : List Group} (hkeys : p.groupBy ≠ [])
    (h : grouped relations p rows = .ok gs) : gs = groupsBy (keyCells relations p) rows := by
  simp only [grouped, bind_eq_ok_iff, pure_eq_ok_iff] at h
  obtain ⟨keys, hbound, rfl⟩ := h
  have hne : keys ≠ [] := by
    rintro rfl
    exact hkeys (List.forall₂_nil_right_iff.mp (mapM_eq_ok_iff.mp hbound))
  rw [groups_eq, if_neg hne]
  simp only [keys_cells hbound]

theorem grouped_keys_length {relations : List Relation} {p : Plan} {gs : List Group}
    (h : grouped relations p rows = .ok gs) {g : Group} (hg : g ∈ gs) :
    g.keys.length = p.groupBy.length := by
  simp only [grouped, bind_eq_ok_iff, pure_eq_ok_iff, mapM_eq_ok_iff] at h
  obtain ⟨keys, hkeys, rfl⟩ := h
  rw [groups_keys_length hg, hkeys.length_eq]

theorem outputRow_take {relations : List Relation} {p : Plan} {gs : List Group}
    (h : grouped relations p rows = .ok gs) {g : Group} (hg : g ∈ gs)
    (inputs : List (Operator × Input)) :
    (outputRow relations inputs g).take p.groupBy.length = g.keys :=
  List.take_left' (grouped_keys_length h hg)

/-- A joined row contributes to the output row of the group at a position. -/
def Contributes (gs : List Group) (k : Nat) (row : JoinedRow) : Prop :=
  ∃ g, gs[k]? = some g ∧ row ∈ g.rows

theorem exists_contributes (cells : JoinedRow → List Value) {row : JoinedRow} (hrow : row ∈ rows) :
    ∃ k, Contributes (groupsBy cells rows) k row := by
  obtain ⟨k, hk⟩ := List.mem_iff_getElem?.mp (mem_groupsBy_iff.mpr ⟨row, hrow, rfl⟩)
  exact ⟨k, _, hk, List.mem_filter.mpr ⟨hrow, beq_self_eq_true _⟩⟩

theorem contributes_iff (h : ∀ row ∈ rows, Cell.DoubleFree (cells row)) {row : JoinedRow}
    (hrow : row ∈ rows) {k : Nat} : Contributes (groupsBy cells rows) k row ↔
      ((groupsBy cells rows).map (·.keys))[k]? = some (cells row) := by
  rw [List.getElem?_map, Option.map_eq_some_iff]
  refine exists_congr fun g => and_congr_right fun hg => ?_
  rw [mem_groupsBy_rows h (List.mem_of_getElem? hg), and_iff_right hrow, eq_comm]

/-- **Grouping is exact on keys without doubles**: joined rows contribute to one output row if and only
if their keys are equal, each contributes to exactly one, and the output rows show the keys that
occur, none of them twice, in the order in which they first occur. -/
theorem run_groups_exact {tables : Tables} {p : Plan} {relations : List Relation}
    {rows : List JoinedRow} {result : Result} (hkeys : p.groupBy ≠ [])
    (hjoined : joined tables p = .ok (relations, rows)) (hrun : run tables p = .ok result)
    (hfree : ∀ row ∈ rows, Cell.DoubleFree (keyCells relations p row)) :
    ∃ gs inputs, grouped relations p rows = .ok gs ∧ boundInputs relations p = .ok inputs ∧
      result.rows = gs.map (outputRow relations inputs) ∧
      (∀ r ∈ rows, ∀ r' ∈ rows, (∃ k, Contributes gs k r ∧ Contributes gs k r') ↔
        keyCells relations p r = keyCells relations p r') ∧
      (∀ r ∈ rows, ∃! k, Contributes gs k r) ∧
      (∀ k g, gs[k]? = some g → ∃ r ∈ rows, Contributes gs k r) ∧
      (result.rows.map (·.take p.groupBy.length)).Nodup ∧
      result.rows.map (·.take p.groupBy.length) =
        (firstRows (keyCells relations p) rows).map (keyCells relations p) := by
  rw [run_of_joined hjoined] at hrun
  obtain ⟨gs, inputs, hgrouped, hinputs, rfl⟩ := output_eq_ok_iff.mp hrun
  have hgs := grouped_eq hkeys hgrouped
  have htuples : (gs.map (outputRow relations inputs)).map (·.take p.groupBy.length) =
      gs.map (·.keys) := by
    rw [List.map_map]
    exact List.map_congr_left fun g hg => outputRow_take hgrouped hg inputs
  refine ⟨gs, inputs, hgrouped, hinputs, rfl, ?_⟩
  rw [htuples]
  subst hgs
  have hnodup := groupsBy_keys_nodup hfree
  refine ⟨fun r hr r' hr' => ⟨?_, fun hsame => ?_⟩, fun r hr => ?_, fun k g hg => ?_, hnodup,
    groupsBy_map_keys hfree⟩
  · rintro ⟨k, hk, hk'⟩
    rw [contributes_iff hfree hr] at hk
    rw [contributes_iff hfree hr', hk] at hk'
    exact Option.some.inj hk'
  · obtain ⟨k, hk⟩ := exists_contributes (keyCells relations p) hr
    refine ⟨k, hk, ?_⟩
    rwa [contributes_iff hfree hr', ← hsame, ← contributes_iff hfree hr]
  · obtain ⟨k, hk⟩ := exists_contributes (keyCells relations p) hr
    refine ⟨k, hk, fun k' hk' => ?_⟩
    rw [contributes_iff hfree hr] at hk hk'
    exact (List.getElem?_inj (List.getElem?_eq_some_iff.mp hk').1 hnodup).mp (hk'.trans hk.symm)
  · obtain ⟨r, hr, -⟩ := groupsBy_keys (List.mem_of_getElem? hg)
    exact ⟨r, ((mem_groupsBy_rows hfree (List.mem_of_getElem? hg)).mp hr).1, g, hg, hr⟩

/-- Orders by the regions of their customers, of which two have none and one is a list. -/
theorem run_groups_exact_regions :
    let request : Request := ⟨"orders", [⟨["customer", "region"]⟩], [⟨none, some .count, none⟩]⟩
    let tables : Tables := ⟨[⟨"customers", ["id", "region"],
        [[.int 1, .null], [.int 2, .array [.string "north"]], [.int 3, .null]]⟩,
      ⟨"orders", ["id", "customer_id", "amount"],
        [[.int 1, .int 3, .int 5], [.int 2, .int 2, .int 7], [.int 3, .int 1, .int 9]]⟩]⟩
    ∃ p relations rows result gs, Store.shop.compileRequest request = .ok p ∧
      joined tables p = .ok (relations, rows) ∧ run tables p = .ok result ∧ p.groupBy ≠ [] ∧
      (∀ row ∈ rows, Cell.DoubleFree (keyCells relations p row)) ∧
      grouped relations p rows = .ok gs ∧ rows.length = 3 ∧ gs.length = 2 ∧
      ∀ r ∈ rows, ∃! k, Contributes gs k r := by
  intro request tables
  have hcomputed : (Store.shop.compileRequest request).map (fun p => (joined tables p).map fun x =>
      (x.2.length, x.2.all fun row => (keyCells x.1 p row).all (·.isDoubleFree),
        (grouped x.1 p x.2).toOption.map (·.length), p.groupBy.length, (run tables p).toOption.isSome)) =
      .ok (.ok (3, true, some 2, 1, true)) := by
    decide +kernel
  obtain ⟨p, hp, h⟩ := map_eq_ok_iff.mp hcomputed
  obtain ⟨⟨relations, rows⟩, hjoined, h⟩ := map_eq_ok_iff.mp h
  simp only [Prod.mk.injEq] at h
  obtain ⟨hlength, hall, hgroups, hkeys, hruns⟩ := h
  have hne : p.groupBy ≠ [] := fun h0 => by simp [h0] at hkeys
  have hfree : ∀ row ∈ rows, Cell.DoubleFree (keyCells relations p row) := fun row hrow =>
    List.all_eq_true.mp (List.all_eq_true.mp hall row hrow)
  cases hrun : run tables p with
  | error e => rw [hrun] at hruns; cases hruns
  | ok result =>
    obtain ⟨gs, inputs, hgrouped, -, -, -, honce, -⟩ := run_groups_exact hne hjoined hrun hfree
    rw [hgrouped] at hgroups
    exact ⟨p, relations, rows, result, gs, hp, hjoined, hrun, hne, hfree, hgrouped, hlength,
      Option.some.inj hgroups, honce⟩

end Engine

end Joinery
