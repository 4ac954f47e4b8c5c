/-
The shape of results.

A result has a row for each group of joined rows. Without keys that is one row,
whatever there is to join; with keys there are rows exactly if the base has some,
since joins drop no row (`run_rows`). If the columns of a result are distinct and its
rows are as wide as they are many, a row has one cell for each name of a column, and
its object has these cells under these names, and nothing else (`Rectangular.objects`).
Keys and aggregates are laid side by side in the columns and, group by group, in the
rows; so the cell that is found by the name of one of them is its own (`run_labelled`).
-/
import Joinery.Proofs.Json.Value
import Joinery.Proofs.Relation.Exact

namespace Joinery

open Json (Value SortedMembers)

namespace Result

/-- No two columns have one name, and each row has a cell for each column. -/
structure Rectangular (r : Result) : Prop where
  distinct : r.columns.Nodup
  width : ∀ row ∈ r.rows, row.length = r.columns.length

/-- An object shows a row: its members, in the order of their names, are the cells that are found in
the row by name. -/
def Shows (r : Result) (i : Nat) (object : Value) : Prop :=
  ∃ members, object = .object members ∧ SortedMembers members ∧
    ∀ name v, (name, v) ∈ members ↔ r.get? i name = some v

variable {r : Result}

/-- Where columns are distinct, a cell is found by the name that stands above it. -/
theorem get?_eq_some_iff (hd : r.columns.Nodup) {i : Nat} {row : Row} (hrow : r.rows[i]? = some row)
    {name : String} {v : Value} :
    r.get? i name = some v ↔ ∃ k : Nat, r.columns[k]? = some name ∧ row[k]? = some v := by
  simp only [get?, Option.bind_eq_bind, Option.bind_eq_some_iff, findIdx?_eq_some_iff_of_nodup hd, hrow,
    Option.some.injEq, exists_eq_left']

theorem mem_zip_iff {names : List String} {row : Row} {name : String} {v : Value} :
    (name, v) ∈ names.zip row ↔ ∃ k : Nat, names[k]? = some name ∧ row[k]? = some v := by
  simp only [List.mem_iff_getElem?, List.getElem?_zip_eq_some]

namespace Rectangular

/-- Each row has a cell under each column, and that is found by the name of the column. -/
theorem get?_column (h : r.Rectangular) {i k : Nat} {row : Row} {name : String}
    (hrow : r.rows[i]? = some row) (hname : r.columns[k]? = some name) :
    ∃ v, row[k]? = some v ∧ r.get? i name = some v := by
  have hwidth := h.width row (List.mem_of_getElem? hrow)
  have hk : k < row.length := hwidth ▸ (List.getElem?_eq_some_iff.mp hname).1
  have hv := List.getElem?_eq_getElem hk
  exact ⟨_, hv, (get?_eq_some_iff h.distinct hrow).mpr ⟨k, hname, hv⟩⟩

theorem shows_row (h : r.Rectangular) {i : Nat} {row : Row} (hrow : r.rows[i]? = some row) :
    r.Shows i (.ofMembers (r.columns.zip row)) := by
  have hwidth := h.width row (List.mem_of_getElem? hrow)
  have hnames : (r.columns.zip row).map (·.1) = r.columns := List.map_fst_zip (Nat.le_of_eq hwidth.symm)
  obtain ⟨members, hobject, hsorted, hperm⟩ := Json.ofMembers_eq (hnames.symm ▸ h.distinct)
  refine ⟨members, hobject, hsorted, fun name v => ?_⟩
  rw [hperm.mem_iff, mem_zip_iff, get?_eq_some_iff h.distinct hrow]

/-- **Nothing is lost in objects**: there is one for each row, and it shows the row. -/
theorem objects (h : r.Rectangular) : ∃ objects, r.objects = .array objects ∧
    objects.length = r.rows.length ∧ ∀ i object, objects[i]? = some object → r.Shows i object := by
  refine ⟨_, rfl, List.length_map _, fun i object hi => ?_⟩
  rw [List.getElem?_map] at hi
  obtain ⟨row, hrow, rfl⟩ := Option.map_eq_some_iff.mp hi
  exact h.shows_row hrow

end Rectangular

end Result

namespace Engine

/-! ## How many rows -/

/-- Joins leave no rows only where there were none. -/
theorem joinRows_eq_nil_iff {relations : List Relation} {joins : List PlannedJoin} {next : Nat}
    {rows out : List JoinedRow} (h : joinRows relations next rows joins = .ok out)
    (hrows : ∀ row ∈ rows, row.length = next) : out = [] ↔ rows = [] := by
  simp only [List.eq_nil_iff_forall_not_mem]
  constructor
  · intro hout row hrow
    obtain ⟨r, hr, -⟩ := joinRows_keeps h hrows row hrow
    exact hout r hr
  · intro hnone row hrow
    exact hnone _ ((mem_joinRows h hrows row).mp hrow).2.1

theorem groupsBy_eq_nil_iff {cells : JoinedRow → List Value} {rows : List JoinedRow} :
    groupsBy cells rows = [] ↔ rows = [] := by
  constructor
  · intro h
    refine List.eq_nil_iff_forall_not_mem.mpr fun row hrow => ?_
    exact List.eq_nil_iff_forall_not_mem.mp h _ (mem_groupsBy_iff.mpr ⟨row, hrow, rfl⟩)
  · rintro rfl
    rfl

/-- Without keys there is one row. With keys there are none exactly if the base has none. -/
theorem evaluateOn_rows {base : Relation} {targets : List Relation} {p : Plan} {result : Result}
    (h : evaluateOn base targets p = .ok result) :
    (p.groupBy = [] → result.rows.length = 1) ∧
      (p.groupBy ≠ [] → (result.rows = [] ↔ base.rows = [])) := by
  simp only [evaluateOn, bind_eq_ok_iff, pure_eq_ok_iff, mapM_eq_ok_iff] at h
  obtain ⟨rows, hrows, keys, hkeys, inputs, -, rfl⟩ := h
  constructor
  · intro hnone
    rw [hnone, List.forall₂_nil_left_iff] at hkeys
    rw [List.length_map, groups_eq, if_pos hkeys]
    rfl
  · intro hsome
    have hne : keys ≠ [] := by
      rintro rfl
      exact hsome (List.forall₂_nil_right_iff.mp hkeys)
    have hstart : startRows base = [] ↔ base.rows = [] := by simp [startRows]
    rw [List.map_eq_nil_iff, groups_eq, if_neg hne, groupsBy_eq_nil_iff, ← hstart]
    exact joinRows_eq_nil_iff hrows startRows_length

/-- The relation of the base of a plan over some tables. -/
def baseOf (tables : Tables) (p : Plan) : Except ExecutionError Relation := do
  let derived ← p.subPlans.mapM (nestedRelation tables)
  baseRelation tables derived p.base

/-- **How many rows a plan gives**: one without keys, and with keys none exactly if its base has none. -/
theorem run_rows {tables : Tables} {p : Plan} {result : Result} (h : run tables p = .ok result) :
    (p.groupBy = [] → result.rows.length = 1) ∧
      (p.groupBy ≠ [] → ∃ base, baseOf tables p = .ok base ∧ (result.rows = [] ↔ base.rows = [])) := by
  obtain ⟨derived, base, targets, hd, hb, -, heval⟩ := run_eq_ok_iff.mp h
  obtain ⟨hkeyless, hkeyed⟩ := evaluateOn_rows heval
  refine ⟨hkeyless, fun hkeys => ⟨base, ?_, hkeyed hkeys⟩⟩
  simp only [baseOf, bind_eq_ok_iff, mapM_eq_ok_iff, nestedRelation_eq_ok_iff]
  exact ⟨derived, hd, hb⟩

/-! ## Which cells -/

/-- A row of a result shows a group: by the name of a key its cell of the group is found, and by the
name of an aggregate what the aggregate makes of the rows of the group. -/
structure ShowsGroup (relations : List Relation) (p : Plan) (r : Result) (i : Nat) (g : Group) : Prop where
  keys : ∀ (k : Nat) key, p.groupBy[k]? = some key →
    ∃ v, g.keys[k]? = some v ∧ r.get? i key.name = some v
  aggregates : ∀ a ∈ p.aggregates, ∃ input, bindTarget relations a.target = .ok input ∧
    r.get? i a.name = some (aggregate relations a.op g.rows input)

theorem showsGroup_outputRow {relations : List Relation} {p : Plan} {rows : List JoinedRow}
    {gs : List Group} {inputs : List (Operator × Input)} (hgs : grouped relations p rows = .ok gs)
    (hinputs : boundInputs relations p = .ok inputs) (hd : p.outputColumns.Nodup) {i : Nat} {g : Group}
    (hg : gs[i]? = some g) :
    ShowsGroup relations p ⟨p.outputColumns, gs.map (outputRow relations inputs)⟩ i g := by
  have hrow : (gs.map (outputRow relations inputs))[i]? = some (outputRow relations inputs g) := by
    rw [List.getElem?_map, hg, Option.map_some]
  have hlength : g.keys.length = p.groupBy.length := grouped_keys_length hgs (List.mem_of_getElem? hg)
  constructor
  · intro k key hkey
    have hk : k < p.groupBy.length := (List.getElem?_eq_some_iff.mp hkey).1
    have hv : g.keys[k]? = some g.keys[k] := List.getElem?_eq_getElem _
    refine ⟨_, hv, (Result.get?_eq_some_iff hd hrow).mpr ⟨k, ?_, ?_⟩⟩
    · rw [Plan.outputColumns, List.getElem?_append_left (by rwa [List.length_map]), List.getElem?_map,
        hkey, Option.map_some]
    · rw [outputRow, List.getElem?_append_left (hlength.symm ▸ hk), hv]
  · intro a ha
    obtain ⟨k, hk⟩ := List.getElem?_of_mem ha
    obtain ⟨⟨op, input⟩, hinput, hbound⟩ := forall₂_getElem? (mapM_eq_ok_iff.mp hinputs) hk
    simp only [bind_eq_ok_iff, pure_eq_ok_iff, Prod.mk.injEq] at hbound
    obtain ⟨_, hbound, rfl, rfl⟩ := hbound
    -- An aggregate stands behind all keys, in the columns and in the row.
    refine ⟨_, hbound, (Result.get?_eq_some_iff hd hrow).mpr ⟨p.groupBy.length + k, ?_, ?_⟩⟩
    · rw [Plan.outputColumns, List.getElem?_append_right (by simp), List.length_map,
        Nat.add_sub_cancel_left, List.getElem?_map, hk, Option.map_some]
    · rw [outputRow, List.getElem?_append_right (by omega), hlength, Nat.add_sub_cancel_left,
        List.getElem?_map, hinput, Option.map_some]

/-- **Cells stand under their names**: where no two columns have one name, each row of a result shows
the group of its place. -/
theorem run_labelled {tables : Tables} {p : Plan} {result : Result} (h : run tables p = .ok result)
    (hd : p.outputColumns.Nodup) : ∃ relations rows gs, joined tables p = .ok (relations, rows) ∧
      grouped relations p rows = .ok gs ∧ result.rows.length = gs.length ∧
      ∀ i g, gs[i]? = some g → ShowsGroup relations p result i g := by
  rw [run_eq_joined, bind_eq_ok_iff] at h
  obtain ⟨⟨relations, rows⟩, hjoined, houtput⟩ := h
  obtain ⟨gs, inputs, hgs, hinputs, rfl⟩ := output_eq_ok_iff.mp houtput
  exact ⟨relations, rows, gs, hjoined, hgs, List.length_map _,
    fun i g hg => showsGroup_outputRow hgs hinputs hd hg⟩

end Engine

end Joinery
