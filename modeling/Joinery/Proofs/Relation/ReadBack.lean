/-
The rows of a result, grouped again by all of their columns.

A signature shows those of the first cells (`signature_prefix`). The groups of a
result have distinct signatures, so its rows, which go on with the aggregates,
have distinct ones as well (`evaluateOn_distinct`). Grouped by all of their cells
they come out one by one, in their order (`evaluateOn_again`).
-/
import Joinery.Proofs.Json.Writer
import Joinery.Proofs.Relation.Evaluate

namespace Joinery

namespace Cell

open Json (Value)

/-- A signature shows the signature of the first cells. -/
theorem signature_prefix {vs ws as bs : List Value} (hl : vs.length = ws.length)
    (h : signature (vs ++ as) = signature (ws ++ bs)) : signature vs = signature ws := by
  unfold signature at h ⊢
  rw [Value.array_text_iff, List.map_append, List.map_append] at h
  rw [Value.array_text_iff]
  have htake := List.forall₂_take vs.length h
  rwa [List.take_left' (List.length_map _), List.take_left' ((List.length_map _).trans hl.symm)] at htake

end Cell

namespace Engine

open Json (Value)

/-! ## Distinct rows -/

theorem groups_signature {relations : List Relation} {keys : List Place} {rows : List JoinedRow}
    {g : Group} (hg : g ∈ groups relations keys rows) : Cell.signature g.keys = g.signature := by
  rw [groups_eq] at hg
  split at hg
  · rw [List.mem_singleton.mp hg]
  · obtain ⟨row, hrow, hkeys⟩ := groupsBy_keys hg
    obtain ⟨t, -, rfl⟩ := List.mem_map.mp hg
    rw [hkeys]
    exact eq_of_beq (List.mem_filter.mp hrow).2

theorem groups_distinct (relations : List Relation) (keys : List Place) (rows : List JoinedRow) :
    ((groups relations keys rows).map (·.signature)).Nodup := by
  rw [groups_eq]
  split
  · exact List.nodup_singleton _
  · exact groupsBy_signatures_nodup _ rows

/-- The rows of a result have distinct signatures. -/
theorem evaluateOn_distinct {base : Relation} {targets : List Relation} {p : Plan} {result : Result}
    (h : evaluateOn base targets p = .ok result) : (result.rows.map Cell.signature).Nodup := by
  simp only [evaluateOn, bind_eq_ok_iff, pure_eq_ok_iff] at h
  obtain ⟨rows, -, keys, -, inputs, -, rfl⟩ := h
  have hdistinct := groups_distinct (base :: targets) keys rows
  rw [List.map_map]
  refine (List.Nodup.of_map _ hdistinct).map_on fun g hg g' hg' hsame => ?_
  refine List.inj_on_of_nodup_map hdistinct hg hg' ?_
  rw [← groups_signature hg, ← groups_signature hg']
  exact Cell.signature_prefix ((groups_keys_length hg).trans (groups_keys_length hg').symm) hsame

/-- A result without columns is one empty row. -/
theorem evaluateOn_bare {base : Relation} {targets : List Relation} {p : Plan} {result : Result}
    (h : evaluateOn base targets p = .ok result) (hc : result.columns = []) : result.rows = [[]] := by
  simp only [evaluateOn, bind_eq_ok_iff, pure_eq_ok_iff, mapM_eq_ok_iff] at h
  obtain ⟨rows, -, keys, hkeys, inputs, hinputs, rfl⟩ := h
  obtain ⟨hgroupBy, haggregates⟩ := List.append_eq_nil_iff.mp hc
  rw [List.map_eq_nil_iff] at hgroupBy haggregates
  rw [hgroupBy, List.forall₂_nil_left_iff] at hkeys
  rw [haggregates, List.forall₂_nil_left_iff] at hinputs
  rw [hkeys, hinputs]
  rfl

/-! ## Grouping again -/

/-- Rows of distinct signatures are groups of their own. -/
theorem groupsBy_distinct {cells : JoinedRow → List Value} {rows : List JoinedRow}
    (h : (rows.map (signatureOf cells)).Nodup) :
    groupsBy cells rows = rows.map fun row => ⟨signatureOf cells row, cells row, [row]⟩ := by
  unfold groupsBy
  rw [eraseDups_of_nodup h, List.map_map]
  refine List.map_congr_left fun row hrow => ?_
  have hfilter : rows.filter (signatureOf cells · == signatureOf cells row) = [row] :=
    filter_of_nodup_map h hrow
  have hfind : rows.find? (signatureOf cells · == signatureOf cells row) = some row := by
    rw [← List.head?_filter, hfilter]
    rfl
  simp only [Function.comp_apply, groupOf, hfind, hfilter, Option.map_some, Option.getD_some]

theorem groupsBy_keys_distinct {cells : JoinedRow → List Value} {rows : List JoinedRow} {out : List Row}
    (hout : rows.map cells = out) (h : (out.map Cell.signature).Nodup) :
    (groupsBy cells rows).map (·.keys) = out := by
  subst hout
  rw [List.map_map] at h
  rw [groupsBy_distinct h, List.map_map]
  rfl

theorem position_getElem {r : Relation} (hd : r.columns.Nodup) {i : Nat} (hi : i < r.columns.length) :
    r.position r.columns[i] = .ok i := by
  have hfound := (findIdx?_eq_some_iff_of_nodup hd).mpr (List.getElem?_eq_getElem hi)
  rw [Relation.position, hfound]

/-- A plan that groups a relation by all of its columns, one after another. -/
structure GroupsAll (p : Plan) (base : Relation) : Prop where
  joins : p.joins = []
  keys : List.Forall₂ (fun column (key : GroupingKey) => key.column = ⟨.root, column⟩)
    base.columns p.groupBy
  aggregates : p.aggregates = []

/-- The places of all columns of the base. -/
def allPlaces (base : Relation) : List Place := (List.range base.columns.length).map fun i => ⟨0, i⟩

theorem GroupsAll.places {p : Plan} {base : Relation} (hp : GroupsAll p base)
    (hcolumns : base.columns.Nodup) :
    (p.groupBy.mapM fun key => bind [base] key.column) = .ok (allPlaces base) := by
  obtain ⟨hlength, hkeys⟩ := List.forall₂_iff_get.mp hp.keys
  refine mapM_eq_ok_iff.mpr (List.forall₂_iff_get.mpr ⟨?_, fun i hi hi' => ?_⟩)
  · rw [allPlaces, List.length_map, List.length_range, hlength]
  · have hi'' : i < base.columns.length := hlength ▸ hi
    have hkey := hkeys i hi'' hi
    simp only [List.get_eq_getElem] at hkey ⊢
    simp only [bind, hkey, Slot.index, List.getElem?_cons_zero, position_getElem hcolumns hi'', allPlaces,
      List.getElem_map, List.getElem_range]
    rfl

theorem cells_allPlaces {base : Relation} {i : Nat} (hi : i < base.rows.length)
    (hwidth : base.rows[i].length = base.columns.length) :
    (allPlaces base).map (cell [base] [some i]) = base.rows[i] := by
  refine List.ext_getElem (by simp [allPlaces, hwidth]) fun k hk hk' => ?_
  simp only [allPlaces, List.getElem_map, List.getElem_range]
  simp [cell, cellAt, Relation.cell?, hi, hk']

/-- **Grouped by all of their columns, rows of distinct signatures come out as they are.** -/
theorem evaluateOn_again {p : Plan} {base : Relation} (hp : GroupsAll p base)
    (hcolumns : base.columns.Nodup) (hwidth : ∀ row ∈ base.rows, row.length = base.columns.length)
    (hdistinct : (base.rows.map Cell.signature).Nodup) (hbare : base.columns = [] → base.rows = [[]]) :
    evaluateOn base [] p = .ok ⟨p.outputColumns, base.rows⟩ := by
  have hcells : ((List.range base.rows.length).map fun i => [some i]).map
      (fun row => (allPlaces base).map (cell [base] row)) = base.rows := by
    rw [List.map_map]
    refine List.ext_getElem (by simp) fun i _ hi => ?_
    simp only [List.getElem_map, List.getElem_range, Function.comp_apply]
    exact cells_allPlaces hi (hwidth _ (List.getElem_mem hi))
  have hkeys : (groups [base] (allPlaces base)
      ((List.range base.rows.length).map fun i => [some i])).map (·.keys) = base.rows := by
    rw [groups_eq]
    split
    · next hnone =>
      have hcolumns : base.columns = [] := by simpa [allPlaces] using hnone
      rw [hbare hcolumns]
      rfl
    · exact groupsBy_keys_distinct hcells hdistinct
  simp only [evaluateOn, hp.joins, hp.aggregates, hp.places hcolumns, joinRows, List.mapM_nil]
  show (Except.ok ⟨p.outputColumns, (groups _ _ _).map fun g => g.keys ++ []⟩ : Except ExecutionError Result) = _
  simp only [List.append_nil, hkeys]

end Engine

end Joinery
