/-
Counting the different cells of a column, and grouping by the column.

The aggregate tells cells apart by their texts, grouping by their signatures, and
cells of one text have one signature. So grouping by the column gives no more
rows with a key than the aggregate counts, and fewer exactly when different
cells are grouped together (`groups_le_countDistinct`).
-/
import Joinery.Proofs.Cell.Equality
import Joinery.Proofs.Relation.Joined
import Joinery.Proofs.Relation.Schema
import Mathlib.Data.Finset.Card
import Mathlib.Data.Finset.Image

namespace Joinery

open Json (Value)

/-! ## Classes -/

section

variable {α β γ : Type} [BEq β] [LawfulBEq β] [BEq γ] [LawfulBEq γ]

omit [BEq γ] [LawfulBEq γ] in
theorem eraseDups_length [DecidableEq β] (f : α → β) (xs : List α) :
    (xs.map f).eraseDups.length = (xs.map f).toFinset.card := by
  rw [← List.toFinset_card_of_nodup (nodup_eraseDups (xs.map f))]
  congr 1
  ext y
  simp only [List.mem_toFinset, List.mem_eraseDups]

/-- Coarser classes are fewer, and not fewer exactly when they are the same. -/
theorem eraseDups_length_le {f : α → β} {g : α → γ} (xs : List α)
    (h : ∀ x ∈ xs, ∀ y ∈ xs, g x = g y → f x = f y) :
    (xs.map f).eraseDups.length ≤ (xs.map g).eraseDups.length ∧
    ((xs.map f).eraseDups.length = (xs.map g).eraseDups.length ↔
      ∀ x ∈ xs, ∀ y ∈ xs, f x = f y → g x = g y) := by
  classical
  -- The finer classes are the pairs of both, of which the coarser ones are the images.
  let pairs := (xs.map fun x => (g x, f x)).toFinset
  have hfine : (xs.map g).toFinset = pairs.image Prod.fst := by
    ext; simp [pairs]
  have hcoarse : (xs.map f).toFinset = pairs.image Prod.snd := by
    ext; simp [pairs]
  have hmem {p : γ × β} : p ∈ (pairs : Set (γ × β)) ↔ ∃ x ∈ xs, (g x, f x) = p := by
    simp [pairs]
  have hinj : Set.InjOn Prod.fst (pairs : Set (γ × β)) := by
    rintro _ hp _ hq (hsame : _ = _)
    obtain ⟨x, hx, rfl⟩ := hmem.mp hp
    obtain ⟨y, hy, rfl⟩ := hmem.mp hq
    exact Prod.ext hsame (h x hx y hy hsame)
  rw [eraseDups_length, eraseDups_length, hfine, hcoarse, Finset.card_image_of_injOn hinj]
  refine ⟨Finset.card_image_le, Finset.card_image_iff.trans ⟨fun hsnd x hx y hy hsame => ?_, ?_⟩⟩
  · exact congrArg Prod.fst (hsnd (hmem.mpr ⟨x, hx, rfl⟩) (hmem.mpr ⟨y, hy, rfl⟩) hsame)
  · rintro hfine _ hp _ hq (hsame : _ = _)
    obtain ⟨x, hx, rfl⟩ := hmem.mp hp
    obtain ⟨y, hy, rfl⟩ := hmem.mp hq
    exact Prod.ext (hfine x hx y hy hsame) hsame

end

namespace Relation

/-- The cells of a column, one for each row. -/
def cells (r : Relation) (column : String) : List Value :=
  (List.range r.rows.length).map fun i => r.read (some i) column

/-- Those that are not null. -/
def values (r : Relation) (column : String) : List Value :=
  (r.cells column).filter fun v => !v.isNull

end Relation

/-- How many rows have a key that is not null. -/
def Result.keyed (result : Result) : Nat :=
  result.rows.countP fun row => row.any fun v => !v.isNull

namespace Cell

theorem isNull_normal (v : Value) : (normal v).isNull = v.isNull := by
  rcases v with _ | _ | (n | x) | _ | _ | _
  all_goals first
    | rfl
    | rw [normal_double]; split <;> rfl

end Cell

namespace Engine

/-! ## Counting -/

theorem distinctRows_start (base : Relation) :
    distinctRows 0 (startRows base) = List.range base.rows.length := by
  have hrows : (startRows base).filterMap (fun row => row[0]?.bind id) =
      List.range base.rows.length := by
    rw [startRows, List.filterMap_map]
    exact List.filterMap_some
  rw [distinctRows, hrows, eraseDups_of_nodup List.nodup_range]

theorem bind_root {base : Relation} {column : String} {place : Place}
    (h : bind [base] ⟨.root, column⟩ = .ok place) :
    place.relation = 0 ∧ ∀ row, cellAt [base] place row = base.read row column := by
  have hrelation : place.relation = 0 := by
    simp only [bind, Slot.index, List.getElem?_cons_zero, bind_eq_ok_iff, pure_eq_ok_iff] at h
    obtain ⟨i, -, rfl⟩ := h
    rfl
  refine ⟨hrelation, fun row => ?_⟩
  have hcell := cell_of_bind h [row]
  rwa [cell, hrelation] at hcell

/-- What an aggregate of a column takes, if nothing is joined and all rows are one group. -/
theorem inputCells_start {base : Relation} {column : String} {place : Place}
    (h : bind [base] ⟨.root, column⟩ = .ok place) :
    inputCells [base] place (startRows base) = base.values column := by
  obtain ⟨hrelation, hread⟩ := bind_root h
  rw [inputCells, hrelation, distinctRows_start, Relation.values, Relation.cells]
  simp only [hread]

theorem cells_start {base : Relation} {column : String} {place : Place}
    (h : bind [base] ⟨.root, column⟩ = .ok place) :
    (startRows base).map (fun row => [cell [base] row place]) = (base.cells column).map ([·]) := by
  obtain ⟨hrelation, hread⟩ := bind_root h
  rw [startRows, Relation.cells, List.map_map, List.map_map]
  refine List.map_congr_left fun i _ => ?_
  simp only [Function.comp_apply, cell, hrelation, List.getElem?_cons_zero, Option.bind_some, id,
    hread]

/-! ## Groups of one key -/

theorem mem_groupsBy {cells : JoinedRow → List Value} {rows : List JoinedRow} {vs : List Value}
    (h : rows.map cells = vs.map ([·])) {g : Group} (hg : g ∈ groupsBy cells rows) :
    ∃ v ∈ vs, g.keys = [v] ∧ g.signature = Cell.signature [v] := by
  obtain ⟨row, hrow, hkeys⟩ := groupsBy_keys hg
  obtain ⟨t, -, rfl⟩ := List.mem_map.mp hg
  obtain ⟨hrow, hsame⟩ := List.mem_filter.mp hrow
  have hmem : cells row ∈ vs.map ([·]) := h ▸ List.mem_map_of_mem hrow
  obtain ⟨v, hv, hcells⟩ := List.mem_map.mp hmem
  refine ⟨v, hv, hkeys.trans hcells.symm, ?_⟩
  rw [hcells]
  exact (eq_of_beq hsame).symm

theorem exists_groupsBy {cells : JoinedRow → List Value} {rows : List JoinedRow} {vs : List Value}
    (h : rows.map cells = vs.map ([·])) {v : Value} (hv : v ∈ vs) :
    ∃ g ∈ groupsBy cells rows, g.signature = Cell.signature [v] := by
  have hmem : [v] ∈ rows.map cells := h ▸ List.mem_map_of_mem hv
  obtain ⟨row, hrow, hcells⟩ := List.mem_map.mp hmem
  exact ⟨_, mem_groupsBy_iff.mpr ⟨row, hrow, rfl⟩, congrArg Cell.signature hcells⟩

/-- The groups of rows with one key, of which those with a key that is not null. -/
theorem groupsBy_keyed {cells : JoinedRow → List Value} {rows : List JoinedRow} {vs : List Value}
    (h : rows.map cells = vs.map ([·])) (hfinite : ∀ v ∈ vs, v.IsFinite) :
    (groupsBy cells rows).countP (fun g => g.keys.any fun v => !v.isNull) =
      ((vs.filter fun v => !v.isNull).map fun v => Cell.signature [v]).eraseDups.length := by
  have hnodup := groupsBy_signatures_nodup cells rows
  rw [List.countP_eq_length_filter, ← List.length_map (·.signature)]
  refine ((List.perm_ext_iff_of_nodup (hnodup.sublist (List.filter_sublist.map _))
    (nodup_eraseDups _)).mpr fun t => ?_).length_eq
  simp only [List.mem_map, List.mem_filter, List.mem_eraseDups]
  constructor
  · rintro ⟨g, ⟨hg, hkeyed⟩, rfl⟩
    obtain ⟨v, hv, hkeys, hsignature⟩ := mem_groupsBy h hg
    exact ⟨v, ⟨hv, by simpa [hkeys] using hkeyed⟩, hsignature.symm⟩
  · rintro ⟨v, ⟨hv, hvalue⟩, rfl⟩
    obtain ⟨g, hg, hsignature⟩ := exists_groupsBy h hv
    obtain ⟨w, hw, hkeys, hsame⟩ := mem_groupsBy h hg
    have hnormal := (Cell.signature_eq_iff (hfinite w hw) (hfinite v hv)).mp (hsame.symm.trans hsignature)
    refine ⟨g, ⟨hg, ?_⟩, hsignature⟩
    -- The key of the group need not be the value, but it is not null either.
    rw [hkeys, List.any_cons, List.any_nil, Bool.or_false, ← Cell.isNull_normal, hnormal,
      Cell.isNull_normal]
    exact hvalue

/-! ## Plans -/

/-- A plan that counts the different cells of a column of its base. -/
structure CountsColumn (p : Plan) (column : String) : Prop where
  joins : p.joins = []
  groupBy : p.groupBy = []
  aggregates : ∃ a, p.aggregates = [a] ∧ a.op = .countDistinct ∧ a.target = .column ⟨.root, column⟩

/-- A plan that groups its base by a column. -/
structure GroupsColumn (p : Plan) (column : String) : Prop where
  joins : p.joins = []
  groupBy : ∃ key, p.groupBy = [key] ∧ key.column = ⟨.root, column⟩
  aggregates : p.aggregates = []

variable {base : Relation} {column : String} {p q : Plan}

theorem CountsColumn.evaluateOn (hp : CountsColumn p column) (h : column ∈ base.columns) :
    evaluateOn base [] p =
      .ok ⟨p.outputColumns, [[.int (Cell.countDistinct (base.values column))]]⟩ := by
  obtain ⟨a, ha, hop, htarget⟩ := hp.aggregates
  obtain ⟨place, hplace⟩ : ∃ place, bind [base] ⟨.root, column⟩ = .ok place :=
    exists_bind_iff.mpr ⟨base, rfl, h⟩
  have hinput : bindTarget [base] a.target = .ok (.column place) := by
    rw [htarget, bindTarget, hplace]
    rfl
  simp only [Engine.evaluateOn, hp.joins, hp.groupBy, ha, joinRows, List.mapM_nil, List.mapM_cons,
    hinput, hop, groups]
  rw [← inputCells_start hplace]
  rfl

theorem GroupsColumn.evaluateOn (hp : GroupsColumn p column) (h : column ∈ base.columns)
    (hfinite : ∀ v ∈ base.cells column, v.IsFinite) :
    ∃ result, Engine.evaluateOn base [] p = .ok result ∧
      result.keyed = ((base.values column).map fun v => Cell.signature [v]).eraseDups.length := by
  obtain ⟨key, hkey, hcolumn⟩ := hp.groupBy
  obtain ⟨place, hplace⟩ : ∃ place, bind [base] ⟨.root, column⟩ = .ok place :=
    exists_bind_iff.mpr ⟨base, rfl, h⟩
  simp only [Engine.evaluateOn, hp.joins, hp.aggregates, hkey, joinRows, List.mapM_nil, List.mapM_cons,
    hcolumn, hplace, groups_eq]
  refine ⟨_, rfl, ?_⟩
  rw [Result.keyed, List.countP_map, Relation.values, ← groupsBy_keyed (cells_start hplace) hfinite]
  simp only [Function.comp_def, List.map_nil, List.append_nil]
  rfl

/-- **Grouping by a column gives no more rows with a key than its different cells are counted**, and as
many exactly when different cells have different signatures. -/
theorem groups_le_countDistinct (hp : CountsColumn p column) (hq : GroupsColumn q column)
    (h : column ∈ base.columns) (hfinite : ∀ v ∈ base.cells column, v.IsFinite) :
    ∃ counted grouped n, evaluateOn base [] p = .ok counted ∧ evaluateOn base [] q = .ok grouped ∧
      counted.rows = [[.int (n : Nat)]] ∧ grouped.keyed ≤ n ∧
      (grouped.keyed = n ↔ ∀ v ∈ base.values column, ∀ w ∈ base.values column,
        Cell.signature [v] = Cell.signature [w] → v = w) := by
  obtain ⟨grouped, hgrouped, hkeyed⟩ := hq.evaluateOn h hfinite
  have hvalue : ∀ v ∈ base.values column, v.IsFinite := fun v hv =>
    hfinite v (List.mem_of_mem_filter hv)
  have htext : ∀ v ∈ base.values column, ∀ w ∈ base.values column, v.text = w.text ↔ v = w :=
    fun v hv w hw => ⟨Value.text_inj (hvalue v hv) (hvalue w hw), congrArg Value.text⟩
  obtain ⟨hle, heq⟩ := eraseDups_length_le (f := fun v => Cell.signature [v]) (g := Value.text)
    (base.values column) fun v hv w hw hsame => by rw [(htext v hv w hw).mp hsame]
  refine ⟨_, grouped, Cell.countDistinct (base.values column), hp.evaluateOn h, hgrouped, rfl,
    hkeyed ▸ hle, hkeyed ▸ heq.trans ?_⟩
  exact forall₂_congr fun v hv => forall₂_congr fun w hw => imp_congr_right fun _ => htext v hv w hw

end Engine

end Joinery
