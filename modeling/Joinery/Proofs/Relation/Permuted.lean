/-
Running a plan over tables whose rows stand in another order.

A group has the same keys and the same rows, moved, whatever the order of the rows;
an aggregate that sees its cells as a multiset takes the same value
(`aggregate_move`), and so the output rows are the same, in another order
(`output_move`). Extremes are such aggregates as long as cells are compared by a
linear order, which is why integers have to stay within 64 bits all the way through
nested plans (`output_plain`). The rows of a nested plan are then those of a
relation in another order again (`run_moved`).
-/
import Joinery.Proofs.Plan.Readable
import Joinery.Proofs.Relation.Exact
import Joinery.Proofs.Relation.Moved

namespace Joinery

open Json (Value)

/-- The operator sees its cells as a multiset. -/
def Operator.Unordered (op : Operator) : Prop :=
  op = .count ∨ op = .countDistinct ∨ op = .min ∨ op = .max

instance (op : Operator) : Decidable op.Unordered := inferInstanceAs (Decidable (_ ∨ _))

instance (v : Value) : Decidable (Cell.Plain v) :=
  match v with
  | .number (.int n) =>
    decidable_of_iff (Cell.IsInt64 n) ⟨fun h => ⟨rfl, fun _ hm => by cases hm; exact h⟩, fun h => h.int64 n rfl⟩
  | .number (.double _) => isFalse fun h => Bool.noConfusion h.doubleFree
  | .null | .bool _ | .string _ => isTrue ⟨rfl, nofun⟩
  | .array items =>
    decidable_of_iff ((Value.array items).isDoubleFree = true) ⟨fun h => ⟨h, nofun⟩, (·.doubleFree)⟩
  | .object members =>
    decidable_of_iff ((Value.object members).isDoubleFree = true) ⟨fun h => ⟨h, nofun⟩, (·.doubleFree)⟩

/-- No cell of the relation has a double in it or is an integer beyond 64 bits. -/
def Relation.Plain (r : Relation) : Prop := ∀ row ∈ r.rows, ∀ v ∈ row, Cell.Plain v

instance (r : Relation) : Decidable r.Plain :=
  inferInstanceAs (Decidable (∀ row ∈ r.rows, ∀ v ∈ row, Cell.Plain v))

namespace Tables

/-- The same tables with their rows in another order. -/
def Permuted (ts us : Tables) : Prop :=
  List.Forall₂ Relation.Permuted ts.relations us.relations

/-- All tables are plain. -/
def Plain (ts : Tables) : Prop := ∀ r ∈ ts.relations, r.Plain

instance (ts : Tables) : Decidable ts.Plain :=
  inferInstanceAs (Decidable (∀ r ∈ ts.relations, r.Plain))

end Tables

/-- The same columns, and the same rows in another order. -/
structure Result.Permuted (a b : Result) : Prop where
  columns : a.columns = b.columns
  rows : a.rows.Perm b.rows

namespace Engine

variable {σ : Nat → Equiv.Perm Nat} {relations relations' : List Relation}

/-! ## Aggregates -/

theorem distinctRows_move {rows rows' : List JoinedRow} (h : rows'.Perm (rows.map (move σ))) (k : Nat) :
    (distinctRows k rows').Perm ((distinctRows k rows).map (σ k)) := by
  refine (List.perm_ext_iff_of_nodup (nodup_eraseDups _)
    ((nodup_eraseDups _).map (σ k).injective)).mpr fun m => ?_
  obtain ⟨i, rfl⟩ := (σ k).surjective m
  rw [← distinctRows, ← distinctRows, List.mem_map_of_injective (σ k).injective, mem_distinctRows,
    mem_distinctRows]
  simp [h.mem_iff]

theorem inputCells_move (hm : Moved σ relations relations') {rows rows' : List JoinedRow}
    (h : rows'.Perm (rows.map (move σ))) (place : Place) :
    (inputCells relations' place rows').Perm (inputCells relations place rows) := by
  refine List.Perm.filter _ (((distinctRows_move h place.relation).map _).trans ?_)
  rw [List.map_map]
  refine List.Perm.of_eq (List.map_congr_left fun row _ => ?_)
  exact cellAt_move hm place (some row)

theorem plain_null : Cell.Plain .null := ⟨rfl, nofun⟩

theorem cellAt_plain (h : ∀ r ∈ relations, r.Plain) (place : Place) (row : Option Nat) :
    Cell.Plain (cellAt relations place row) := by
  unfold cellAt
  cases hv : (do (← relations[place.relation]?).cell? (← row) place.column) with
  | none => exact plain_null
  | some v =>
    simp only [Option.bind_eq_bind, Option.bind_eq_some_iff, Relation.cell?] at hv
    obtain ⟨r, hr, i, -, cells, hcells, hv⟩ := hv
    exact h r (List.mem_of_getElem? hr) cells (List.mem_of_getElem? hcells) v (List.mem_of_getElem? hv)

theorem inputCells_comparable (h : ∀ r ∈ relations, r.Plain) (place : Place) (rows : List JoinedRow) :
    ∀ v ∈ inputCells relations place rows, Cell.Comparable v := by
  intro v hv
  obtain ⟨hmem, hvalue⟩ := List.mem_filter.mp hv
  obtain ⟨m, -, rfl⟩ := List.mem_map.mp hmem
  exact ⟨cellAt_plain h place (some m), by simpa using hvalue⟩

/-- Such an operator does not see the order of comparable cells. -/
theorem overCells_perm {op : Operator} (hop : op.Unordered) {cells other : List Value}
    (h : ∀ v ∈ cells, Cell.Comparable v) (hperm : other.Perm cells) :
    overCells op other = overCells op cells := by
  rcases hop with rfl | rfl | rfl | rfl
  · rw [overCells, overCells, hperm.length_eq]
  · rw [overCells, overCells, Cell.countDistinct, Cell.countDistinct,
      (eraseDups_perm (hperm.map Value.text)).length_eq]
  · exact Cell.extreme_perm (by decide) h hperm
  · exact Cell.extreme_perm (by decide) h hperm

/-- An aggregate has the same value for moved rows. -/
theorem aggregate_move (hm : Moved σ relations relations') (hplain : ∀ r ∈ relations, r.Plain)
    {op : Operator} (hop : op.Unordered) {rows rows' : List JoinedRow}
    (h : rows'.Perm (rows.map (move σ))) (input : Input) :
    aggregate relations' op rows' input = aggregate relations op rows input := by
  cases input with
  | rows k =>
    have hlength := (distinctRows_move h k).length_eq
    rw [List.length_map] at hlength
    rw [aggregate, aggregate, hlength]
  | column place =>
    exact overCells_perm hop (inputCells_comparable hplain place rows) (inputCells_move hm h place)

/-! ## Groups -/

/-- The groups of moved rows are the same groups moved, in another order. -/
theorem groupsBy_move {cells cells' : JoinedRow → List Value} {rows rows' : List JoinedRow}
    (hcells : ∀ row, cells' (move σ row) = cells row) (hfree : ∀ row ∈ rows, Cell.DoubleFree (cells row))
    (h : rows'.Perm (rows.map (move σ))) {f f' : Group → Row}
    (hf : ∀ g g' : Group, g'.keys = g.keys → g'.rows.Perm (g.rows.map (move σ)) → f' g' = f g) :
    ((groupsBy cells' rows').map f').Perm ((groupsBy cells rows).map f) := by
  have hsignature (row : JoinedRow) : signatureOf cells' (move σ row) = signatureOf cells row :=
    congrArg Cell.signature (hcells row)
  have hsignatures : (rows'.map (signatureOf cells')).Perm (rows.map (signatureOf cells)) := by
    refine (h.map _).trans (.of_eq ?_)
    rw [List.map_map]
    exact List.map_congr_left fun row _ => hsignature row
  have hfree' : ∀ row ∈ rows', Cell.DoubleFree (cells' row) := fun row hrow => by
    obtain ⟨r, hr, rfl⟩ := List.mem_map.mp (h.mem_iff.mp hrow)
    rw [hcells]
    exact hfree r hr
  unfold groupsBy
  rw [List.map_map, List.map_map]
  refine ((eraseDups_perm hsignatures).map _).trans (.of_eq (List.map_congr_left fun t ht => ?_))
  obtain ⟨row, hrow, rfl⟩ := List.mem_map.mp (List.mem_eraseDups.mp ht)
  refine hf _ _ ?_ ?_
  · have hkeys := groupOf_keys hfree' (h.mem_iff.mpr (List.mem_map_of_mem hrow))
    rw [hcells, hsignature] at hkeys
    rw [hkeys, groupOf_keys hfree hrow]
  · refine (h.filter _).trans (.of_eq ?_)
    rw [List.filter_map]
    refine congrArg _ (List.filter_congr fun r _ => ?_)
    rw [Function.comp_apply, hsignature]

theorem cells_doubleFree (hplain : ∀ r ∈ relations, r.Plain) (keys : List Place) (row : JoinedRow) :
    Cell.DoubleFree (keys.map (cell relations row)) := by
  intro v hv
  obtain ⟨place, -, rfl⟩ := List.mem_map.mp hv
  exact (cellAt_plain hplain place _).doubleFree

theorem grouped_move (hm : Moved σ relations relations') (hplain : ∀ r ∈ relations, r.Plain) {p : Plan}
    {rows rows' : List JoinedRow} (h : rows'.Perm (rows.map (move σ))) {gs gs' : List Group}
    (hgs : grouped relations p rows = .ok gs) (hgs' : grouped relations' p rows' = .ok gs')
    {f f' : Group → Row}
    (hf : ∀ g g' : Group, g'.keys = g.keys → g'.rows.Perm (g.rows.map (move σ)) → f' g' = f g) :
    (gs'.map f').Perm (gs.map f) := by
  simp only [grouped, bind_eq_ok_iff, pure_eq_ok_iff, ← bind_sameShape hm.shape] at hgs hgs'
  obtain ⟨keys, hkeys, rfl⟩ := hgs
  obtain ⟨keys', hkeys', rfl⟩ := hgs'
  cases hkeys.symm.trans hkeys'
  rw [groups_eq, groups_eq]
  split
  · exact .of_eq (congrArg (fun row : Row => [row]) (hf _ _ rfl h))
  · refine groupsBy_move (fun row => ?_) (fun row _ => cells_doubleFree hplain keys row) h hf
    exact List.map_congr_left fun place _ => cell_move hm row place

/-! ## Results -/

/-- **Moved rows give the same output rows**, in another order. -/
theorem output_move (hm : Moved σ relations relations') (hplain : ∀ r ∈ relations, r.Plain) {p : Plan}
    (hops : ∀ a ∈ p.aggregates, a.op.Unordered) {rows rows' : List JoinedRow}
    (h : rows'.Perm (rows.map (move σ))) {result result' : Result}
    (hresult : output relations p rows = .ok result) (hresult' : output relations' p rows' = .ok result') :
    result.Permuted result' := by
  obtain ⟨gs, inputs, hgs, hinputs, rfl⟩ := output_eq_ok_iff.mp hresult
  obtain ⟨gs', inputs', hgs', hinputs', rfl⟩ := output_eq_ok_iff.mp hresult'
  have htarget : bindTarget relations = bindTarget relations' := by
    funext target
    cases target with
    | rows slot => rfl
    | column c => simp only [bindTarget, bind_sameShape hm.shape]
  have hsame : inputs' = inputs := by
    simp only [boundInputs, ← htarget] at hinputs hinputs'
    exact Except.ok.inj (hinputs'.symm.trans hinputs)
  subst hsame
  refine ⟨rfl, (grouped_move hm hplain h hgs hgs' fun g g' hkeys hrows => ?_).symm⟩
  rw [outputRow, outputRow, hkeys]
  refine congrArg (g.keys ++ ·) (List.map_congr_left fun x hx => ?_)
  obtain ⟨a, ha, hbound⟩ := forall₂_mem (mapM_eq_ok_iff.mp hinputs).flip hx
  obtain ⟨input, -, hx⟩ := bind_eq_ok_iff.mp hbound
  cases hx
  exact aggregate_move hm hplain (hops a ha) hrows input

theorem plain_int {n : Nat} (h : n < 0x8000000000000000) : Cell.Plain (.int n) := by
  refine ⟨rfl, fun m hm => ?_⟩
  cases hm
  exact ⟨by omega, by omega⟩

theorem distinctRows_length_le (k : Nat) (rows : List JoinedRow) :
    (distinctRows k rows).length ≤ rows.length :=
  ((nodup_eraseDups _).subperm fun _ hm => List.mem_eraseDups.mp hm).length_le.trans
    (List.length_filterMap_le _ _)

/-- The value of such an operator is plain if the cells are and can be counted in 64 bits. -/
theorem overCells_plain {op : Operator} (hop : op.Unordered) {cells : List Value}
    (h : ∀ v ∈ cells, Cell.Comparable v) (hsize : cells.length < 0x8000000000000000) :
    Cell.Plain (overCells op cells) := by
  have hextreme {keep : Ordering} (hkeep : keep ≠ .eq) : Cell.Plain (Cell.extreme keep cells) := by
    by_cases hnil : cells = []
    · rw [hnil]
      exact plain_null
    · exact (h _ (Cell.extreme_spec hkeep hnil h).1).toPlain
  have hdistinct : Cell.countDistinct cells ≤ cells.length := by
    rw [Cell.countDistinct, ← List.length_map Value.text]
    exact ((nodup_eraseDups _).subperm fun _ hm => List.mem_eraseDups.mp hm).length_le
  rcases hop with rfl | rfl | rfl | rfl
  · exact plain_int hsize
  · exact plain_int (Nat.lt_of_le_of_lt hdistinct hsize)
  · exact hextreme (by decide)
  · exact hextreme (by decide)

theorem aggregate_plain (hplain : ∀ r ∈ relations, r.Plain) {op : Operator} (hop : op.Unordered)
    {rows : List JoinedRow} (hsize : rows.length < 0x8000000000000000) (input : Input) :
    Cell.Plain (aggregate relations op rows input) := by
  cases input with
  | rows k =>
    have hcount := plain_int (Nat.lt_of_le_of_lt (distinctRows_length_le k rows) hsize)
    rcases hop with rfl | rfl | rfl | rfl
    · exact hcount
    · exact hcount
    · exact plain_null
    · exact plain_null
  | column place =>
    refine overCells_plain hop (inputCells_comparable hplain place rows) (Nat.lt_of_le_of_lt ?_ hsize)
    refine (List.length_filter_le _ _).trans ?_
    rw [List.length_map]
    exact distinctRows_length_le _ rows

theorem grouped_rows {p : Plan} {rows : List JoinedRow} {gs : List Group}
    (h : grouped relations p rows = .ok gs) {g : Group} (hg : g ∈ gs) :
    g.rows.length ≤ rows.length ∧
      ∃ (keys : List Place) (row : JoinedRow), g.keys = keys.map (cell relations row) := by
  simp only [grouped, bind_eq_ok_iff, pure_eq_ok_iff] at h
  obtain ⟨keys, -, rfl⟩ := h
  rw [groups_eq] at hg
  split at hg
  · rw [List.mem_singleton.mp hg]
    exact ⟨Nat.le_refl _, [], [], rfl⟩
  · obtain ⟨row, -, hkeys⟩ := groupsBy_keys hg
    obtain ⟨r, -, rfl⟩ := mem_groupsBy_iff.mp hg
    exact ⟨List.length_filter_le _ _, keys, row, hkeys⟩

/-- The cells of a result are plain if those of the relations are and the joined rows can be counted in
64 bits. -/
theorem output_plain (hplain : ∀ r ∈ relations, r.Plain) {p : Plan}
    (hops : ∀ a ∈ p.aggregates, a.op.Unordered) {rows : List JoinedRow}
    (hsize : rows.length < 0x8000000000000000) {result : Result}
    (h : output relations p rows = .ok result) : ∀ row ∈ result.rows, ∀ v ∈ row, Cell.Plain v := by
  obtain ⟨gs, inputs, hgs, hinputs, rfl⟩ := output_eq_ok_iff.mp h
  intro row hrow v hv
  obtain ⟨g, hg, rfl⟩ := List.mem_map.mp hrow
  obtain ⟨hlength, keys, first, hkeys⟩ := grouped_rows hgs hg
  rcases List.mem_append.mp hv with hv | hv
  · rw [hkeys] at hv
    obtain ⟨place, -, rfl⟩ := List.mem_map.mp hv
    exact cellAt_plain hplain place _
  · obtain ⟨⟨op, input⟩, hinput, rfl⟩ := List.mem_map.mp hv
    obtain ⟨a, ha, hbound⟩ := forall₂_mem (mapM_eq_ok_iff.mp hinputs).flip hinput
    obtain ⟨_, -, hop⟩ := bind_eq_ok_iff.mp hbound
    cases hop
    exact aggregate_plain hplain (hops a ha) (Nat.lt_of_le_of_lt hlength hsize) input

/-! ## Nested plans -/

/-- The order of rows does not matter to a plan over these tables: its aggregates are unordered, its joins
of cardinality one have no choice, and its joined rows can be counted in 64 bits. -/
structure OrderFree (tables : Tables) (p : Plan) : Prop where
  ops : ∀ a ∈ p.aggregates, a.op.Unordered
  joined : ∀ relations rows, joined tables p = .ok (relations, rows) →
    rows.length < 0x8000000000000000 ∧ OneMatch relations 1 p.joins rows

theorem orderFree_iff {tables : Tables} {p : Plan} :
    OrderFree tables p ↔ (∀ a ∈ p.aggregates, a.op.Unordered) ∧
      ∀ x ∈ (joined tables p).toOption, x.2.length < 0x8000000000000000 ∧ OneMatch x.1 1 p.joins x.2 := by
  have hok (x : List Relation × List JoinedRow) :
      x ∈ (joined tables p).toOption ↔ joined tables p = .ok x := by
    cases joined tables p <;> simp [Except.toOption]
  simp only [hok, Prod.forall]
  exact ⟨fun h => ⟨h.ops, h.joined⟩, fun h => ⟨h.1, h.2⟩⟩

instance (tables : Tables) (p : Plan) : Decidable (OrderFree tables p) :=
  decidable_of_iff _ orderFree_iff.symm

/-- A plain relation, and the relation with its rows in another order. -/
structure PlainPermuted (r q : Relation) : Prop extends Relation.Permuted r q where
  plain : r.Plain

variable {ts us : Tables} {derived derived' : List Relation}

theorem plainPermuted_of_permuted (h : ts.Permuted us) (hplain : ts.Plain) :
    List.Forall₂ PlainPermuted ts.relations us.relations := by
  unfold Tables.Permuted at h
  unfold Tables.Plain at hplain
  generalize ts.relations = rs, us.relations = qs at h hplain
  induction h with
  | nil => exact .nil
  | cons hrq _ ih =>
    rw [List.forall_mem_cons] at hplain
    exact .cons ⟨hrq, hplain.1⟩ (ih hplain.2)

theorem get_permuted (h : List.Forall₂ PlainPermuted ts.relations us.relations) (name : String) :
    Agree PlainPermuted (ts.get name) (us.get name) := by
  unfold Tables.get
  generalize ts.relations = rs, us.relations = qs at h
  induction h with
  | nil => exact .error _
  | @cons r q _ _ hrq _ ih =>
    rw [List.find?_cons, List.find?_cons, ← hrq.name]
    cases r.name == name with
    | true => exact .ok hrq
    | false => exact ih

theorem sameSchema_of_permuted (h : List.Forall₂ PlainPermuted ts.relations us.relations) :
    ts.SameSchema us := by
  intro name
  have hget := get_permuted h name
  generalize ts.get name = x, us.get name = y at hget
  cases hget with
  | ok hrq => exact congrArg Except.ok hrq.columns
  | error e => rfl

theorem baseRelation_permuted (h : List.Forall₂ PlainPermuted ts.relations us.relations)
    (hd : List.Forall₂ PlainPermuted derived derived') (origin : Base) :
    Agree PlainPermuted (baseRelation ts derived origin) (baseRelation us derived' origin) := by
  cases origin with
  | table name => exact get_permuted h name
  | subPlan position =>
    show Agree _ (derivedRelation derived position) (derivedRelation derived' position)
    unfold derivedRelation
    cases hr : derived[position]? with
    | none =>
      have hnone : derived'[position]? = none := by
        rw [List.getElem?_eq_none_iff] at hr ⊢
        rwa [← hd.length_eq]
      rw [hnone]
      exact .error _
    | some r =>
      obtain ⟨q, hq, hrq⟩ := forall₂_getElem? hd hr
      rw [hq]
      exact .ok hrq

/-- A result whose cells are plain, and the result with its rows in another order. -/
structure PlainResults (a b : Result) : Prop extends Result.Permuted a b where
  plain : ∀ row ∈ a.rows, ∀ v ∈ row, Cell.Plain v

/-- The relations of a plan are those of the other tables in another order, if this is so for the plans
nested in it. -/
theorem joined_permuted (h : List.Forall₂ PlainPermuted ts.relations us.relations) {p : Plan}
    (hnested : ∀ e ∈ p.subPlans, Agree PlainResults (run ts e.2) (run us e.2))
    {relations relations' : List Relation} {rows rows' : List JoinedRow}
    (hjoined : joined ts p = .ok (relations, rows)) (hjoined' : joined us p = .ok (relations', rows')) :
    List.Forall₂ PlainPermuted relations relations' := by
  obtain ⟨derived, base, targets, hd, hb, ht, rfl, -⟩ := joined_eq_ok_iff.mp hjoined
  obtain ⟨derived', base', targets', hd', hb', ht', rfl, -⟩ := joined_eq_ok_iff.mp hjoined'
  have hderived : Agree (List.Forall₂ PlainPermuted) (p.subPlans.mapM (nestedRelation ts))
      (p.subPlans.mapM (nestedRelation us)) := by
    refine Agree.mapM (S := fun c d => c = d ∧ c ∈ p.subPlans)
      (List.forall₂_same.mpr fun e he => ⟨rfl, he⟩) ?_
    rintro e _ ⟨rfl, he⟩
    exact (hnested e he).bind fun _ _ hab => .ok ⟨⟨rfl, hab.columns, hab.rows⟩, hab.plain⟩
  rw [mapM_eq_ok_iff.mpr (hd.imp fun _ _ => nestedRelation_eq_ok_iff.mpr),
    mapM_eq_ok_iff.mpr (hd'.imp fun _ _ => nestedRelation_eq_ok_iff.mpr)] at hderived
  cases hderived with
  | ok hpermuted =>
    have horigins : Agree (List.Forall₂ PlainPermuted) (p.origins.mapM (baseRelation ts derived))
        (p.origins.mapM (baseRelation us derived')) :=
      Agree.mapM (List.forall₂_same.mpr fun origin _ => rfl) fun origin _ he =>
        he ▸ baseRelation_permuted h hpermuted origin
    rw [mapM_eq_ok_iff.mpr (origins_relations.mpr ⟨hb, ht⟩),
      mapM_eq_ok_iff.mpr (origins_relations.mpr ⟨hb', ht'⟩)] at horigins
    cases horigins with
    | ok hrelations => exact hrelations

/-- **Rows in another order give a result in another order**, where the order does not matter to a plan
and to those nested in it. -/
theorem run_moved (h : List.Forall₂ PlainPermuted ts.relations us.relations) (p : Plan)
    (hfree : ∀ q, p.Holds q → OrderFree ts q) : Agree PlainResults (run ts p) (run us p) := by
  induction p using Plan.nested_induction with
  | h p ih =>
  have hnested : ∀ e ∈ p.subPlans, Agree PlainResults (run ts e.2) (run us e.2) := fun e he =>
    ih e he fun q hq => hfree q (.nested he hq)
  refine (run_sameSchema (sameSchema_of_permuted h) p).sharpen fun result result' hrun hrun' => ?_
  rw [run_eq_joined, bind_eq_ok_iff] at hrun hrun'
  obtain ⟨⟨relations, rows⟩, hjoined, hresult⟩ := hrun
  obtain ⟨⟨relations', rows'⟩, hjoined', hresult'⟩ := hrun'
  obtain ⟨hops, hjoins⟩ := hfree p .self
  obtain ⟨hsize, hone⟩ := hjoins relations rows hjoined
  have hrelations := joined_permuted h hnested hjoined hjoined'
  obtain ⟨σ, hmoved⟩ := exists_moved (hrelations.imp fun _ _ hrq => hrq.toPermuted)
  have hplain : ∀ r ∈ relations, r.Plain := fun r hr => by
    obtain ⟨_, -, hrq⟩ := forall₂_mem hrelations hr
    exact hrq.plain
  obtain ⟨_, base, targets, -, -, -, rfl, hrows⟩ := joined_eq_ok_iff.mp hjoined
  obtain ⟨_, base', targets', -, -, -, rfl, hrows'⟩ := joined_eq_ok_iff.mp hjoined'
  have hperm := joinRows_move hmoved hrows hrows' startRows_length (startRows_move hmoved) hone
  exact ⟨output_move hmoved hplain hops hperm hresult hresult', output_plain hplain hops hsize hresult⟩

end Engine

end Joinery
