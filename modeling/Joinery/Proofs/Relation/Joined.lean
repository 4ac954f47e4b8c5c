/-
The joined rows of a plan.

A joined row has a row of the base and, join after join, what the join chooses for
the relations before it: nothing if no row of the target matches, the first match
if the cardinality is one, and any match if it is many. The joined rows are all
the rows that are chosen so (`mem_joinRows`), in the lexicographic order of their
positions (`joinRows_sorted`).
-/
import Joinery.Proofs.Relation.Thin

namespace Joinery

open Json (Value)

/-- The cell of a row under the first column of a name. It is null if there is no row. -/
def Relation.read (r : Relation) (row : Option Nat) (column : String) : Value :=
  (do r.cell? (← row) (← r.columns.findIdx? (· == column))).getD .null

/-- What a join chooses among the rows that match: none only if none matches, and of several the
first, unless it takes them all. -/
def Cardinality.Chooses (cardinality : Cardinality) (matching : Nat → Prop) : Option Nat → Prop
  | none => ∀ m, ¬ matching m
  | some m => matching m ∧ (cardinality = .one → ∀ n, matching n → m ≤ n)

theorem Cardinality.Chooses.congr {cardinality : Cardinality} {p q : Nat → Prop}
    (h : ∀ m, p m ↔ q m) (x : Option Nat) : cardinality.Chooses p x ↔ cardinality.Chooses q x := by
  cases x <;> simp only [Chooses, h]

theorem Cardinality.Chooses.unique {matching : Nat → Prop} {x y : Option Nat}
    (hx : Cardinality.one.Chooses matching x) (hy : Cardinality.one.Chooses matching y) : x = y := by
  cases x with
  | none => cases y with
    | none => rfl
    | some n => exact absurd hy.1 (hx n)
  | some m => cases y with
    | none => exact absurd hx.1 (hy m)
    | some n => exact congrArg some (Nat.le_antisymm (hx.2 rfl n hy.1) (hy.2 rfl m hx.1))

namespace Engine

variable {relations : List Relation}

/-! ## Choices -/

/-- The choices among some matches are those that the cardinality makes. -/
theorem mem_choices_iff {c : Cardinality} {found : List Nat} (h : found.Pairwise (· < ·))
    {x : Option Nat} : x ∈ choices c found ↔ c.Chooses (· ∈ found) x := by
  cases found with
  | nil => cases x <;> simp [choices, Cardinality.Chooses]
  | cons first rest =>
    have hfirst := (List.pairwise_cons.mp h).1
    cases c with
    | one =>
      cases x with
      | none => exact ⟨fun h => by simp [choices] at h, fun h => absurd List.mem_cons_self (h first)⟩
      | some m =>
        simp only [choices, Cardinality.Chooses, List.mem_singleton, Option.some.injEq, forall_const]
        constructor
        · rintro rfl
          refine ⟨List.mem_cons_self, fun n hn => ?_⟩
          rcases List.mem_cons.mp hn with rfl | hn
          · exact Nat.le_refl _
          · exact Nat.le_of_lt (hfirst n hn)
        · rintro ⟨hm, hleast⟩
          have hle := hleast first List.mem_cons_self
          rcases List.mem_cons.mp hm with rfl | hm
          · rfl
          · exact absurd (hfirst m hm) (Nat.not_lt.mpr hle)
    | many =>
      cases x with
      | none => exact ⟨fun h => by simp [choices] at h, fun h => absurd List.mem_cons_self (h first)⟩
      | some m => simp [choices, Cardinality.Chooses]

theorem choices_sorted (c : Cardinality) {found : List Nat} (h : found.Pairwise (· < ·)) :
    (choices c found).Pairwise (· < ·) := by
  cases found with
  | nil => simp [choices]
  | cons first rest =>
    cases c with
    | one => simp [choices]
    | many => exact h.map some fun _ _ hlt => hlt

theorem matchesOf_sorted (equalities : List (Place × Place)) (size : Nat) (row : JoinedRow) :
    (matchesOf relations equalities size row).Pairwise (· < ·) :=
  List.pairwise_lt_range.filter _

/-! ## Values -/

/-- The value of a column for a joined row. -/
def valueAt (relations : List Relation) (row : JoinedRow) (c : Column) : Value :=
  match relations[c.slot.index]? with
  | some r => r.read (row[c.slot.index]?.bind id) c.field
  | none => .null

theorem cell_of_bind {c : Column} {place : Place} (h : bind relations c = .ok place)
    (row : JoinedRow) : cell relations row place = valueAt relations row c := by
  unfold bind at h
  unfold valueAt
  cases hr : relations[c.slot.index]? with
  | none => rw [hr] at h; cases h
  | some r =>
    rw [hr] at h
    simp only [bind_eq_ok_iff, pure_eq_ok_iff] at h
    obtain ⟨i, hi, rfl⟩ := h
    unfold Relation.position at hi
    cases hfound : r.columns.findIdx? (· == c.field) with
    | none => rw [hfound] at hi; cases hi
    | some i' =>
      rw [hfound] at hi
      cases hi
      simp only [cell, cellAt, hr, Relation.read, hfound]
      rfl

/-- A joined row satisfies the places of a condition when all equalities of the condition match. -/
theorem satisfies_of_bind {on : BoundCondition} {places : List (Place × Place)}
    (h : bindEqualities relations on = .ok places) (row : JoinedRow) :
    satisfies relations places row =
      on.equalities.all fun e => Cell.matched (valueAt relations row e.1) (valueAt relations row e.2) := by
  unfold bindEqualities at h
  rw [mapM_eq_ok_iff] at h
  unfold satisfies
  generalize on.equalities = equalities at h
  induction h with
  | nil => rfl
  | cons he _ ih =>
    simp only [bind_eq_ok_iff, pure_eq_ok_iff] at he
    obtain ⟨l, hl, r, hr, rfl⟩ := he
    rw [List.all_cons, List.all_cons, ih]
    simp only [cell_of_bind hl, cell_of_bind hr]

/-- A row of the relation at an index matches a joined row: with it all equalities match. -/
def Matches (relations : List Relation) (on : BoundCondition) (index : Nat) (row : JoinedRow)
    (m : Nat) : Prop :=
  ∃ r, relations[index]? = some r ∧ m < r.rows.length ∧
    on.equalities.all (fun e => Cell.matched (valueAt relations (row ++ [some m]) e.1)
      (valueAt relations (row ++ [some m]) e.2)) = true

theorem mem_matchesOf {on : BoundCondition} {places : List (Place × Place)}
    (h : bindEqualities relations on = .ok places) {index : Nat} {row : JoinedRow} {m : Nat} :
    m ∈ matchesOf relations places ((relations[index]?.map (·.rows.length)).getD 0) row ↔
      Matches relations on index row m := by
  rw [matchesOf, List.mem_filter, List.mem_range, satisfies_of_bind h]
  cases hr : relations[index]? with
  | none => simp [Matches, hr]
  | some r => simp [Matches, hr]

/-! ## Joined rows -/

/-- What stands at an index of a joined row is what the join chooses for the relations before it. -/
def ChosenAt (relations : List Relation) (j : PlannedJoin) (index : Nat) (row : JoinedRow) : Prop :=
  ∃ x, row[index]? = some x ∧ j.cardinality.Chooses (Matches relations j.on index (row.take index)) x

/-- One more join extends the rows by what it chooses. -/
theorem mem_extended {j : PlannedJoin} {places : List (Place × Place)} {rows : List JoinedRow}
    {next : Nat} (h : bindEqualities relations j.on = .ok places)
    (hrows : ∀ row ∈ rows, row.length = next) {row : JoinedRow} :
    (row ∈ rows.flatMap fun r => extend j.cardinality r
      (matchesOf relations places ((relations[next]?.map (·.rows.length)).getD 0) r)) ↔
      row.length = next + 1 ∧ row.take next ∈ rows ∧ ChosenAt relations j next row := by
  have hchoices (r : JoinedRow) (x : Option Nat) : x ∈ choices j.cardinality
      (matchesOf relations places ((relations[next]?.map (·.rows.length)).getD 0) r) ↔
      j.cardinality.Chooses (Matches relations j.on next r) x :=
    (mem_choices_iff (matchesOf_sorted _ _ _)).trans
      (Cardinality.Chooses.congr (fun m => mem_matchesOf h) x)
  simp only [List.mem_flatMap, extend_eq, List.mem_map, hchoices]
  constructor
  · rintro ⟨r, hr, x, hx, rfl⟩
    have hlength := hrows r hr
    have htake : (r ++ [x]).take next = r := List.take_left' hlength
    refine ⟨by rw [List.length_append, hlength]; rfl, htake.symm ▸ hr, x, ?_, htake.symm ▸ hx⟩
    rw [← hlength, List.getElem?_concat_length]
  · rintro ⟨hlength, hr, x, hx, hchosen⟩
    refine ⟨row.take next, hr, x, hchosen, ?_⟩
    obtain ⟨hlt, rfl⟩ := List.getElem?_eq_some_iff.mp hx
    rw [List.take_append_getElem hlt, List.take_of_length_le (Nat.le_of_eq hlength)]

/-- What is chosen at an index is seen in every part of the row that reaches beyond it. -/
theorem chosenAt_take {j : PlannedJoin} {index n : Nat} (h : index < n) {row : JoinedRow} :
    ChosenAt relations j index (row.take n) ↔ ChosenAt relations j index row := by
  rw [ChosenAt, ChosenAt, List.getElem?_take_of_lt h, List.take_take, Nat.min_eq_left (Nat.le_of_lt h)]

theorem forall_getElem?_cons {α : Type} {x : α} {xs : List α} {P : Nat → α → Prop} :
    (∀ i y, (x :: xs)[i]? = some y → P i y) ↔ P 0 x ∧ ∀ i y, xs[i]? = some y → P (i + 1) y := by
  constructor
  · exact fun h => ⟨h 0 x rfl, fun i y hy => h (i + 1) y hy⟩
  · rintro ⟨hx, hxs⟩ (_ | i) y hy
    · cases hy
      exact hx
    · exact hxs i y hy

/-- **The joined rows are those in which every join has chosen** for the relations before it, from one
of the rows at the start on. -/
theorem mem_joinRows : ∀ {joins : List PlannedJoin} {next : Nat} {rows out : List JoinedRow},
    joinRows relations next rows joins = .ok out → (∀ row ∈ rows, row.length = next) →
    ∀ row, row ∈ out ↔ row.length = next + joins.length ∧ row.take next ∈ rows ∧
      ∀ i j, joins[i]? = some j → ChosenAt relations j (next + i) row
  | [], next, rows, out, h, hrows, row => by
    cases h
    constructor
    · intro hr
      have hlength := hrows row hr
      exact ⟨hlength, (List.take_of_length_le (Nat.le_of_eq hlength)).symm ▸ hr, nofun⟩
    · rintro ⟨hlength, hr, -⟩
      have htake : row.take next = row := List.take_of_length_le (Nat.le_of_eq hlength)
      rwa [htake] at hr
  | j :: js, next, rows, out, h, hrows, row => by
    simp only [joinRows, bind_eq_ok_iff] at h
    obtain ⟨places, hplaces, h⟩ := h
    rw [mem_joinRows h (extended_length hrows), mem_extended hplaces hrows,
      List.take_take, Nat.min_eq_left (Nat.le_succ next), chosenAt_take (Nat.lt_succ_self next),
      forall_getElem?_cons, List.length_cons]
    simp only [Nat.add_zero, Nat.add_assoc, Nat.add_comm 1, List.length_take]
    constructor
    · rintro ⟨hlength, ⟨-, hr, hj⟩, hrest⟩
      exact ⟨hlength, hr, hj, hrest⟩
    · rintro ⟨hlength, hr, hj, hrest⟩
      exact ⟨hlength, ⟨by omega, hr, hj⟩, hrest⟩

/-- Joins drop no row. -/
theorem joinRows_keeps : ∀ {joins : List PlannedJoin} {next : Nat} {rows out : List JoinedRow},
    joinRows relations next rows joins = .ok out → (∀ row ∈ rows, row.length = next) →
    ∀ row ∈ rows, ∃ r ∈ out, r.take next = row
  | [], _, _, _, h, hrows, row, hrow => by
    cases h
    exact ⟨row, hrow, List.take_of_length_le (Nat.le_of_eq (hrows row hrow))⟩
  | j :: js, next, rows, out, h, hrows, row, hrow => by
    simp only [joinRows, bind_eq_ok_iff] at h
    obtain ⟨places, -, h⟩ := h
    obtain ⟨x, hx⟩ := List.exists_mem_of_ne_nil _ (choices_ne_nil j.cardinality
      (matchesOf relations places ((relations[next]?.map (·.rows.length)).getD 0) row))
    have hmem : row ++ [x] ∈ rows.flatMap fun r => extend j.cardinality r
        (matchesOf relations places ((relations[next]?.map (·.rows.length)).getD 0) r) := by
      refine List.mem_flatMap.mpr ⟨row, hrow, ?_⟩
      rw [extend_eq]
      exact List.mem_map_of_mem hx
    obtain ⟨r, hr, htake⟩ := joinRows_keeps h (extended_length hrows) _ hmem
    refine ⟨r, hr, ?_⟩
    rw [← Nat.min_eq_left (Nat.le_succ next), ← List.take_take, htake, List.take_left' (hrows row hrow)]

/-! ## Order -/

theorem append_lt_append {row row' : JoinedRow} (h : row < row') (hl : row.length = row'.length)
    (x y : Option Nat) : row ++ [x] < row' ++ [y] := by
  induction row generalizing row' with
  | nil =>
    cases row' with
    | nil => exact absurd h (List.not_lt_nil [])
    | cons b bs => cases hl
  | cons a as ih =>
    cases row' with
    | nil => cases hl
    | cons b bs =>
      rw [List.cons_append, List.cons_append, List.cons_lt_cons_iff]
      exact (List.cons_lt_cons_iff.mp h).imp_right fun ⟨hab, hlt⟩ => ⟨hab, ih hlt (Nat.succ.inj hl)⟩

/-- **The joined rows stand in lexicographic order**, none of them twice. -/
theorem joinRows_sorted : ∀ {joins : List PlannedJoin} {next : Nat} {rows out : List JoinedRow},
    joinRows relations next rows joins = .ok out → (∀ row ∈ rows, row.length = next) →
    rows.Pairwise (· < ·) → out.Pairwise (· < ·)
  | [], _, _, _, h, _, hsorted => by
    cases h
    exact hsorted
  | j :: js, next, rows, out, h, hrows, hsorted => by
    simp only [joinRows, bind_eq_ok_iff] at h
    obtain ⟨places, hplaces, h⟩ := h
    refine joinRows_sorted h (extended_length hrows) (List.pairwise_flatMap.mpr ⟨fun row _ => ?_, ?_⟩)
    · rw [extend_eq]
      refine (choices_sorted _ (matchesOf_sorted _ _ _)).map _ fun x y hxy => ?_
      exact List.append_left_lt (List.cons_lt_cons_iff.mpr (.inl hxy))
    · refine hsorted.imp_of_mem fun {row row'} hr hr' hlt x hx y hy => ?_
      rw [extend_eq] at hx hy
      obtain ⟨x, -, rfl⟩ := List.mem_map.mp hx
      obtain ⟨y, -, rfl⟩ := List.mem_map.mp hy
      exact append_lt_append hlt ((hrows row hr).trans (hrows row' hr').symm) x y

theorem not_lt_self : ∀ row : JoinedRow, ¬ row < row
  | [] => List.not_lt_nil []
  | none :: row => fun h => (List.cons_lt_cons_iff.mp h).elim id fun ⟨_, h⟩ => not_lt_self row h
  | some n :: row => fun h =>
    (List.cons_lt_cons_iff.mp h).elim (Nat.lt_irrefl n) fun ⟨_, h⟩ => not_lt_self row h

theorem nodup_of_sorted {rows : List JoinedRow} (h : rows.Pairwise (· < ·)) : rows.Nodup :=
  h.imp fun {row row'} hlt (he : row = row') => by
    subst he
    exact not_lt_self row hlt

/-! ## The joined rows of a plan -/

/-- The rows of the base, to which nothing is joined yet. -/
def startRows (base : Relation) : List JoinedRow :=
  (List.range base.rows.length).map fun position => [some position]

theorem startRows_length {base : Relation} : ∀ row ∈ startRows base, row.length = 1 := by
  intro row hrow
  obtain ⟨i, -, rfl⟩ := List.mem_map.mp hrow
  rfl

theorem startRows_sorted (base : Relation) : (startRows base).Pairwise (· < ·) :=
  List.pairwise_lt_range.map _ fun _ _ h => List.cons_lt_cons_iff.mpr (.inl h)

/-- The relations of a plan over some tables, and its joined rows. -/
def joined (tables : Tables) (p : Plan) : Except ExecutionError (List Relation × List JoinedRow) := do
  let derived ← p.subPlans.mapM (nestedRelation tables)
  let base ← baseRelation tables derived p.base
  let targets ← p.joins.mapM (joinRelation tables derived)
  let rows ← joinRows (base :: targets) 1 (startRows base) p.joins
  return (base :: targets, rows)

/-- What a plan makes of its joined rows. -/
def output (relations : List Relation) (p : Plan) (rows : List JoinedRow) :
    Except ExecutionError Result := do
  let keys ← p.groupBy.mapM fun key => bind relations key.column
  let inputs ← p.aggregates.mapM fun a => do return (a.op, ← bindTarget relations a.target)
  return ⟨p.outputColumns, (groups relations keys rows).map fun g =>
    g.keys ++ inputs.map fun (op, input) => aggregate relations op g.rows input⟩

/-- A plan runs by joining its relations and grouping the joined rows. -/
theorem run_eq_joined (tables : Tables) (p : Plan) : run tables p = (do
    let (relations, rows) ← joined tables p
    output relations p rows) := by
  simp only [run_eq, evaluate_eq, joined, bind_assoc, pure_bind]
  rfl

theorem run_of_joined {tables : Tables} {p : Plan} {rows : List JoinedRow}
    (h : joined tables p = .ok (relations, rows)) : run tables p = output relations p rows := by
  rw [run_eq_joined, h]
  rfl

theorem joined_eq_ok_iff {tables : Tables} {p : Plan} {rows : List JoinedRow} :
    joined tables p = .ok (relations, rows) ↔ ∃ derived base targets,
      List.Forall₂ (Ran tables) p.subPlans derived ∧ baseRelation tables derived p.base = .ok base ∧
      List.Forall₂ (fun j r => joinRelation tables derived j = .ok r) p.joins targets ∧
      relations = base :: targets ∧ joinRows relations 1 (startRows base) p.joins = .ok rows := by
  simp only [joined, bind_eq_ok_iff, mapM_eq_ok_iff, nestedRelation_eq_ok_iff, pure_eq_ok_iff,
    Prod.mk.injEq]
  constructor
  · rintro ⟨derived, hd, base, hb, targets, ht, _, hrows, rfl, rfl⟩
    exact ⟨derived, base, targets, hd, hb, ht, rfl, hrows⟩
  · rintro ⟨derived, base, targets, hd, hb, ht, rfl, hrows⟩
    exact ⟨derived, hd, base, hb, targets, ht, rows, hrows, rfl, rfl⟩

end Engine

end Joinery
