/-
Joining relations whose rows stand in another order.

The rows of each relation move to other positions (`Moved`), and with them the
positions in a joined row (`move`). What a joined row shows stays the same, so a
join finds the rows that it has found before, at their new positions
(`matchesOf_move`). A join of cardinality one takes the first of them, which may be
another one if there are several. If there never are, the joined rows are the
former ones with their positions moved, in another order (`joinRows_move`).
-/
import Joinery.Proofs.Relation.Joined
import Joinery.Proofs.Relation.Schema
import Mathlib.Algebra.Group.End
import Mathlib.Data.List.Perm.Basic

namespace Joinery

open Json (Value)

/-! ## Positions -/

/-- A permutation of the positions behind the first one. -/
def behindFirst (σ : Equiv.Perm Nat) : Equiv.Perm Nat where
  toFun
    | 0 => 0
    | i + 1 => σ i + 1
  invFun
    | 0 => 0
    | i + 1 => σ.symm i + 1
  left_inv i := by cases i <;> simp
  right_inv i := by cases i <;> simp

/-- The members of a list in another order have moved to other positions. -/
theorem exists_positions {α : Type} {xs ys : List α} (h : xs.Perm ys) :
    ∃ σ : Equiv.Perm Nat, ∀ i, ys[σ i]? = xs[i]? := by
  induction h with
  | nil => exact ⟨1, fun _ => rfl⟩
  | cons x _ ih =>
    obtain ⟨σ, hσ⟩ := ih
    refine ⟨behindFirst σ, fun i => ?_⟩
    cases i with
    | zero => rfl
    | succ i => exact hσ i
  | swap x y xs =>
    refine ⟨Equiv.swap 0 1, fun i => ?_⟩
    match i with
    | 0 => rfl
    | 1 => rfl
    | i + 2 => rw [Equiv.swap_apply_of_ne_of_ne (by omega) (by omega)]; rfl
  | trans _ _ ih ih' =>
    obtain ⟨σ, hσ⟩ := ih
    obtain ⟨τ, hτ⟩ := ih'
    exact ⟨σ.trans τ, fun i => (hτ (σ i)).trans (hσ i)⟩

/-- A relation with its rows in another order. -/
structure Relation.Permuted (r q : Relation) : Prop where
  name : r.name = q.name
  columns : r.columns = q.columns
  rows : r.rows.Perm q.rows

namespace Engine

/-- The rows of the relations stand at other positions in the other relations. -/
structure Moved (σ : Nat → Equiv.Perm Nat) (relations relations' : List Relation) : Prop where
  shape : List.Forall₂ SameShape relations relations'
  rows : ∀ k i, (relations'[k]?.bind fun r => r.rows[σ k i]?) = relations[k]?.bind fun r => r.rows[i]?

theorem exists_moved {relations relations' : List Relation}
    (h : List.Forall₂ Relation.Permuted relations relations') :
    ∃ σ, Moved σ relations relations' := by
  induction h with
  | nil => exact ⟨fun _ => 1, .nil, fun _ _ => rfl⟩
  | cons hr _ ih =>
    obtain ⟨τ, hτ⟩ := exists_positions hr.rows
    obtain ⟨σ, hσ⟩ := ih
    refine ⟨fun k => k.casesOn τ σ, .cons ⟨hr.name, hr.columns⟩ hσ.shape, fun k i => ?_⟩
    cases k with
    | zero => exact hτ i
    | succ k => exact hσ.rows k i

/-- A joined row with its positions moved. -/
def move (σ : Nat → Equiv.Perm Nat) (row : JoinedRow) : JoinedRow :=
  row.mapIdx fun k x => x.map (σ k)

section

variable {σ : Nat → Equiv.Perm Nat} {relations relations' : List Relation}

@[simp] theorem move_getElem? (row : JoinedRow) (k : Nat) :
    (move σ row)[k]? = row[k]?.map fun x => x.map (σ k) :=
  List.getElem?_mapIdx

theorem move_append (row : JoinedRow) (x : Option Nat) :
    move σ (row ++ [x]) = move σ row ++ [x.map (σ row.length)] := by
  simp [move, List.mapIdx_append]

/-! ## Cells -/

theorem cellAt_move (h : Moved σ relations relations') (place : Place) (row : Option Nat) :
    cellAt relations' place (row.map (σ place.relation)) = cellAt relations place row := by
  cases row with
  | none => simp [cellAt]
  | some i =>
    have hrow := h.rows place.relation i
    simp only [cellAt, Relation.cell?, Option.map_some, Option.bind_eq_bind, Option.bind_some,
      ← Option.bind_assoc, hrow]

theorem cell_move (h : Moved σ relations relations') (row : JoinedRow) (place : Place) :
    cell relations' (move σ row) place = cell relations row place := by
  have hposition : (move σ row)[place.relation]?.bind id =
      (row[place.relation]?.bind id).map (σ place.relation) := by
    rw [move_getElem?]
    cases row[place.relation]? <;> rfl
  rw [cell, hposition, cellAt_move h, cell]

theorem satisfies_move (h : Moved σ relations relations') (equalities : List (Place × Place))
    (row : JoinedRow) :
    satisfies relations' equalities (move σ row) = satisfies relations equalities row := by
  simp only [satisfies, cell_move h]

/-! ## Joins -/

/-- How many rows the relation at an index has. -/
def sizeAt (relations : List Relation) (k : Nat) : Nat := (relations[k]?.map (·.rows.length)).getD 0

theorem lt_sizeAt_iff {k i : Nat} :
    i < sizeAt relations k ↔ (relations[k]?.bind fun r => r.rows[i]?).isSome = true := by
  unfold sizeAt
  cases relations[k]? <;> simp

theorem sizeAt_move (h : Moved σ relations relations') {k i : Nat} :
    σ k i < sizeAt relations' k ↔ i < sizeAt relations k := by
  rw [lt_sizeAt_iff, lt_sizeAt_iff, h.rows]

theorem matchesOf_move (h : Moved σ relations relations') (equalities : List (Place × Place))
    (row : JoinedRow) :
    (matchesOf relations' equalities (sizeAt relations' row.length) (move σ row)).Perm
      ((matchesOf relations equalities (sizeAt relations row.length) row).map (σ row.length)) := by
  have hnodup (relations : List Relation) (size : Nat) (row : JoinedRow) :
      (matchesOf relations equalities size row).Nodup := List.nodup_range.filter _
  refine (List.perm_ext_iff_of_nodup (hnodup _ _ _)
    ((hnodup _ _ _).map (σ row.length).injective)).mpr fun m => ?_
  obtain ⟨i, rfl⟩ := (σ row.length).surjective m
  have happend : move σ row ++ [some (σ row.length i)] = move σ (row ++ [some i]) :=
    (move_append row (some i)).symm
  rw [List.mem_map_of_injective (σ row.length).injective, matchesOf, matchesOf, List.mem_filter,
    List.mem_filter, List.mem_range, List.mem_range, sizeAt_move h, happend, satisfies_move h]

theorem choices_many {found : List Nat} (h : found ≠ []) : choices .many found = found.map some := by
  cases found with
  | nil => exact absurd rfl h
  | cons m found => rfl

/-- A join makes the same choices among its matches in another order, unless it takes one of several. -/
theorem choices_move {c : Cardinality} {τ : Equiv.Perm Nat} {found found' : List Nat}
    (h : found'.Perm (found.map τ)) (hone : c = .one → found.length ≤ 1) :
    (choices c found').Perm ((choices c found).map fun x => x.map τ) := by
  match found with
  | [] =>
    rw [List.perm_nil.mp h]
    exact .refl _
  | [m] =>
    rw [List.perm_singleton.mp h]
    cases c <;> exact .refl _
  | m :: n :: found =>
    cases c with
    | one => exact absurd (hone rfl) (by simp)
    | many =>
      have hne : found' ≠ [] := fun h0 => by simpa [h0] using h.length_eq
      rw [choices_many hne, choices_many (List.cons_ne_nil _ _), List.map_map]
      refine (h.map some).trans ?_
      rw [List.map_map]
      exact .refl _

/-- In all of these joined rows, a join of cardinality one matches one row of its relation at most for
the relations before it. The first of the joins has the index `next`. -/
def OneMatch (relations : List Relation) (next : Nat) (joins : List PlannedJoin)
    (rows : List JoinedRow) : Prop :=
  ∀ row ∈ rows, ∀ i j, joins[i]? = some j → j.cardinality = .one → ∀ m n,
    Matches relations j.on (next + i) (row.take (next + i)) m →
    Matches relations j.on (next + i) (row.take (next + i)) n → m = n

theorem matches_iff {on : BoundCondition} {index : Nat} {row : JoinedRow} {m : Nat} :
    Matches relations on index row m ↔ m < sizeAt relations index ∧
      on.equalities.all (fun e => Cell.matched (valueAt relations (row ++ [some m]) e.1)
        (valueAt relations (row ++ [some m]) e.2)) = true := by
  unfold Matches sizeAt
  cases relations[index]? <;> simp

instance (on : BoundCondition) (index : Nat) (row : JoinedRow) (m : Nat) :
    Decidable (Matches relations on index row m) :=
  decidable_of_iff _ matches_iff.symm

theorem oneMatch_iff {next : Nat} {joins : List PlannedJoin} {rows : List JoinedRow} :
    OneMatch relations next joins rows ↔ ∀ row ∈ rows, ∀ e ∈ joins.zipIdx, e.1.cardinality = .one →
      ∀ m < sizeAt relations (next + e.2), ∀ n < sizeAt relations (next + e.2),
        Matches relations e.1.on (next + e.2) (row.take (next + e.2)) m →
        Matches relations e.1.on (next + e.2) (row.take (next + e.2)) n → m = n := by
  refine forall₂_congr fun row _ => ⟨fun h e he hc m _ n _ => ?_, fun h i j hj hc m n hm hn => ?_⟩
  · exact h e.2 e.1 (List.mk_mem_zipIdx_iff_getElem?.mp he) hc m n
  · exact h (j, i) (List.mk_mem_zipIdx_iff_getElem?.mpr hj) hc m (matches_iff.mp hm).1 n
      (matches_iff.mp hn).1 hm hn

instance (next : Nat) (joins : List PlannedJoin) (rows : List JoinedRow) :
    Decidable (OneMatch relations next joins rows) :=
  decidable_of_iff _ oneMatch_iff.symm

theorem length_le_one {found : List Nat} (hnodup : found.Nodup) (h : ∀ m ∈ found, ∀ n ∈ found, m = n) :
    found.length ≤ 1 := by
  match found with
  | [] => exact Nat.zero_le 1
  | [_] => exact Nat.le_refl 1
  | m :: n :: found =>
    have hne : m ≠ n := fun he => (List.nodup_cons.mp hnodup).1 (he ▸ List.mem_cons_self)
    exact absurd (h m (by simp) n (by simp)) hne

theorem extended_move (h : Moved σ relations relations') {next : Nat} {rows rows' : List JoinedRow}
    (hrows : ∀ row ∈ rows, row.length = next) (hmoved : rows'.Perm (rows.map (move σ)))
    (c : Cardinality) (equalities : List (Place × Place))
    (hone : c = .one → ∀ row ∈ rows,
      (matchesOf relations equalities (sizeAt relations next) row).length ≤ 1) :
    (rows'.flatMap fun row =>
        extend c row (matchesOf relations' equalities (sizeAt relations' next) row)).Perm
      ((rows.flatMap fun row =>
        extend c row (matchesOf relations equalities (sizeAt relations next) row)).map (move σ)) := by
  refine (hmoved.flatMap_right _).trans ?_
  rw [List.flatMap_map, List.map_flatMap]
  refine List.Perm.flatMap_left _ fun row hrow => ?_
  obtain rfl := hrows row hrow
  rw [extend_eq, extend_eq, List.map_map]
  have happend : (move σ ∘ fun x => row ++ [x]) = fun x => move σ row ++ [x.map (σ row.length)] :=
    funext fun x => move_append row x
  rw [happend]
  have hchoices := choices_move (matchesOf_move h equalities row) fun hc => hone hc row hrow
  refine (hchoices.map fun x => move σ row ++ [x]).trans ?_
  rw [List.map_map]
  exact .refl _

/-- **The joined rows of relations in another order are the joined rows moved**, if no join of
cardinality one has a choice. -/
theorem joinRows_move (h : Moved σ relations relations') : ∀ {joins : List PlannedJoin} {next : Nat}
    {rows rows' out out' : List JoinedRow}, joinRows relations next rows joins = .ok out →
    joinRows relations' next rows' joins = .ok out' → (∀ row ∈ rows, row.length = next) →
    rows'.Perm (rows.map (move σ)) → OneMatch relations next joins out →
    out'.Perm (out.map (move σ))
  | [], _, _, _, _, _, hout, hout', _, hmoved, _ => by
    cases hout
    cases hout'
    exact hmoved
  | j :: js, next, rows, rows', out, out', hout, hout', hrows, hmoved, hone => by
    have keeps := joinRows_keeps hout hrows
    simp only [joinRows, bind_eq_ok_iff] at hout hout'
    obtain ⟨places, hplaces, hout⟩ := hout
    obtain ⟨places', hplaces', hout'⟩ := hout'
    have hsame : places' = places := by
      simp only [bindEqualities, ← bind_sameShape h.shape] at hplaces hplaces'
      exact Except.ok.inj (hplaces'.symm.trans hplaces)
    subst hsame
    have hfirst : j.cardinality = .one → ∀ row ∈ rows,
        (matchesOf relations places' (sizeAt relations next) row).length ≤ 1 := fun hc row hrow => by
      obtain ⟨r, hr, rfl⟩ := keeps row hrow
      refine length_le_one (List.nodup_range.filter _) fun m hm n hn => ?_
      exact hone r hr 0 j rfl hc m n ((mem_matchesOf hplaces).mp hm) ((mem_matchesOf hplaces).mp hn)
    refine joinRows_move h hout hout' (extended_length hrows)
      (extended_move h hrows hmoved j.cardinality places' hfirst) fun row hrow i k hk hc m n => ?_
    have := hone row hrow (i + 1) k hk hc m n
    rwa [show next + (i + 1) = next + 1 + i by omega] at this

theorem range_move (h : Moved σ relations relations') (k : Nat) :
    (List.range (sizeAt relations' k)).Perm ((List.range (sizeAt relations k)).map (σ k)) := by
  refine (List.perm_ext_iff_of_nodup List.nodup_range
    (List.nodup_range.map (σ k).injective)).mpr fun m => ?_
  obtain ⟨i, rfl⟩ := (σ k).surjective m
  rw [List.mem_map_of_injective (σ k).injective, List.mem_range, List.mem_range, sizeAt_move h]

theorem startRows_move {base base' : Relation} {targets targets' : List Relation}
    (h : Moved σ (base :: targets) (base' :: targets')) :
    (startRows base').Perm ((startRows base).map (move σ)) := by
  refine ((range_move h 0).map fun i => [some i]).trans ?_
  rw [startRows, List.map_map, List.map_map]
  exact .refl _

end

end Engine

end Joinery
