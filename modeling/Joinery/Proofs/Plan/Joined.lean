/-
What the joins of a compiled plan mean.

The condition of a join field is a tree over references, and a row of the target
matches if the tree holds for it and the row of the owner (`Condition.holds`).
Compiling makes a list of equalities between columns of the plan out of it, which
says the same of every joined row (`Planned.matches_iff`). So the joined rows of a
compiled plan are those that its join fields assign, and these are the rows that a
run groups (`Reachable.joined_rows`).
-/
import Joinery.Proofs.Plan.Readable
import Joinery.Proofs.Plan.Run
import Joinery.Proofs.Relation.Joined

namespace Joinery

open Json (Value)

namespace Condition

mutual
/-- Does a condition hold if its references have these values? -/
def holds (value : Path → Value) : Condition → Bool
  | .equal left right => Cell.matched (value left) (value right)
  | .all kids => allHold value kids

/-- Do all conditions hold? -/
def allHold (value : Path → Value) : List Condition → Bool
  | [] => true
  | c :: cs => holds value c && allHold value cs
end

end Condition

/-- What a reference in the condition of a join reads: a field of the owner in the row of the parent
relation, or, behind the name of the join, a field of the target in its row. -/
def Path.readIn (parent target : Relation) (row : Option Nat) (candidate : Nat) (reference : Path) :
    Value :=
  match reference.segments with
  | [name] => parent.read row name
  | [_, name] => target.read (some candidate) name
  | _ => .null

namespace Store

open Engine (Matches valueAt)

/-- A row of the target of a join, whose relation has the given index, matches a joined row: the
condition of the join field holds for it and the row of the parent. -/
def JoinMatches (s : Store) (relations : List Relation) (j : PlannedJoin) (index : Nat)
    (row : JoinedRow) (candidate : Nat) : Prop :=
  ∃ f join parent target, s.field? j.field = some f ∧ f.kind = .join join ∧
    relations[j.parent.index]? = some parent ∧ relations[index]? = some target ∧
    candidate < target.rows.length ∧
    join.on.holds (Path.readIn parent target (row[j.parent.index]?.bind id) candidate) = true

/-- A joined row as the joins of a plan assign it: a row of the base, and for each join what its
cardinality chooses among the rows of its target that match. -/
structure Assigned (s : Store) (p : Plan) (relations : List Relation) (row : JoinedRow) : Prop where
  length : row.length = p.joins.length + 1
  base : ∃ r i, relations[0]? = some r ∧ i < r.rows.length ∧ row[0]? = some (some i)
  joins : ∀ i j, p.joins[i]? = some j →
    ∃ x, row[i + 1]? = some x ∧ j.cardinality.Chooses (s.JoinMatches relations j (i + 1) row) x

variable {s : Store}

/-! ## Conditions -/

/-- A reference is bound to the parent relation or to the join's own, by its length. -/
theorem bindReference_eq_ok {f : Field} {parent own : Slot} {reference : Path} {c : Column}
    (h : s.bindReference f parent own reference = .ok c) :
    (reference.segments = [c.field] ∧ c.slot = parent) ∨
      ∃ first, reference.segments = [first, c.field] ∧ c.slot = own := by
  simp only [bindReference, bind_eq_ok_iff] at h
  obtain ⟨⟨id, slot, name⟩, hside, h⟩ := h
  simp only at h
  split at h
  · cases h
  split at h
  · cases h
    unfold side at hside
    split at hside
    · next hs => cases hside; exact .inl ⟨hs, rfl⟩
    · next first _ hs =>
      split at hside
      · split at hside
        · cases hside; exact .inr ⟨first, hs, rfl⟩
        · cases hside
      · cases hside
    · cases hside
  · cases h

/-- The columns that references are bound to have the values of the references. -/
def BindsValues (s : Store) (f : Field) (parent own : Slot) (column : Column → Value)
    (value : Path → Value) : Prop :=
  ∀ reference c, s.bindReference f parent own reference = .ok c → column c = value reference

section

variable {f : Field} {parent own : Slot} {column : Column → Value} {value : Path → Value}

mutual
/-- The equalities of a bound condition all match when the condition holds. -/
theorem bind_holds (hv : s.BindsValues f parent own column value) : ∀ {on : Condition}
    {b : BoundCondition}, s.bind f parent own on = .ok b →
    b.equalities.all (fun e => Cell.matched (column e.1) (column e.2)) = on.holds value
  | .equal left right, b, h => by
    simp only [bind, bind_eq_ok_iff, pure_eq_ok_iff] at h
    obtain ⟨l, hl, r, hr, rfl⟩ := h
    simp only [BoundCondition.equalities, List.all_cons, List.all_nil, Bool.and_true, Condition.holds,
      hv left l hl, hv right r hr]
  | .all kids, b, h => by
    simp only [bind, bind_eq_ok_iff, pure_eq_ok_iff] at h
    obtain ⟨bs, hbs, rfl⟩ := h
    exact bindAll_holds hv hbs

theorem bindAll_holds (hv : s.BindsValues f parent own column value) : ∀ {kids : List Condition}
    {bs : List BoundCondition}, s.bindAll f parent own kids = .ok bs →
    (BoundCondition.allEqualities bs).all (fun e => Cell.matched (column e.1) (column e.2)) =
      Condition.allHold value kids
  | [], bs, h => by
    cases h
    rfl
  | on :: kids, bs, h => by
    simp only [bindAll, bind_eq_ok_iff, pure_eq_ok_iff] at h
    obtain ⟨b, hb, bs, hbs, rfl⟩ := h
    rw [BoundCondition.allEqualities, List.all_append, bind_holds hv hb, bindAll_holds hv hbs,
      Condition.allHold]
end

end

/-! ## Joins -/

/-- With a candidate at its end, a joined row gives references the cells of the parent's row and of the
candidate, whatever stands between them. -/
theorem bindsValues_joined {f : Field} {slot : Slot} {i : Nat} {relations : List Relation}
    {parent target : Relation} {row : JoinedRow} (hbefore : slot.index < i + 1)
    (hparent : relations[slot.index]? = some parent) (htarget : relations[i + 1]? = some target)
    (hrow : i + 1 < row.length) (m : Nat) :
    s.BindsValues f slot (.join i) (valueAt relations (row.take (i + 1) ++ [some m]))
      (Path.readIn parent target (row[slot.index]?.bind id) m) := by
  have htaken : (row.take (i + 1)).length = i + 1 := by
    rw [List.length_take]
    omega
  intro reference c hc
  rcases bindReference_eq_ok hc with ⟨hsegments, hslot⟩ | ⟨_, hsegments, hslot⟩
  · have hseen : (row.take (i + 1) ++ [some m])[slot.index]? = row[slot.index]? := by
      rw [List.getElem?_append_left (by rw [htaken]; exact hbefore), List.getElem?_take_of_lt hbefore]
    simp only [valueAt, Path.readIn, hsegments, hslot, hparent, hseen]
  · have hown : (row.take (i + 1) ++ [some m])[i + 1]? = some (some m) := by
      rw [List.getElem?_append_right (Nat.le_of_eq htaken), htaken, Nat.sub_self]
      rfl
    simp only [valueAt, Path.readIn, hsegments, hslot, Slot.index, htarget, hown, Option.bind_some, id]

/-- **What a planned join matches is what its field says**: the bound condition sees the row of the
parent relation and the candidate, and nothing else of the joined row. -/
theorem Planned.matches_iff {chains : List Chain} {subPlans : List (Source × Plan)} {i : Nat}
    {init : List Field} {f : Field} {join : Join} {source : Source} {j : PlannedJoin}
    (h : Planned s chains subPlans i init f join source j) {relations : List Relation}
    (hrelations : i + 1 < relations.length) {row : JoinedRow} (hrow : i + 1 < row.length) (m : Nat) :
    Matches relations j.on (i + 1) (row.take (i + 1)) m ↔ s.JoinMatches relations j (i + 1) row m := by
  have hbefore : j.parent.index < i + 1 := Nat.lt_succ_of_le h.before
  obtain ⟨parent, hparent⟩ : ∃ parent, relations[j.parent.index]? = some parent :=
    ⟨_, List.getElem?_eq_getElem (Nat.lt_trans hbefore hrelations)⟩
  obtain ⟨target, htarget⟩ : ∃ target, relations[i + 1]? = some target :=
    ⟨_, List.getElem?_eq_getElem hrelations⟩
  have hfield : s.field? j.field = some f := by
    rw [h.shape]
    exact h.stands f (by simp)
  have hholds := bind_holds (bindsValues_joined hbefore hparent htarget hrow m) h.on
  unfold Matches JoinMatches
  rw [hholds]
  constructor
  · rintro ⟨r, hr, hm, hon⟩
    cases htarget.symm.trans hr
    exact ⟨f, join, parent, target, hfield, h.kind, hparent, htarget, hm, hon⟩
  · rintro ⟨f', join', parent', target', hf', hk', hp', ht', hm, hon⟩
    cases hfield.symm.trans hf'
    cases h.kind.symm.trans hk'
    cases hparent.symm.trans hp'
    cases htarget.symm.trans ht'
    exact ⟨target, htarget, hm, hon⟩

theorem LaysOut.planned {derive : Derive} {start : Source} {items : StageItems} {a : Assembly}
    {p : Plan} (h : LaysOut s derive start items a p) {i : Nat} {j : PlannedJoin}
    (hj : p.joins[i]? = some j) : ∃ init f join target,
      Planned s a.joins.chains a.subPlans i init f join target j := by
  rw [h.joins, JoinSet.joins, List.getElem?_map] at hj
  obtain ⟨⟨c, j⟩, hentry, rfl⟩ := Option.map_eq_some_iff.mp hj
  obtain ⟨init, f, join, target, -, hp⟩ := h.laid.planned i c j hentry
  exact ⟨init, f, join, target, hp⟩

theorem LaysOut.matches_iff {derive : Derive} {start : Source} {items : StageItems} {a : Assembly}
    {p : Plan} (h : LaysOut s derive start items a p) {relations : List Relation}
    (hlength : relations.length = p.joins.length + 1) {i : Nat} {j : PlannedJoin}
    (hj : p.joins[i]? = some j) {row : JoinedRow} (hrow : i + 1 < row.length) (m : Nat) :
    Matches relations j.on (i + 1) (row.take (i + 1)) m ↔ s.JoinMatches relations j (i + 1) row m := by
  obtain ⟨init, f, join, target, hplanned⟩ := h.planned hj
  have hi := (List.getElem?_eq_some_iff.mp hj).1
  exact hplanned.matches_iff (by omega) hrow m

theorem mem_startRows_iff {base : Relation} {row : JoinedRow} (h : 0 < row.length) :
    row.take 1 ∈ Engine.startRows base ↔ ∃ i, i < base.rows.length ∧ row[0]? = some (some i) := by
  obtain ⟨x, xs, rfl⟩ := List.exists_cons_of_length_pos h
  simp only [Engine.startRows, List.mem_map, List.mem_range, List.take_succ_cons, List.take_zero,
    List.cons.injEq, and_true, List.getElem?_cons_zero, Option.some.injEq, eq_comm (a := x)]

/-- **A run groups the joined rows that the joins of its plan assign.** They stand in the lexicographic
order of the row positions, relation by relation, and none of them repeats. -/
theorem Reachable.joined_rows (hs : s.Reachable) {p : Plan} (hp : s.Compiled p) {tables : Tables}
    {relations : List Relation} {rows : List JoinedRow}
    (h : Engine.joined tables p = .ok (relations, rows)) :
    Engine.run tables p = Engine.output relations p rows ∧
    rows.Nodup ∧ rows.Pairwise (· < ·) ∧ ∀ row, row ∈ rows ↔ s.Assigned p relations row := by
  refine ⟨Engine.run_of_joined h, ?_⟩
  obtain ⟨trail, start, items, a, -, -, ha⟩ := hp.laysOut hs.coherent
  obtain ⟨derived, base, targets, -, -, htargets, rfl, hrows⟩ := Engine.joined_eq_ok_iff.mp h
  have hsorted := Engine.joinRows_sorted hrows Engine.startRows_length (Engine.startRows_sorted base)
  refine ⟨Engine.nodup_of_sorted hsorted, hsorted, fun row => ?_⟩
  rw [Engine.mem_joinRows hrows Engine.startRows_length]
  have hchosen {i : Nat} {j : PlannedJoin} (hlength : row.length = 1 + p.joins.length)
      (hj : p.joins[i]? = some j) :
      Engine.ChosenAt (base :: targets) j (1 + i) row ↔ ∃ x, row[i + 1]? = some x ∧
        j.cardinality.Chooses (s.JoinMatches (base :: targets) j (i + 1) row) x := by
    obtain ⟨init, f, join, target, hplanned⟩ := ha.planned hj
    have hi := (List.getElem?_eq_some_iff.mp hj).1
    have hrelations : i + 1 < (base :: targets).length := by
      rw [List.length_cons, ← htargets.length_eq]
      omega
    rw [Engine.ChosenAt, Nat.add_comm 1 i]
    refine exists_congr fun x => and_congr_right fun _ => Cardinality.Chooses.congr (fun m => ?_) x
    exact hplanned.matches_iff hrelations (by omega) m
  constructor
  · rintro ⟨hlength, hstart, hjoins⟩
    obtain ⟨i, hi, hzero⟩ := (mem_startRows_iff (by omega)).mp hstart
    exact ⟨by omega, ⟨base, i, rfl, hi, hzero⟩, fun i j hj => (hchosen hlength hj).mp (hjoins i j hj)⟩
  · rintro ⟨hlength, ⟨r, i, hr, hi, hzero⟩, hjoins⟩
    obtain rfl : base = r := Option.some.inj hr
    have hlength : row.length = 1 + p.joins.length := by omega
    exact ⟨hlength, (mem_startRows_iff (by omega)).mpr ⟨i, hi, hzero⟩,
      fun i j hj => (hchosen hlength hj).mpr (hjoins i j hj)⟩

/-- The orders of the customers of the orders of each customer: the joins lead back and forth, and the
places of the third customer, who has no orders, stay empty. -/
theorem joined_rows_shop :
    let request : Request := ⟨"customers", [], [⟨none, some .count, some ⟨["orders", "customer", "orders"]⟩⟩]⟩
    let tables : Tables :=
      ⟨[⟨"customers", ["id", "region"], [[.int 1, .null], [.int 2, .null], [.int 3, .null]]⟩,
        ⟨"orders", ["id", "customer_id", "amount"],
          [[.int 1, .int 2, .int 5], [.int 2, .int 1, .int 7], [.int 3, .int 2, .int 9]]⟩]⟩
    let expected : List JoinedRow :=
      [[some 0, some 1, some 0, some 1], [some 1, some 0, some 1, some 0],
        [some 1, some 0, some 1, some 2], [some 1, some 2, some 1, some 0],
        [some 1, some 2, some 1, some 2], [some 2, none, none, none]]
    shop.Reachable ∧ ∃ plan relations, shop.compileRequest request = .ok plan ∧ shop.Compiled plan ∧
      Engine.joined tables plan = .ok (relations, expected) ∧
      Engine.run tables plan = Engine.output relations plan expected ∧ expected.Pairwise (· < ·) ∧
      ∀ row, row ∈ expected ↔ shop.Assigned plan relations row := by
  intro request tables expected
  have hcomputed : (shop.compileRequest request).map (fun plan =>
      (Engine.joined tables plan).map (·.2)) = .ok (.ok expected) := by decide +kernel
  obtain ⟨plan, hplan, hrows⟩ := map_eq_ok_iff.mp hcomputed
  obtain ⟨⟨relations, rows⟩, hjoined, rfl⟩ := map_eq_ok_iff.mp hrows
  have hcompiled := compiled_of_request hplan
  obtain ⟨hrun, -, hsorted, hmem⟩ := shop_reachable.joined_rows hcompiled hjoined
  exact ⟨shop_reachable, plan, relations, hplan, hcompiled, hjoined, hrun, hsorted, hmem⟩

end Store

end Joinery
