/-
Requests over tables whose rows stand in another order.

A join of cardinality one takes the first of the rows that match, so the order of
the rows matters if there are several. That the rows of the owner have one match
each is enough only if the owner has rows (`OwnersMatchOnce.singleMatches`). If it
has none, a join that sees no field of the owner is still tried, for a missing row,
and may find several (`first_of_two`). If no joined row is given a choice, the
result is the same in another order (`Reachable.run_permuted`).
-/
import Joinery.Proofs.Plan.Joined
import Joinery.Proofs.Plan.Runnable
import Joinery.Proofs.Relation.Permuted

namespace Joinery

open Json (Value)

namespace Condition

variable {value value' : Path → Value}

mutual
/-- A condition that holds still does when references that are null take a value. -/
theorem holds_mono (h : ∀ reference, value reference = .null ∨ value' reference = value reference) :
    ∀ {on : Condition}, on.holds value = true → on.holds value' = true
  | .equal left right, hon => by
    simp only [holds] at hon ⊢
    rcases h left with hleft | hleft
    · rw [hleft] at hon
      cases hon
    rcases h right with hright | hright
    · rw [hright, Cell.matched] at hon
      simp [Value.isNull] at hon
    · rwa [hleft, hright]
  | .all _, hon => allHold_mono h hon

theorem allHold_mono (h : ∀ reference, value reference = .null ∨ value' reference = value reference) :
    ∀ {kids : List Condition}, allHold value kids = true → allHold value' kids = true
  | [], _ => rfl
  | _ :: _, hon =>
    have ⟨hfirst, hrest⟩ := Bool.and_eq_true_iff.mp hon
    Bool.and_eq_true_iff.mpr ⟨holds_mono h hfirst, allHold_mono h hrest⟩
end

end Condition

namespace Store

variable {s : Store} {p : Plan} {relations : List Relation}

/-! ## Joins without a choice -/

/-- For each joined row that it extends, a join of cardinality one finds at most one row of its target
that matches: for the row of the owner, or for a missing one. -/
def SingleMatches (s : Store) (relations : List Relation) (p : Plan) (rows : List JoinedRow) : Prop :=
  ∀ row ∈ rows, ∀ i j, p.joins[i]? = some j → j.cardinality = .one → ∀ m n,
    s.JoinMatches relations j (i + 1) row m → s.JoinMatches relations j (i + 1) row n → m = n

/-- The joins match what the conditions of their fields say. -/
theorem Compiled.singleMatches_iff (hs : s.Coherent) (hp : s.Compiled p) {tables : Tables}
    {rows : List JoinedRow} (h : Engine.joined tables p = .ok (relations, rows)) :
    s.SingleMatches relations p rows ↔ Engine.OneMatch relations 1 p.joins rows := by
  obtain ⟨trail, start, items, a, -, -, ha⟩ := hp.laysOut hs
  obtain ⟨derived, base, targets, -, -, htargets, rfl, hrows⟩ := Engine.joined_eq_ok_iff.mp h
  have hlength : (base :: targets).length = p.joins.length + 1 := by
    rw [List.length_cons, htargets.length_eq]
  refine forall₂_congr fun row hrow => forall₂_congr fun i j => forall₂_congr fun hj _ => ?_
  have hi := (List.getElem?_eq_some_iff.mp hj).1
  have hwidth := ((Engine.mem_joinRows hrows Engine.startRows_length row).mp hrow).1
  rw [Nat.add_comm 1 i]
  simp only [ha.matches_iff hlength hj (show i + 1 < row.length by omega)]

/-- For each row of the owner, a join of cardinality one finds at most one row of its target that
matches. -/
def OwnersMatchOnce (s : Store) (relations : List Relation) (p : Plan) : Prop :=
  ∀ i j, p.joins[i]? = some j → j.cardinality = .one →
    ∀ parent, relations[j.parent.index]? = some parent → ∀ k < parent.rows.length,
    ∀ row : JoinedRow, row[j.parent.index]? = some (some k) → ∀ m n,
      s.JoinMatches relations j (i + 1) row m → s.JoinMatches relations j (i + 1) row n → m = n

/-- What matches for a missing row of the parent matches for every row of it. -/
theorem JoinMatches.of_missing {j : PlannedJoin} {index : Nat} {row : JoinedRow} {m : Nat}
    (h : s.JoinMatches relations j index row m) {parent : Relation}
    (hparent : relations[j.parent.index]? = some parent)
    (hnull : ∀ name, parent.read (row[j.parent.index]?.bind id) name = .null) (other : JoinedRow) :
    s.JoinMatches relations j index other m := by
  obtain ⟨f, join, _, target, hf, hk, hp, ht, hm, hon⟩ := h
  cases hparent.symm.trans hp
  refine ⟨f, join, parent, target, hf, hk, hp, ht, hm, Condition.holds_mono (fun reference => ?_) hon⟩
  unfold Path.readIn
  split
  · exact .inl (hnull _)
  · exact .inr rfl
  · exact .inr rfl

/-- One match for each row of the owner is one for each joined row, if the owners have rows. -/
theorem OwnersMatchOnce.singleMatches (h : s.OwnersMatchOnce relations p)
    (howners : ∀ j ∈ p.joins, j.cardinality = .one →
      ∀ parent, relations[j.parent.index]? = some parent → parent.rows ≠ [])
    (rows : List JoinedRow) : s.SingleMatches relations p rows := by
  intro row _ i j hj hone m n hm hn
  obtain ⟨_, _, parent, _, -, -, hparent, -⟩ := id hm
  by_cases hrow : ∃ k < parent.rows.length, row[j.parent.index]? = some (some k)
  · obtain ⟨k, hk, hrow⟩ := hrow
    exact h i j hj hone parent hparent k hk row hrow m n hm hn
  · -- No row of the parent stands in the joined row, so that any row of it can take its place.
    have hnull (name : String) : parent.read (row[j.parent.index]?.bind id) name = .null := by
      cases hx : row[j.parent.index]?.bind id with
      | none => rfl
      | some k =>
        obtain ⟨x, hx, rfl⟩ := Option.bind_eq_some_iff.mp hx
        have hk : parent.rows[k]? = none := by
          rw [List.getElem?_eq_none_iff]
          exact Nat.not_lt.mp fun hk => hrow ⟨k, hk, hx⟩
        simp [Relation.read, Relation.cell?, hk]
    have hpos : 0 < parent.rows.length :=
      List.length_pos_iff.mpr (howners j (List.mem_of_getElem? hj) hone parent hparent)
    let other : JoinedRow := List.replicate (j.parent.index + 1) (some 0)
    exact h i j hj hone parent hparent 0 hpos other (by simp [other]) m n
      (hm.of_missing hparent hnull other) (hn.of_missing hparent hnull other)

/-- Orders of parts, and the plants that make them: any of the plants makes any part. -/
def supply : Store :=
  [.defineSource "plants" [⟨"id", .scalar⟩] none,
    .defineSource "parts" [⟨"id", .scalar⟩, ⟨"plant", .join ⟨"plants", .one, .all []⟩⟩] none,
    .defineSource "orders" [⟨"part_id", .scalar⟩,
      ⟨"part", .join ⟨"parts", .one, .equal ⟨["part_id"]⟩ ⟨["part", "id"]⟩⟩⟩] none].foldl attempt .empty

/-- There are no parts, so none of them has two plants. But the part that the order lacks has, and the
first of them depends on the order of the plants. -/
theorem first_of_two :
    let request : Request := ⟨"orders", [⟨["part", "plant", "id"]⟩], [⟨none, some .count, none⟩]⟩
    let orders : Relation := ⟨"orders", ["part_id"], [[.int 7]]⟩
    let parts : Relation := ⟨"parts", ["id"], []⟩
    let ts : Tables := ⟨[orders, parts, ⟨"plants", ["id"], [[.int 1], [.int 2]]⟩]⟩
    let us : Tables := ⟨[orders, parts, ⟨"plants", ["id"], [[.int 2], [.int 1]]⟩]⟩
    supply.Reachable ∧ ts.Permuted us ∧ ts.Plain ∧
      ∃ plan result result', supply.compileRequest request = .ok plan ∧
      (∀ q, plan.Holds q → (∀ a ∈ q.aggregates, a.op.Unordered) ∧
        ∀ relations rows, Engine.joined ts q = .ok (relations, rows) →
          supply.OwnersMatchOnce relations q) ∧
      Engine.run ts plan = .ok result ∧ Engine.run us plan = .ok result' ∧
      ¬ result.Permuted result' := by
  intro request orders parts ts us
  have hcompiled : (supply.compileRequest request).map (fun plan =>
      (plan.subPlans.length, plan.aggregates.map (·.op), plan.joins.map (·.parent.index))) =
      .ok (0, [.count], [0, 1]) := by
    decide +kernel
  have hsizes : (supply.compileRequest request).map (fun plan =>
      (Engine.joined ts plan).map fun x => x.1.map (·.rows.length)) = .ok (.ok [1, 0, 2]) := by
    decide +kernel
  have hcells : (supply.compileRequest request).map (fun plan =>
      ((Engine.run ts plan).map fun x => x.rows.map fun row => row.map (·.text),
        (Engine.run us plan).map fun x => x.rows.map fun row => row.map (·.text))) =
      .ok (.ok [["1", "1"]], .ok [["2", "1"]]) := by
    decide +kernel
  obtain ⟨plan, hplan, hshape⟩ := map_eq_ok_iff.mp hcompiled
  obtain ⟨hnone, hshape⟩ := Prod.mk.inj hshape
  obtain ⟨hops, hparents⟩ := Prod.mk.inj hshape
  rw [hplan] at hsizes hcells
  obtain ⟨⟨relations, rows⟩, hjoined, hlengths⟩ := map_eq_ok_iff.mp (Except.ok.inj hsizes)
  obtain ⟨hruns, hruns'⟩ := Prod.mk.inj (Except.ok.inj hcells)
  obtain ⟨result, hrun, hrows⟩ := map_eq_ok_iff.mp hruns
  obtain ⟨result', hrun', hrows'⟩ := map_eq_ok_iff.mp hruns'
  have hperm : ts.Permuted us :=
    .cons ⟨rfl, rfl, .refl _⟩ (.cons ⟨rfl, rfl, .refl _⟩ (.cons ⟨rfl, rfl, .swap _ _ _⟩ .nil))
  refine ⟨Reachable.empty.attempts _, hperm, by decide, plan, result, result', hplan, fun q hq => ?_,
    hrun, hrun', fun h => ?_⟩
  · obtain rfl := hq.eq_of_bare (List.length_eq_zero_iff.mp hnone)
    refine ⟨fun a ha => ?_, fun relations' rows' h => ?_⟩
    · have hop : a.op ∈ [Operator.count] := hops ▸ List.mem_map_of_mem ha
      exact .inl (List.mem_singleton.mp hop)
    · cases hjoined.symm.trans h
      rintro i j hj - parent hparent k hk row - m n ⟨_, _, _, target, -, -, -, htarget, hm, -⟩ -
      have hindex : [0, 1][i]? = some j.parent.index := by rw [← hparents, List.getElem?_map, hj]; rfl
      have howner : [1, 0, 2][j.parent.index]? = some parent.rows.length := by
        rw [← hlengths, List.getElem?_map, hparent]; rfl
      have hfound : [1, 0, 2][i + 1]? = some target.rows.length := by
        rw [← hlengths, List.getElem?_map, htarget]; rfl
      -- The first join has no rows to find, the second no owner to find them for.
      match i, hindex, hfound with
      | 0, _, hfound =>
        rw [← Option.some.inj hfound] at hm
        exact absurd hm (Nat.not_lt_zero m)
      | 1, hindex, _ =>
        rw [← Option.some.inj hindex] at howner
        rw [← Option.some.inj howner] at hk
        exact absurd hk (Nat.not_lt_zero k)
  · have htexts := h.rows.map fun row => row.map (·.text)
    rw [hrows, hrows'] at htexts
    exact absurd htexts (by decide)

/-! ## Results -/

/-- **The order of rows does not matter** to a request whose aggregates see their cells as a multiset, if
no join of cardinality one has a choice: over tables of plain cells in another order it fails with
the same error, or gives the same columns and the same rows in another order. The joined rows have to
be few enough for nested queries to count them in 64 bits, as they are in any memory. -/
theorem Reachable.run_permuted (hs : s.Reachable) {request : Request} {plan : Plan}
    (hplan : s.compileRequest request = .ok plan) {ts us : Tables} (hperm : ts.Permuted us)
    (hplain : ts.Plain) (hops : ∀ q, plan.Holds q → ∀ a ∈ q.aggregates, a.op.Unordered)
    (hsize : ∀ q, plan.Holds q → ∀ relations rows, Engine.joined ts q = .ok (relations, rows) →
      rows.length < 0x8000000000000000)
    (hsingle : ∀ q, plan.Holds q → ∀ relations rows, Engine.joined ts q = .ok (relations, rows) →
      s.SingleMatches relations q rows) :
    Agree Result.Permuted (Engine.run ts plan) (Engine.run us plan) := by
  have hcompiled := compiled_of_request hplan
  have hfree : ∀ q, plan.Holds q → Engine.OrderFree ts q := fun q hq => by
    refine ⟨hops q hq, fun relations rows hjoined => ⟨hsize q hq relations rows hjoined, ?_⟩⟩
    have hq' := hcompiled.holds hs.coherent hq
    exact (hq'.singleMatches_iff hs.coherent hjoined).mp (hsingle q hq relations rows hjoined)
  have hpermuted := Engine.plainPermuted_of_permuted hperm hplain
  exact (Engine.run_moved hpermuted plan hfree).mono fun _ _ h => h.toPermuted

/-- The shop, with how often each customer has ordered and the largest order. -/
def tally : Store :=
  [.defineQuerySource "visits" ⟨"orders", [⟨[⟨["customer_id"]⟩],
      [⟨some "number", some .count, none⟩, ⟨some "largest", some .max, some ⟨["amount"]⟩⟩]⟩]⟩
      (some "customer_id"),
    .apply [⟨"customers", ⟨"visits",
      .join ⟨"visits", .one, .equal ⟨["id"]⟩ ⟨["visits", "customer_id"]⟩⟩⟩⟩]].foldl attempt shop

theorem tally_reachable : tally.Reachable := shop_reachable.attempts _

/-- The customers and the orders in another order: so are the rows of the nested query, and the
regions. The third customer has ordered nothing. -/
theorem run_permuted_tally :
    let request : Request := ⟨"customers", [⟨["region"]⟩], [⟨none, some .count, none⟩,
      ⟨none, some .min, some ⟨["visits", "largest"]⟩⟩,
      ⟨none, some .countDistinct, some ⟨["orders", "amount"]⟩⟩]⟩
    let ts : Tables := ⟨[⟨"customers", ["id", "region"], [[.int 1, .string "north"],
        [.int 2, .string "south"], [.int 3, .string "north"]]⟩,
      ⟨"orders", ["id", "customer_id", "amount"],
        [[.int 1, .int 1, .int 5], [.int 2, .int 2, .int 7], [.int 3, .int 1, .int 9]]⟩]⟩
    let us : Tables := ⟨[⟨"customers", ["id", "region"], [[.int 2, .string "south"],
        [.int 1, .string "north"], [.int 3, .string "north"]]⟩,
      ⟨"orders", ["id", "customer_id", "amount"],
        [[.int 2, .int 2, .int 7], [.int 1, .int 1, .int 5], [.int 3, .int 1, .int 9]]⟩]⟩
    tally.Reachable ∧ ts.Permuted us ∧ ts.Plain ∧ ∃ plan result result',
      tally.compileRequest request = .ok plan ∧ plan.depth = 1 ∧
      (∀ q, plan.Holds q → Engine.OrderFree ts q) ∧
      Engine.run ts plan = .ok result ∧ Engine.run us plan = .ok result' ∧
      (result.rows.map fun row => row.map (·.text)) =
        [["\"north\"", "2", "9", "2"], ["\"south\"", "1", "7", "1"]] ∧
      result.Permuted result' := by
  intro request ts us
  have hcomputed : (tally.compileRequest request).map (fun plan => (plan.depth,
      decide (Engine.OrderFree ts plan),
      plan.subPlans.map fun e => (decide (Engine.OrderFree ts e.2), e.2.subPlans.length))) =
      .ok (1, true, [(true, 0)]) := by
    decide +kernel
  have hcells : (tally.compileRequest request).map (fun plan =>
      (Engine.run ts plan).map fun x => x.rows.map fun row => row.map (·.text)) =
      .ok (.ok [["\"north\"", "2", "9", "2"], ["\"south\"", "1", "7", "1"]]) := by
    decide +kernel
  obtain ⟨plan, hplan, hcomputed⟩ := map_eq_ok_iff.mp hcomputed
  obtain ⟨hdepth, hcomputed⟩ := Prod.mk.inj hcomputed
  obtain ⟨hself, hnested⟩ := Prod.mk.inj hcomputed
  rw [hplan] at hcells
  obtain ⟨result, hrun, hrows⟩ := map_eq_ok_iff.mp (Except.ok.inj hcells)
  have hfree : ∀ q, plan.Holds q → Engine.OrderFree ts q := fun q hq => by
    rcases Plan.holds_iff.mp hq with rfl | ⟨e, he, hq⟩
    · exact of_decide_eq_true hself
    · have hentry := hnested ▸ List.mem_map_of_mem (f := fun e : String × Plan =>
        (decide (Engine.OrderFree ts e.2), e.2.subPlans.length)) he
      obtain ⟨hfree, hnone⟩ := Prod.mk.inj (List.mem_singleton.mp hentry)
      obtain rfl := hq.eq_of_bare (List.length_eq_zero_iff.mp hnone)
      exact of_decide_eq_true hfree
  have hperm : ts.Permuted us :=
    .cons ⟨rfl, rfl, .swap _ _ _⟩ (.cons ⟨rfl, rfl, .swap _ _ _⟩ .nil)
  have hplain : ts.Plain := by decide
  have hagree := tally_reachable.run_permuted hplan hperm hplain (fun q hq => (hfree q hq).ops)
    (fun q hq _ _ hjoined => ((hfree q hq).joined _ _ hjoined).1) fun q hq _ _ hjoined =>
      (((compiled_of_request hplan).holds tally_reachable.coherent hq).singleMatches_iff
        tally_reachable.coherent hjoined).mpr ((hfree q hq).joined _ _ hjoined).2
  rw [hrun] at hagree
  generalize hrun' : Engine.run us plan = other at hagree
  cases hagree with
  | ok hpermuted => exact ⟨tally_reachable, hperm, hplain, plan, result, _, hplan, hdepth, hfree, hrun,
      hrun', hrows, hpermuted⟩

end Store

end Joinery
