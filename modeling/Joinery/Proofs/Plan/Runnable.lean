/-
Whether the plan of a request runs.

All relations and nested plans that a compiled plan refers to are there
(`Compiled.inRange`). So it fails only for want of a table or a column, and it
fails exactly if it or a plan nested in it lacks one; which tables lack what is
read off their columns (`Reachable.run_schema`).
-/
import Joinery.Proofs.Plan.Readable
import Joinery.Proofs.Plan.Run
import Joinery.Proofs.Relation.Schema

namespace Joinery

theorem Plan.holds_iff {p q : Plan} : p.Holds q ↔ q = p ∨ ∃ e ∈ p.subPlans, e.2.Holds q := by
  constructor
  · rintro (_ | ⟨hmem, hq⟩)
    · exact .inl rfl
    · exact .inr ⟨_, hmem, hq⟩
  · rintro (rfl | ⟨e, he, hq⟩)
    · exact .self
    · exact .nested he hq

theorem Plan.Holds.eq_of_bare {p q : Plan} (h : p.Holds q) (hbare : p.subPlans = []) : q = p := by
  rcases Plan.holds_iff.mp h with rfl | ⟨e, he, -⟩
  · rfl
  · exact absurd he (hbare ▸ List.not_mem_nil)

namespace Store

variable {s : Store} {p : Plan}

/-! ## Positions -/

theorem Supplies.lt {subPlans : List (Source × Plan)} {source : Source} {position : Nat}
    (h : Supplies subPlans source (some position)) : position < subPlans.length := by
  unfold Supplies at h
  split at h
  · cases h
  · obtain ⟨k, plan, hk, hplan⟩ := h
    cases hk
    exact (List.getElem?_eq_some_iff.mp hplan).1

theorem Rests.lt {subPlans : List (Source × Plan)} {source : Source} {position : Nat}
    (h : Rests subPlans source (.subPlan position)) : position < subPlans.length := by
  unfold Rests at h
  split at h
  · cases h
  · obtain ⟨k, plan, hk, hplan⟩ := h
    cases hk
    exact (List.getElem?_eq_some_iff.mp hplan).1

theorem index_lt_of_sourceAt? {slot : Slot} {source : Source} (h : s.sourceAt? p slot = some source) :
    slot.index < p.origins.length := by
  rw [Plan.origins_length]
  cases slot with
  | root => exact Nat.succ_pos _
  | join i =>
    obtain ⟨j, hj, -⟩ := Option.bind_eq_some_iff.mp h
    exact Nat.succ_lt_succ (List.getElem?_eq_some_iff.mp hj).1

theorem Readable.index_lt {c : Column} (h : s.Readable p c) : c.slot.index < p.origins.length := by
  obtain ⟨f, hf, -⟩ := h
  obtain ⟨source, hsource, -⟩ := Option.bind_eq_some_iff.mp hf
  exact index_lt_of_sourceAt? hsource

/-- **The positions in a compiled plan are in range.** -/
theorem Compiled.inRange (hs : s.Coherent) (h : s.Compiled p) : p.InRange := by
  have hnamed := h.named hs
  obtain ⟨trail, start, items, a, -, -, ha⟩ := h.laysOut hs
  have hlength : p.subPlans.length = a.subPlans.length := by
    rw [ha.subPlans, List.length_map]
  refine ⟨fun position hmem => ?_, Plan.forall_references.mpr ⟨fun j hj e he => ?_, fun key hk => ?_,
    fun x hx c hc => ?_⟩⟩
  · rw [hlength]
    rcases List.mem_cons.mp hmem with hbase | hjoin
    · exact Rests.lt (hbase ▸ ha.base)
    · obtain ⟨j, hj, horigin⟩ := List.mem_map.mp hjoin
      rw [ha.joins] at hj
      obtain ⟨⟨c, j⟩, he, rfl⟩ := List.mem_map.mp hj
      obtain ⟨i, hi⟩ := List.getElem?_of_mem he
      obtain ⟨_, _, _, _, -, hp⟩ := ha.laid.planned i c j hi
      unfold PlannedJoin.origin at horigin
      split at horigin
      · next k hk =>
        cases horigin
        exact Supplies.lt (hk ▸ hp.rows)
      · cases horigin
  · obtain ⟨i, hi⟩ := List.getElem?_of_mem hj
    exact ⟨(hnamed.conditions i j hi e he e.1 (by simp)).2.index_lt,
      (hnamed.conditions i j hi e he e.2 (by simp)).2.index_lt⟩
  · obtain ⟨source, _, _, hsource, -⟩ := hnamed.keys key hk
    exact index_lt_of_sourceAt? hsource
  · unfold AggregateTarget.column? at hc
    split at hc
    · cases hc
    · next c' htarget =>
      cases hc
      exact (hnamed.aggregates x hx c htarget).index_lt

/-! ## Running -/

/-- A compiled plan fails only for want of a table or a column, its nested plans included. -/
theorem Compiled.run_missing (hs : s.Coherent) (h : s.Compiled p) (tables : Tables) :
    FailsOnly ExecutionError.IsMissing (Engine.run tables p) := by
  induction p using Plan.nested_induction with
  | h p ih => exact Engine.run_missing (h.inRange hs) fun e he => ih e he (h.nested hs he)

/-- A compiled plan runs when neither it nor a plan nested in it lacks a table or a column. -/
theorem Compiled.exists_run_iff (hs : s.Coherent) (h : s.Compiled p) (tables : Tables) :
    (∃ result, Engine.run tables p = .ok result) ↔ ∀ q, p.Holds q → ¬ q.Lacks tables := by
  induction p using Plan.nested_induction with
  | h p ih =>
    rw [Engine.exists_run_iff (h.inRange hs)]
    constructor
    · rintro ⟨hnested, hlacks⟩ q hq
      rcases Plan.holds_iff.mp hq with rfl | ⟨e, he, hq⟩
      · exact hlacks
      · exact (ih e he (h.nested hs he)).mp (hnested e he) q hq
    · intro hall
      exact ⟨fun e he => (ih e he (h.nested hs he)).mpr fun q hq => hall q (.nested he hq), hall p .self⟩

/-- **Whether a plan runs is a matter of the schema.** Over tables of the same names and columns, with
whatever rows, the plan of a request runs on both or fails on both with one error, which is that a
table or a column is missing. It fails exactly if the plan or one nested in it reads a table that is
not there, or refers to a column that its relation has not. -/
theorem Reachable.run_schema (hs : s.Reachable) {request : Request} {plan : Plan}
    (h : s.compileRequest request = .ok plan) {tables tables' : Tables}
    (hschema : tables.SameSchema tables') :
    verdict (Engine.run tables plan) = verdict (Engine.run tables' plan) ∧
      (∀ e, Engine.run tables plan = .error e → e.IsMissing) ∧
      ((∃ e, Engine.run tables plan = .error e) ↔ ∃ q, plan.Holds q ∧ q.Lacks tables) := by
  have hcompiled := compiled_of_request h
  refine ⟨(Engine.run_sameSchema hschema plan).verdict, hcompiled.run_missing hs.coherent tables, ?_⟩
  have hrun := hcompiled.exists_run_iff hs.coherent tables
  cases hresult : Engine.run tables plan with
  | ok result =>
    have hnone := hrun.mp ⟨result, hresult⟩
    exact ⟨nofun, fun ⟨q, hq, hlacks⟩ => (hnone q hq hlacks).elim⟩
  | error e =>
    refine ⟨fun _ => ?_, fun _ => ⟨e, rfl⟩⟩
    by_contra hno
    obtain ⟨result, hok⟩ := hrun.mpr fun q hq hlacks => hno ⟨q, hq, hlacks⟩
    cases hresult.symm.trans hok

/-- Orders without amounts: what the customers have spent cannot be told, whether there are orders or
not, since the plan that is nested for it lacks the column. -/
theorem run_schema_shop :
    let request : Request := ⟨"customers", [⟨["region"]⟩], [⟨none, some .sum, some ⟨["spending", "total"]⟩⟩]⟩
    let customers : Relation := ⟨"customers", ["id", "region"], [[.int 1, .string "north"]]⟩
    let filled : Tables := ⟨[customers, ⟨"orders", ["id", "customer_id"], [[.int 1, .int 1]]⟩]⟩
    let bare : Tables := ⟨[customers, ⟨"orders", ["id", "customer_id"], []⟩]⟩
    shop.Reachable ∧ filled.SameSchema bare ∧ ∃ plan, shop.compileRequest request = .ok plan ∧
      Engine.run filled plan = .error (.missingColumn "orders" "amount") ∧
      verdict (Engine.run bare plan) = .error (.missingColumn "orders" "amount") ∧
      ∃ q, plan.Holds q ∧ q.Lacks filled := by
  intro request customers filled bare
  have hschema : filled.SameSchema bare := by
    intro name
    by_cases hc : "customers" = name
    · subst hc
      rfl
    by_cases ho : "orders" = name
    · subst ho
      rfl
    simp [Tables.get, filled, bare, customers, hc, ho]
  have hcomputed : (shop.compileRequest request).map (fun plan => verdict (Engine.run filled plan)) =
      .ok (.error (.missingColumn "orders" "amount")) := by decide +kernel
  obtain ⟨plan, hplan, hrun⟩ := map_eq_ok_iff.mp hcomputed
  obtain ⟨hverdict, -, hfails⟩ := shop_reachable.run_schema hplan hschema
  have hrun' := verdict_eq_error_iff.mp hrun
  exact ⟨shop_reachable, hschema, plan, hplan, hrun', hverdict.symm.trans hrun, hfails.mp ⟨_, hrun'⟩⟩

end Store

end Joinery
