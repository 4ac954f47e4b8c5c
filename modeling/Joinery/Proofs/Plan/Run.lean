/-
Running a plan that is laid out.

Every relation of the plan is what its source gives (`Gives`): its table, or
the rows of its plan. Which nested plan stands where does not matter, and none
is run in vain (`LaysOut.run_eq_ok_iff`).
-/
import Joinery.Proofs.Plan.Stage
import Joinery.Proofs.Relation.Evaluate

namespace Joinery.Store

open Engine (Ran evaluateOn)

/-- The relation of a source: its table, or what its plan gives. -/
def Gives (derive : Derive) (tables : Tables) (source : Source) (r : Relation) : Prop :=
  match source.query with
  | none => tables.get source.name = .ok r
  | some _ => ∃ plan, derive source.name = .ok plan ∧ Ran tables (source.name, plan) r

/-- The relation of the target of a join. -/
def GivesTarget (s : Store) (derive : Derive) (tables : Tables) (j : PlannedJoin) (r : Relation) :
    Prop :=
  ∃ target, s.sourceNamed? j.target = some target ∧ Gives derive tables target r

variable {s : Store} {derive : Derive} {start : Source} {items : StageItems} {a : Assembly}
  {p : Plan} {tables : Tables}

/-- What stands at the position of a nested plan is what its source gives. -/
theorem Supplies.gives_iff {derived : List Relation} {source : Source} {position : Option Nat}
    (hnested : Nested s derive a.subPlans)
    (hd : List.Forall₂ (Ran tables) (a.subPlans.map fun (source, plan) => (source.name, plan)) derived)
    (h : Supplies a.subPlans source position) (r : Relation) :
    (match position with
      | none => tables.get source.name
      | some k => Engine.derivedRelation derived k) = .ok r ↔ Gives derive tables source r := by
  unfold Supplies at h
  unfold Gives
  cases hq : source.query with
  | none =>
    rw [hq] at h
    rw [h]
  | some query =>
    rw [hq] at h
    obtain ⟨k, plan, rfl, hk⟩ := h
    have hplan := (hnested.derived _ (List.mem_of_getElem? hk)).2.2
    have hk' : (a.subPlans.map fun (source, plan) => (source.name, plan))[k]? =
        some (source.name, plan) := by
      rw [List.getElem?_map, hk]
      rfl
    obtain ⟨q, hq, hran⟩ := forall₂_getElem? hd hk'
    simp only [Engine.derivedRelation, hq, Except.ok.injEq]
    constructor
    · rintro rfl
      exact ⟨plan, hplan, hran⟩
    · rintro ⟨plan', hp', hr⟩
      cases hplan.symm.trans hp'
      exact hran.unique hr

theorem Gives.ran {source : Source} {plan : Plan} {r : Relation} (hq : source.query.isSome)
    (hplan : derive source.name = .ok plan) (h : Gives derive tables source r) :
    Ran tables (source.name, plan) r := by
  unfold Gives at h
  obtain ⟨query, hquery⟩ := Option.isSome_iff_exists.mp hq
  rw [hquery] at h
  obtain ⟨plan', hp', hr⟩ := h
  cases hplan.symm.trans hp'
  exact hr

theorem Planned.givesTarget_iff {chains : List Chain} {subPlans : List (Source × Plan)} {i : Nat}
    {init : List Field} {f : Field} {join : Join} {target : Source} {j : PlannedJoin}
    (h : Planned s chains subPlans i init f join target j) (r : Relation) :
    s.GivesTarget derive tables j r ↔ Gives derive tables target r := by
  unfold GivesTarget
  rw [h.target, h.named]
  simp

/-- The relation of a join is what its target gives. -/
theorem LaysOut.joinRelation_eq_ok_iff (h : LaysOut s derive start items a p)
    {derived : List Relation} (hd : List.Forall₂ (Ran tables) p.subPlans derived) {j : PlannedJoin}
    (hj : j ∈ p.joins) (r : Relation) :
    Engine.joinRelation tables derived j = .ok r ↔ s.GivesTarget derive tables j r := by
  rw [h.subPlans] at hd
  rw [h.joins] at hj
  obtain ⟨⟨c, j⟩, he, rfl⟩ := List.mem_map.mp hj
  obtain ⟨i, hi⟩ := List.getElem?_of_mem he
  obtain ⟨init, f, join, target, -, hp⟩ := h.laid.planned i c j hi
  have hname : j.target = target.name := by rw [hp.target, sourceNamed?_name hp.named]
  rw [hp.givesTarget_iff, ← hp.rows.gives_iff h.laid.nested hd, Engine.joinRelation]
  cases j.subPlan with
  | none => simp only [hname]
  | some k => rfl

theorem LaysOut.baseRelation_eq_ok_iff (h : LaysOut s derive start items a p)
    {derived : List Relation} (hd : List.Forall₂ (Ran tables) p.subPlans derived) (r : Relation) :
    Engine.baseRelation tables derived p.base = .ok r ↔ Gives derive tables start r := by
  rw [h.subPlans] at hd
  have hrest := h.base
  unfold Rests at hrest
  cases hq : start.query with
  | none =>
    rw [hq] at hrest
    have hs : Supplies a.subPlans start none := by rw [Supplies, hq]
    rw [hrest, ← hs.gives_iff h.laid.nested hd]
    rfl
  | some query =>
    rw [hq] at hrest
    obtain ⟨k, plan, hbase, hk⟩ := hrest
    have hs : Supplies a.subPlans start (some k) := by rw [Supplies, hq]; exact ⟨k, plan, rfl, hk⟩
    rw [hbase, ← hs.gives_iff h.laid.nested hd]
    rfl

/-- **A plan that is laid out runs when its sources give their relations**, and its result is made
of these. -/
theorem LaysOut.run_eq_ok_iff (h : LaysOut s derive start items a p) {result : Result} :
    Engine.run tables p = .ok result ↔ ∃ base targets, Gives derive tables start base ∧
      List.Forall₂ (s.GivesTarget derive tables) p.joins targets ∧
      evaluateOn base targets p = .ok result := by
  rw [Engine.run_eq_ok_iff]
  constructor
  · rintro ⟨derived, base, targets, hd, hb, ht, hr⟩
    exact ⟨base, targets, (h.baseRelation_eq_ok_iff hd base).mp hb,
      (forall₂_congr_of_mem fun j hj => h.joinRelation_eq_ok_iff hd hj).mp ht, hr⟩
  · rintro ⟨base, targets, hb, ht, hr⟩
    -- Every nested plan is used, so each of them runs.
    have hall : ∀ e ∈ p.subPlans, ∃ r, Ran tables e r := by
      intro e he
      rw [h.subPlans] at he
      obtain ⟨⟨source, plan⟩, hmem, rfl⟩ := List.mem_map.mp he
      obtain ⟨-, hq, hplan⟩ := h.laid.nested.derived _ hmem
      rcases h.laid.used _ hmem with hstart | ⟨j, hj, hn⟩
      · have hstart : source = start := hstart
        subst hstart
        exact ⟨base, hb.ran hq hplan⟩
      · rw [← h.joins] at hj
        obtain ⟨r, -, target, hn', hr'⟩ := forall₂_mem ht hj
        cases hn.symm.trans hn'
        exact ⟨r, hr'.ran hq hplan⟩
    obtain ⟨derived, hd⟩ := forall₂_exists hall
    exact ⟨derived, base, targets, hd, (h.baseRelation_eq_ok_iff hd base).mpr hb,
      (forall₂_congr_of_mem fun j hj => h.joinRelation_eq_ok_iff hd hj).mpr ht, hr⟩

/-- Two customers of the shop and their orders. -/
def shopTables : Tables :=
  ⟨[⟨"customers", ["id", "region"], [[.int 1, .string "north"], [.int 2, .string "south"]]⟩,
    ⟨"orders", ["id", "customer_id", "amount"],
      [[.int 1, .int 1, .int 5], [.int 2, .int 1, .int 7], [.int 3, .int 2, .int 9]]⟩]⟩

/-- A computed check that something compiles and runs. -/
theorem exists_run (tables : Tables) (compiled : Except CompileError Plan)
    (h : (compiled.toOption.bind fun plan => (Engine.run tables plan).toOption).isSome = true) :
    ∃ plan result, compiled = .ok plan ∧ Engine.run tables plan = .ok result := by
  cases compiled with
  | error e => cases h
  | ok plan =>
    cases hrun : Engine.run tables plan with
    | error e =>
      simp only [Except.toOption, Option.bind_some, hrun] at h
      cases h
    | ok result => exact ⟨plan, result, rfl, hrun⟩

end Joinery.Store
