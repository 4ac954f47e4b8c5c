/-
A derived source as a table.

A source whose query compiles and runs can be exchanged for a table of the rows
that the query gives: the store without the query (`materialise`) and the tables
with the result under the name of the source answer every request as before
(`Reachable.materialise_iff`).
-/
import Joinery.Proofs.Plan.Exchange
import Joinery.Proofs.Relation.Tables

namespace Joinery

namespace Store

/-- The store whose source of a name has no query: its rows are those of a table. -/
def materialise (s : Store) (name : String) : Store :=
  { s with sources := s.sources.map fun x => if x.name = name then x.bare else x }

variable {s : Store} {source : Source} {query : Query} {plan : Plan} {tables tables' : Tables}
  {result : Result}

theorem alike_materialise (s : Store) (name : String) : Alike s (s.materialise name) := by
  refine ⟨?_, rfl⟩
  rw [materialise, List.map_map]
  refine List.map_congr_left fun x _ => ?_
  rw [Function.comp_apply]
  split <;> rfl

theorem sourceNamed?_materialise (s : Store) (name n : String) :
    (s.materialise name).sourceNamed? n =
      (s.sourceNamed? n).map fun x => if x.name = name then x.bare else x := by
  rw [sourceNamed?, materialise, List.find?_map]
  congr 2
  funext x
  rw [Function.comp_apply]
  split <;> rfl

theorem Reachable.trades_materialise (hs : s.Reachable) (hmem : source ∈ s.sources)
    (hq : source.query = some query) (hplan : s.compileQuery query = .ok plan)
    (hrun : Engine.run tables plan = .ok result)
    (hinsert : tables.insert ⟨source.name, result.columns, result.rows⟩ = .ok tables') :
    Trades s tables (s.materialise source.name) tables' := by
  intro x y hx hy hxy
  have hnamed := hs.sourceNamed?_of_mem hmem
  rw [sourceNamed?_materialise, ← hxy.name, hx, Option.map_some, Option.some.injEq] at hy
  subst hy
  by_cases hname : x.name = source.name
  · rw [hname] at hx
    obtain rfl : source = x := Option.some.inj (hnamed.symm.trans hx)
    have hderive : s.derive [] source.name = .ok plan := hs.coherent.derive_of_query hnamed hq hplan
    rw [if_pos rfl]
    refine .inr ⟨checkRows_eq_ok_iff.mpr (.inr ⟨plan, hderive⟩),
      checkRows_eq_ok_iff.mpr (.inl rfl), fun r => ?_⟩
    have hget : tables'.get source.bare.name = .ok ⟨source.name, result.columns, result.rows⟩ :=
      Tables.get_insert_self hinsert
    have hbare : source.bare.query = none := rfl
    unfold Gives Engine.Ran
    rw [hq, hbare]
    simp only [hderive, hrun, hget, Except.ok.injEq, exists_eq_left', eq_comm]
  · rw [if_neg hname]
    exact .inl ⟨rfl, fun _ => (Tables.get_insert_other hinsert hname).symm⟩

/-- **Materialising a derived source changes no answer.** -/
theorem Reachable.materialise_iff (hs : s.Reachable) (hmem : source ∈ s.sources)
    (hq : source.query = some query) (hplan : s.compileQuery query = .ok plan)
    (hrun : Engine.run tables plan = .ok result) :
    ∃ tables', tables.insert ⟨source.name, result.columns, result.rows⟩ = .ok tables' ∧
      ∀ (request : Request) (answer : Result),
        (∃ p, s.compileRequest request = .ok p ∧ Engine.run tables p = .ok answer) ↔
          ∃ p, (s.materialise source.name).compileRequest request = .ok p ∧
            Engine.run tables' p = .ok answer := by
  have hinsert := Tables.insert_eq_ok tables (Engine.run_width hrun) (r := ⟨source.name, _, _⟩)
  have htrades := hs.trades_materialise hmem hq hplan hrun hinsert
  have halike := alike_materialise s source.name
  refine ⟨_, hinsert, fun request answer => ⟨?_, ?_⟩⟩
  · rintro ⟨p, hp, hanswer⟩
    obtain ⟨q, hq, hiff⟩ := htrades.compileRequest halike hs.coherent hp
    exact ⟨q, hq, (hiff answer).mp hanswer⟩
  · rintro ⟨p, hp, hanswer⟩
    obtain ⟨q, hq, hiff⟩ :=
      htrades.symm.compileRequest halike.symm (halike.coherent hs.coherent) hp
    exact ⟨q, hq, (hiff answer).mp hanswer⟩

/-- What the customers of the shop have spent, from their orders and from a table. -/
theorem materialise_iff_shop :
    let query : Query :=
      ⟨"orders", [⟨[⟨["customer_id"]⟩], [⟨some "total", some .sum, some ⟨["amount"]⟩⟩]⟩]⟩
    shop.Reachable ∧ ∃ source ∈ shop.sources, source.query = some query ∧
      ∃ plan result tables', shop.compileQuery query = .ok plan ∧
        Engine.run shopTables plan = .ok result ∧
        shopTables.insert ⟨source.name, result.columns, result.rows⟩ = .ok tables' ∧
        ∀ (request : Request) (answer : Result),
          (∃ p, shop.compileRequest request = .ok p ∧ Engine.run shopTables p = .ok answer) ↔
            ∃ p, (shop.materialise source.name).compileRequest request = .ok p ∧
              Engine.run tables' p = .ok answer := by
  intro query
  have hderived : (shop.sources.any fun source => source.query == some query) = true := by
    decide +kernel
  obtain ⟨source, hmem, hq⟩ := List.any_eq_true.mp hderived
  have hq : source.query = some query := by simpa using hq
  obtain ⟨plan, result, hplan, hrun⟩ :=
    exists_run shopTables (shop.compileQuery query) (by decide +kernel)
  obtain ⟨tables', hinsert, hiff⟩ := shop_reachable.materialise_iff hmem hq hplan hrun
  exact ⟨shop_reachable, source, hmem, hq, plan, result, tables', hplan, hrun, hinsert, hiff⟩

end Store

end Joinery
