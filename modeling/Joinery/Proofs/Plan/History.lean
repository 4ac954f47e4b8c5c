/-
Compiling does not see how a model came about.

Stores with one model mirror each other (`SameModel.mirrors`), so a request fails
in both with one error, or has plans that are one but for the numbers of the
fields. Such plans explain themselves in the same words and run to the same
outcome (`SameModel.compileRequest_agree`).
-/
import Joinery.Proofs.Plan.Mirror
import Joinery.Proofs.Store.Model

namespace Joinery.Store

namespace SameModel

variable {s t : Store}

theorem fieldNamed?_isSome (h : SameModel s t) (hs : s.Reachable) (ht : t.Reachable) {x y : Source}
    (hxy : SameSource s t x y) {name : String} (hn : t.fieldNamed? y.id name = none) :
    s.fieldNamed? x.id name = none := by
  by_contra hf
  obtain ⟨f, hf⟩ := Option.ne_none_iff_exists'.mp hf
  obtain ⟨howner, hname⟩ := fieldNamed?_owner hf
  obtain ⟨g, hg, hgo, hgn, -⟩ := h.counterpart hs ht hxy (fieldNamed?_mem hf) howner
  have hnot := List.find?_eq_none.mp hn g hg
  simp [hgo, hgn, hname] at hnot

theorem sameFields (h : SameModel s t) (hs : s.Reachable) (ht : t.Reachable) {x y : Source}
    (hxy : SameSource s t x y) : SameFields s t (SameField s t) x.id y.id := by
  have hname : s.sourceName x.id = t.sourceName y.id := by
    simp only [sourceName, hs.coherent.source?_id hxy.left, ht.coherent.source?_id hxy.right, hxy.name]
  refine ⟨hname, fun name => ?_⟩
  cases hf : s.fieldNamed? x.id name with
  | none =>
    rw [h.symm.fieldNamed?_isSome ht hs hxy.symm hf]
    exact .none
  | some f =>
    cases hg : t.fieldNamed? y.id name with
    | none =>
      rw [h.fieldNamed?_isSome hs ht hxy hg] at hf
      cases hf
    | some g =>
      obtain ⟨hfo, hfn⟩ := fieldNamed?_owner hf
      obtain ⟨hgo, hgn⟩ := fieldNamed?_owner hg
      exact .some ⟨hs.coherent.field?_id (fieldNamed?_mem hf), ht.coherent.field?_id (fieldNamed?_mem hg),
        by rw [hfo, hgo, hname], hfn.trans hgn.symm⟩

/-- **Stores with one model mirror each other.** -/
theorem mirrors (h : SameModel s t) (hs : s.Reachable) (ht : t.Reachable) :
    Mirrors s t (SameSource s t) (SameField s t) where
  named := h.sourceNamed?
  name := SameSource.name
  primaryKey hxy := (h.declared hs ht hxy).1
  fields := h.sameFields hs ht
  fieldName := SameField.name
  kind := h.kind hs ht
  owner {f g} hfg := by
    obtain ⟨x, hx, hxid, hxname⟩ := hs.coherent.owner hfg.mem.1
    obtain ⟨y, hy, hyid, hyname⟩ := ht.coherent.owner hfg.mem.2
    rw [← hxid, ← hyid]
    exact h.sameFields hs ht ⟨hx, hy, by rw [← hxname, ← hyname, hfg.owner]⟩
  query hxy := (h.declared hs ht hxy).2
  sourceId hxy hxy' :=
    ⟨fun hid => by
      cases hs.coherent.source_ext hxy.left hxy'.left hid
      rw [hxy.unique ht hxy'],
    fun hid => by
      cases ht.coherent.source_ext hxy.right hxy'.right hid
      rw [hxy.symm.unique hs hxy'.symm]⟩
  fieldId hfg hfg' :=
    ⟨fun hid => by
      cases Option.some.inj (hfg.left.symm.trans (hid ▸ hfg'.left))
      rw [hfg.unique ht hfg'],
    fun hid => by
      cases Option.some.inj (hfg.right.symm.trans (hid ▸ hfg'.right))
      rw [hfg.symm.unique hs hfg'.symm]⟩

/-- **Compiling is independent of history.** -/
theorem compileRequest_agree (h : SameModel s t) (hs : s.Reachable) (ht : t.Reachable)
    (request : Request) :
    Agree (fun p q => Plan.Same (SameId (SameField s t)) p q ∧ p.explain = q.explain ∧
        ∀ tables, Engine.run tables p = Engine.run tables q)
      (s.compileRequest request) (t.compileRequest request) :=
  ((h.mirrors hs ht).compile request.source request.stage).mono fun _ _ hpq =>
    ⟨hpq, hpq.explain, hpq.run⟩

end SameModel

/-- What each region's customers have spent, planned from the shop and from the shop told in another
order: the same plan, with other numbers. -/
theorem compileRequest_agree_shop :
    let request : Request :=
      ⟨"customers", [⟨["region"]⟩], [⟨none, some .sum, some ⟨["orders", "customer", "spending", "total"]⟩⟩]⟩
    shop.Reachable ∧ retold.Reachable ∧ SameModel shop retold ∧
      ∃ p q, shop.compileRequest request = .ok p ∧ retold.compileRequest request = .ok q ∧
        Plan.Same (SameId (SameField shop retold)) p q ∧ p.explain = q.explain ∧
        p.groupBy.map (·.field) = [1] ∧ q.groupBy.map (·.field) = [6] := by
  intro request
  have hp : (shop.compileRequest request).toOption.map (·.groupBy.map (·.field)) = some [1] := by
    decide +kernel
  have hq : (retold.compileRequest request).toOption.map (·.groupBy.map (·.field)) = some [6] := by
    decide +kernel
  have hagree := shop_retold.compileRequest_agree shop_reachable retold_reachable request
  generalize shop.compileRequest request = p, retold.compileRequest request = q at hp hq hagree
  cases hagree with
  | error e => cases hp
  | ok h =>
    exact ⟨shop_reachable, retold_reachable, shop_retold, _, _, rfl, rfl, h.1, h.2.1,
      Option.some.inj hp, Option.some.inj hq⟩

end Joinery.Store
