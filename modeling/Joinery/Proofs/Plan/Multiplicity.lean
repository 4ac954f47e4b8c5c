/-
How many plans a plan is made of.

A plan nests one plan for each derived source that it reads, but only its own: where two of its nested
plans read one source, each of them has the plan of it, the same one (`Memoised`). So there may be more
plans than there are sources (`derived_twice`). No source stands within its own plan, though, and one
source more at most doubles the plans (`Memoised.planCount_le`).
-/
import Joinery.Proofs.Plan.Cycle
import Joinery.Proofs.Plan.SubPlans
import Mathlib.Algebra.BigOperators.Group.Finset.Basic
import Mathlib.Algebra.Order.BigOperators.Group.Finset
import Mathlib.Data.Finset.Max

namespace Joinery

namespace Plan

/-! ## The sources of nested plans -/

mutual
/-- The sources of the plans that are nested at any depth, each as often as a plan of it is. -/
def nestedSources : Plan → List String
  | ⟨_, _, _, _, _, subPlans⟩ => sourcesBelow subPlans

/-- The sources of nested plans and of the plans in them. -/
def sourcesBelow : List (String × Plan) → List String
  | [] => []
  | (name, p) :: ps => name :: nestedSources p ++ sourcesBelow ps
end

theorem sourcesBelow_eq : ∀ ps : List (String × Plan),
    sourcesBelow ps = ps.flatMap fun e => e.1 :: e.2.nestedSources
  | [] => rfl
  | (name, p) :: ps => by rw [sourcesBelow, sourcesBelow_eq ps, List.flatMap_cons]

theorem nestedSources_eq (p : Plan) :
    p.nestedSources = p.subPlans.flatMap fun e => e.1 :: e.2.nestedSources := by
  cases p
  exact sourcesBelow_eq _

theorem planCounts_eq : ∀ ps : List (String × Plan), planCounts ps = (ps.map (·.2.planCount)).sum
  | [] => rfl
  | (_, p) :: ps => by rw [planCounts, planCounts_eq ps, List.map_cons, List.sum_cons]

theorem planCount_eq (p : Plan) : p.planCount = 1 + (p.subPlans.map (·.2.planCount)).sum := by
  cases p
  rw [planCount, planCounts_eq]

theorem planCount_eq_length (p : Plan) : p.planCount = 1 + p.nestedSources.length := by
  induction p using nested_induction with
  | h p ih =>
    have hcounts : p.subPlans.map (·.2.planCount) =
        p.subPlans.map fun e => (e.1 :: e.2.nestedSources).length := by
      refine List.map_congr_left fun e he => ?_
      rw [ih e he, List.length_cons, Nat.add_comm]
    rw [planCount_eq, hcounts, nestedSources_eq, List.length_flatMap]

theorem mem_nestedSources {p : Plan} {name : String} :
    name ∈ p.nestedSources ↔ ∃ q r, p.Holds q ∧ (name, r) ∈ q.subPlans := by
  induction p using nested_induction with
  | h p ih =>
    rw [nestedSources_eq, List.mem_flatMap]
    constructor
    · intro h
      obtain ⟨e, he, hname⟩ := h
      rcases List.mem_cons.mp hname with rfl | hname
      · exact ⟨p, e.2, .self, he⟩
      · obtain ⟨q, r, hq, hr⟩ := (ih e he).mp hname
        exact ⟨q, r, .nested he hq, hr⟩
    · intro h
      obtain ⟨q, r, hq, hr⟩ := h
      cases hq with
      | self => exact ⟨(name, r), hr, List.mem_cons_self⟩
      | nested hmem hq => exact ⟨_, hmem, List.mem_cons_of_mem _ ((ih _ hmem).mpr ⟨q, r, hq, hr⟩)⟩

theorem depth_lt_of_mem {p q : Plan} {name : String} (h : (name, q) ∈ p.subPlans) : q.depth < p.depth :=
  depth_le_iff.mp (Nat.le_refl _) _ h

theorem Holds.depth_le {p q : Plan} (h : p.Holds q) : q.depth ≤ p.depth := by
  induction h with
  | self => exact Nat.le_refl _
  | nested hmem _ ih =>
    have hlt := depth_lt_of_mem hmem
    omega

theorem Holds.trans {p q r : Plan} (h : p.Holds q) (hr : q.Holds r) : p.Holds r := by
  induction h with
  | self => exact hr
  | nested hmem _ ih => exact .nested hmem (ih hr)

/-! ## One plan for a source -/

/-- A plan in which, and in each nested plan of which, every source has one nested plan, and the same
one everywhere. -/
structure Memoised (p : Plan) : Prop where
  distinct : ∀ q, p.Holds q → (q.subPlans.map (·.1)).Nodup
  same : ∀ q q', p.Holds q → p.Holds q' → ∀ name r r', (name, r) ∈ q.subPlans →
    (name, r') ∈ q'.subPlans → r = r'

namespace Memoised

variable {p q r : Plan} {name : String}

theorem nested (h : p.Memoised) (hq : p.Holds q) : q.Memoised :=
  ⟨fun r hr => h.distinct r (hq.trans hr),
    fun r r' hr hr' => h.same r r' (hq.trans hr) (hq.trans hr')⟩

/-- The plan of a source that stands within another plan is nested less deep. -/
theorem depth_lt (h : p.Memoised) {q' r' : Plan} (hq : p.Holds q) (hr : (name, r) ∈ q.subPlans)
    (hq' : p.Holds q') {other : String} (hr' : (other, r') ∈ q'.subPlans) (hmem : name ∈ r'.nestedSources) :
    r.depth < r'.depth := by
  obtain ⟨inner, r₂, hinner, hr₂⟩ := mem_nestedSources.mp hmem
  have hholds : p.Holds inner := hq'.trans (.nested hr' hinner)
  rw [h.same q inner hq hholds name r r₂ hr hr₂]
  have hlt := depth_lt_of_mem hr₂
  have hle := hinner.depth_le
  omega

/-- No source stands within its own plan. -/
theorem not_mem_nestedSources (h : p.Memoised) (hq : p.Holds q) (hr : (name, r) ∈ q.subPlans) :
    name ∉ r.nestedSources := by
  intro hmem
  exact Nat.lt_irrefl _ (h.depth_lt hq hr hq hr hmem)

end Memoised

/-! ## The bound -/

/-- Take out of some named things with sets below them the one of the greatest rank: its name stands in
no set, so the sets of the others and its own are counted in the names without it. -/
theorem sum_two_pow_le {ι : Type} [DecidableEq ι] (name : ι → String) (below : ι → Finset String)
    (rank : ι → Nat) (D : Finset ι) (hname : Set.InjOn name D)
    (hrank : ∀ x ∈ D, ∀ y ∈ D, name y ∈ below x → rank y < rank x) :
    1 + D.sum (fun x => 2 ^ (below x).card) ≤ 2 ^ (D.image name ∪ D.biUnion below).card := by
  induction D using Finset.induction_on_max_value rank with
  | empty => simp
  | insert a D ha hmax ih =>
    have hD : ∀ x ∈ D, x ∈ insert a D := fun x hx => Finset.mem_insert_of_mem hx
    have haD : a ∈ insert a D := Finset.mem_insert_self a D
    have ih := ih (hname.mono fun x hx => hD x hx) fun x hx y hy => hrank x (hD x hx) y (hD y hy)
    have hnew : name a ∉ D.image name ∪ D.biUnion below ∪ below a := by
      simp only [Finset.mem_union, Finset.mem_image, Finset.mem_biUnion, not_or, not_exists, not_and]
      refine ⟨⟨fun x hx he => ?_, fun x hx hmem => ?_⟩, fun hmem => ?_⟩
      · exact ha (hname (hD x hx) haD he ▸ hx)
      · have hlt := hrank x (hD x hx) a haD hmem
        have hle := hmax x hx
        omega
      · exact Nat.lt_irrefl _ (hrank a haD a haD hmem)
    have hunion : (insert a D).image name ∪ (insert a D).biUnion below =
        insert (name a) (D.image name ∪ D.biUnion below ∪ below a) := by
      rw [Finset.image_insert, Finset.biUnion_insert]
      ext x
      simp only [Finset.mem_union, Finset.mem_insert]
      tauto
    have hothers : 2 ^ (D.image name ∪ D.biUnion below).card ≤
        2 ^ (D.image name ∪ D.biUnion below ∪ below a).card :=
      Nat.pow_le_pow_right (by omega) (Finset.card_le_card Finset.subset_union_left)
    have hown : 2 ^ (below a).card ≤ 2 ^ (D.image name ∪ D.biUnion below ∪ below a).card :=
      Nat.pow_le_pow_right (by omega) (Finset.card_le_card Finset.subset_union_right)
    rw [hunion, Finset.card_insert_of_notMem hnew, Nat.pow_succ, Finset.sum_insert ha]
    omega

/-- **One source more at most doubles the plans.** -/
theorem Memoised.planCount_le {p : Plan} (h : p.Memoised) :
    p.planCount ≤ 2 ^ p.nestedSources.toFinset.card := by
  classical
  induction p using nested_induction with
  | h p ih =>
    have hnodup := h.distinct p .self
    have hcounts : (p.subPlans.map (·.2.planCount)).sum ≤
        p.subPlans.toFinset.sum fun e => 2 ^ e.2.nestedSources.toFinset.card := by
      rw [← List.sum_toFinset _ (List.Nodup.of_map _ hnodup)]
      refine Finset.sum_le_sum fun e he => ?_
      have hmem := List.mem_toFinset.mp he
      exact ih e hmem (h.nested (.nested hmem .self))
    have hbound := sum_two_pow_le (·.1) (fun e : String × Plan => e.2.nestedSources.toFinset)
      (·.2.depth) p.subPlans.toFinset
      (fun x hx y hy he => List.inj_on_of_nodup_map hnodup (List.mem_toFinset.mp hx)
        (List.mem_toFinset.mp hy) he)
      fun x hx y hy hmem => h.depth_lt .self (List.mem_toFinset.mp hy) .self (List.mem_toFinset.mp hx)
        (List.mem_toFinset.mp hmem)
    have hall : p.subPlans.toFinset.image (·.1) ∪
        p.subPlans.toFinset.biUnion (fun e => e.2.nestedSources.toFinset) = p.nestedSources.toFinset := by
      ext name
      rw [nestedSources_eq]
      simp only [Finset.mem_union, Finset.mem_image, Finset.mem_biUnion, List.mem_toFinset,
        List.mem_flatMap, List.mem_cons]
      constructor
      · rintro (⟨e, he, rfl⟩ | ⟨e, he, hname⟩)
        · exact ⟨e, he, .inl rfl⟩
        · exact ⟨e, he, .inr hname⟩
      · intro hname
        obtain ⟨e, he, rfl | hname⟩ := hname
        · exact .inl ⟨e, he, rfl⟩
        · exact .inr ⟨e, he, hname⟩
    rw [hall] at hbound
    rw [planCount_eq]
    omega

end Plan

namespace Store

variable {s : Store} {p : Plan}

/-! ## Compiled plans -/

/-- The plan of a source is the same wherever it is nested. -/
theorem Compiled.memoised (hs : s.Reachable) (h : s.Compiled p) : p.Memoised := by
  refine ⟨fun q hq => ((h.holds hs.coherent hq).wellNested hs).distinct, ?_⟩
  intro q q' hq hq' name r r' hr hr'
  obtain ⟨trail, hderive⟩ := (h.holds hs.coherent hq).derives hs.coherent hr
  obtain ⟨trail', hderive'⟩ := (h.holds hs.coherent hq').derives hs.coherent hr'
  have hplain := hs.coherent.derive_untrailed trail name r hderive
  have hplain' := hs.coherent.derive_untrailed trail' name r' hderive'
  exact Except.ok.inj (hplain.symm.trans hplain')

theorem Compiled.nestedSources_card (hs : s.Reachable) (h : s.Compiled p) :
    p.nestedSources.toFinset.card ≤ s.derivedCount := by
  have hsub : p.nestedSources.toFinset ⊆
      ((s.sources.filter (·.query.isSome)).map (·.name)).toFinset := by
    intro name hname
    obtain ⟨q, r, hq, hr⟩ := Plan.mem_nestedSources.mp (List.mem_toFinset.mp hname)
    obtain ⟨source, query, hsource, hquery, -⟩ :=
      ((h.holds hs.coherent hq).wellNested hs).queries name r hr
    refine List.mem_toFinset.mpr (List.mem_map.mpr ⟨source, ?_, sourceNamed?_name hsource⟩)
    exact List.mem_filter.mpr ⟨sourceNamed?_mem hsource, by simp [hquery]⟩
  have hcard := (Finset.card_le_card hsub).trans (List.toFinset_card_le _)
  rwa [List.length_map, ← List.countP_eq_length_filter] at hcard

/-- **A plan has the plan of a derived source once.** In the plan of a request and in every plan nested
in it, at whatever depth, no source has two nested plans; the plans of one source are one plan wherever
they are nested, and none of them is nested in itself. The plans are no more than two to the number of
derived sources. -/
theorem Reachable.plans_memoised (hs : s.Reachable) {request : Request} {plan : Plan}
    (h : s.compileRequest request = .ok plan) : plan.Memoised ∧
      (∀ q name nested, plan.Holds q → (name, nested) ∈ q.subPlans → name ∉ nested.nestedSources) ∧
      plan.planCount ≤ 2 ^ s.derivedCount := by
  have hcompiled := compiled_of_request h
  have hmemoised := hcompiled.memoised hs
  refine ⟨hmemoised, fun q name nested hq hmem => hmemoised.not_mem_nestedSources hq hmem, ?_⟩
  exact hmemoised.planCount_le.trans (Nat.pow_le_pow_right (by omega) (hcompiled.nestedSources_card hs))

/-- The shop with its tiers, where what a customer has spent leads to the tier of it. -/
def graded : Store :=
  tiered.attempt (.addJoinField "spending" "tier" "tiers" .one (.equal ⟨["total"]⟩ ⟨["tier", "total"]⟩))

/-- The spending is read by the request and by the tiers, and both have a plan of it: with two derived
sources there are four plans. -/
theorem plans_memoised_graded :
    graded.Reachable ∧ graded.derivedCount = 2 ∧ ∃ plan,
      graded.compileRequest ⟨"spending", [⟨["tier", "customers"]⟩], []⟩ = .ok plan ∧
      plan.Memoised ∧ plan.planCount = 4 ∧ plan.planCount ≤ 2 ^ 2 := by
  have hreachable : graded.Reachable := (shop_reachable.attempt _).attempt _
  have hcount : graded.derivedCount = 2 := by decide +kernel
  have hcomputed : (graded.compileRequest ⟨"spending", [⟨["tier", "customers"]⟩], []⟩).map
      (·.planCount) = .ok 4 := by decide +kernel
  obtain ⟨plan, hplan, hplans⟩ := map_eq_ok_iff.mp hcomputed
  obtain ⟨hmemoised, -, hbound⟩ := hreachable.plans_memoised hplan
  exact ⟨hreachable, hcount, plan, hplan, hmemoised, hplans, hcount ▸ hbound⟩

/-- A source may have two plans in the plan of a request: there are more plans than derived sources and
the request together. -/
theorem derived_twice :
    graded.Reachable ∧ ∃ plan,
      graded.compileRequest ⟨"spending", [⟨["tier", "customers"]⟩], []⟩ = .ok plan ∧
      plan.nestedSources = ["spending", "tiers", "spending"] ∧ ¬ plan.nestedSources.Nodup ∧
      ¬ plan.planCount ≤ 1 + graded.derivedCount := by
  have hcount : graded.derivedCount = 2 := by decide +kernel
  have hcomputed : (graded.compileRequest ⟨"spending", [⟨["tier", "customers"]⟩], []⟩).map
      (·.nestedSources) = .ok ["spending", "tiers", "spending"] := by decide +kernel
  obtain ⟨plan, hplan, hnested⟩ := map_eq_ok_iff.mp hcomputed
  refine ⟨(shop_reachable.attempt _).attempt _, plan, hplan, hnested, ?_, ?_⟩
  · rw [hnested]
    decide
  · rw [plan.planCount_eq_length, hnested, hcount]
    decide

end Store

end Joinery
