/-
The plans that are nested in a plan.

A nested plan is compiled while another plan is, and the names on the trail are not free in it. Yet it
is the plan of the query of its source alone (`Coherent.compileQuery_of_derive`), so it does not tell
what it is nested in. Where the rows of a relation come from is settled by its source: the one nested
plan of a source that is derived, and the table of any other (`Reachable.wellNested`).
-/
import Joinery.Proofs.Plan.ReadBack
import Joinery.Proofs.Plan.Readable

namespace Joinery

/-- The rows of a source come from this origin: from the nested plan of the source if it is derived, and
otherwise from its table. -/
def Plan.Feeds (p : Plan) (source : Source) (origin : Base) : Prop :=
  match source.query with
  | none => origin = .table source.name
  | some _ => ∃ position q, origin = .subPlan position ∧ p.subPlans[position]? = some (source.name, q)

/-- If no two nested plans have one source, the rows of a source come from any that is its own. -/
theorem Plan.Feeds.origin_eq {p q : Plan} {source : Source} {origin : Base} (h : p.Feeds source origin)
    (hdistinct : (p.subPlans.map (·.1)).Nodup) (hq : source.query.isSome) {i : Nat}
    (hi : p.subPlans[i]? = some (source.name, q)) : origin = .subPlan i := by
  obtain ⟨query, hquery⟩ := Option.isSome_iff_exists.mp hq
  unfold Feeds at h
  rw [hquery] at h
  obtain ⟨k, q', rfl, hk⟩ := h
  have hnames : (p.subPlans.map (·.1))[i]? = (p.subPlans.map (·.1))[k]? := by
    rw [List.getElem?_map, List.getElem?_map, hi, hk, Option.map_some, Option.map_some]
  have hlt : i < (p.subPlans.map (·.1)).length := by
    rw [List.length_map]
    exact (List.getElem?_eq_some_iff.mp hi).1
  rw [(List.getElem?_inj hlt hdistinct).mp hnames]

namespace Store

variable {s : Store} {derive : Derive} {start : Source} {items : StageItems} {a : Assembly} {p q : Plan}

/-! ## Without a trail -/

theorem Coherent.derive_untrailed (hs : s.Coherent) (trail : List String) (name : String) :
    Kept (s.derive trail name) (s.derive [] name) := fun _ h =>
  hs.derive_eq_ok_iff_within.mpr ⟨_, hs.within_of_derive trail name _ h⟩

/-- **The plan of a derived source is that of its query**, compiled on its own. -/
theorem Coherent.compileQuery_of_derive (hs : s.Coherent) {trail : List String} {name : String}
    (h : s.derive trail name = .ok q) : ∃ source query, s.sourceNamed? name = some source ∧
      source.query = some query ∧ s.compileQuery query = .ok q := by
  obtain ⟨-, source, query, hsource, hquery, hq⟩ := derive_eq_ok_iff.mp h
  have huntrailed := hs.compileQueryOf (hs.derive_untrailed (trail ++ [name])) name query q hq
  exact ⟨source, query, hsource, hquery, compileQueryOf_owner query.source huntrailed⟩

/-! ## Where rows come from -/

theorem Nested.names_nodup (hs : s.Reachable) {subPlans : List (Source × Plan)}
    (h : Nested s derive subPlans) : (subPlans.map (·.1.name)).Nodup := by
  refine List.pairwise_map.mpr ((List.pairwise_map.mp h.distinct).imp_of_mem ?_)
  intro e e' he he' hid hname
  have hnamed := hs.sourceNamed?_of_mem (h.derived e he).1
  have hnamed' := hs.sourceNamed?_of_mem (h.derived e' he').1
  rw [hname] at hnamed
  exact hid (congrArg Source.id (Option.some.inj (hnamed.symm.trans hnamed')))

section

variable (h : LaysOut s derive start items a p)

include h

theorem LaysOut.subPlans_getElem? (i : Nat) :
    p.subPlans[i]? = a.subPlans[i]?.map fun e => (e.1.name, e.2) := by
  rw [h.subPlans, List.getElem?_map]

theorem LaysOut.base_feeds : p.Feeds start p.base := by
  have hbase := h.base
  unfold Rests at hbase
  unfold Plan.Feeds
  cases hquery : start.query with
  | none => rwa [hquery] at hbase
  | some query =>
    rw [hquery] at hbase
    obtain ⟨k, plan, hk, hplan⟩ := hbase
    exact ⟨k, plan, hk, by rw [h.subPlans_getElem?, hplan, Option.map_some]⟩

theorem LaysOut.join_feeds {j : PlannedJoin} (hj : j ∈ p.joins) :
    ∃ target, s.sourceNamed? j.target = some target ∧ p.Feeds target j.origin := by
  rw [h.joins] at hj
  obtain ⟨⟨c, j⟩, hentry, rfl⟩ := List.mem_map.mp hj
  obtain ⟨i, hi⟩ := List.getElem?_of_mem hentry
  obtain ⟨_, _, join, target, -, hplanned⟩ := h.laid.planned i c j hi
  have hnamed : s.sourceNamed? j.target = some target := hplanned.target ▸ hplanned.named
  refine ⟨target, hnamed, ?_⟩
  have hrows := hplanned.rows
  unfold Supplies at hrows
  unfold Plan.Feeds PlannedJoin.origin
  cases hquery : target.query with
  | none =>
    rw [hquery] at hrows
    simp only [hrows, sourceNamed?_name hnamed]
  | some query =>
    rw [hquery] at hrows
    obtain ⟨k, plan, hk, hplan⟩ := hrows
    exact ⟨k, plan, by simp only [hk], by rw [h.subPlans_getElem?, hplan, Option.map_some]⟩

theorem LaysOut.sources_distinct (hs : s.Reachable) : (p.subPlans.map (·.1)).Nodup := by
  rw [h.subPlans, List.map_map]
  exact h.laid.nested.names_nodup hs

/-- No plan is nested for nothing. -/
theorem LaysOut.used (hs : s.Reachable) {i : Nat} (hi : i < p.subPlans.length) :
    .subPlan i ∈ p.origins := by
  obtain ⟨e, he⟩ : ∃ e, a.subPlans[i]? = some e := by
    rw [h.subPlans, List.length_map] at hi
    exact ⟨_, List.getElem?_eq_getElem hi⟩
  have hmem := List.mem_of_getElem? he
  have hposition : p.subPlans[i]? = some (e.1.name, e.2) := by
    rw [h.subPlans_getElem?, he, Option.map_some]
  obtain ⟨-, hquery, -⟩ := h.laid.nested.derived e hmem
  have hdistinct := h.sources_distinct hs
  rcases h.laid.used e hmem with hstart | ⟨j, hj, hnamed⟩
  · have hbase := h.base_feeds
    rw [← hstart] at hbase
    exact List.mem_cons.mpr (.inl (hbase.origin_eq hdistinct hquery hposition).symm)
  · rw [← h.joins] at hj
    obtain ⟨target, htarget, hfeeds⟩ := h.join_feeds hj
    cases hnamed.symm.trans htarget
    rw [← hfeeds.origin_eq hdistinct hquery hposition]
    exact List.mem_cons_of_mem _ (List.mem_map_of_mem hj)

end

/-! ## Nested plans and their sources -/

/-- A plan whose nested plans are those of the sources that it reads. -/
structure WellNested (s : Store) (p : Plan) : Prop where
  /-- A nested plan is that of the query of its source, compiled on its own. It has the output columns
  of the query, which are the first fields of the source. -/
  queries : ∀ name q, (name, q) ∈ p.subPlans → ∃ source query, s.sourceNamed? name = some source ∧
    source.query = some query ∧ s.compileQuery query = .ok q ∧ q.outputColumns = query.outputNames ∧
    query.outputNames <+: (s.fieldsOf source.id).map (·.name)
  /-- No two are of one source. -/
  distinct : (p.subPlans.map (·.1)).Nodup
  /-- The base has the rows of the start. -/
  base : ∃ start, s.sourceNamed? p.source = some start ∧ p.Feeds start p.base
  /-- A join has the rows of its target. -/
  joins : ∀ j ∈ p.joins, ∃ target, s.sourceNamed? j.target = some target ∧ p.Feeds target j.origin
  /-- Each is read by the base or by a join. -/
  used : ∀ i < p.subPlans.length, .subPlan i ∈ p.origins

theorem Compiled.wellNested (hs : s.Reachable) (h : s.Compiled p) : s.WellNested p := by
  obtain ⟨trail, start, items, a, hstart, -, ha⟩ := h.laysOut hs.coherent
  refine ⟨fun name q hq => ?_, ha.sources_distinct hs, ⟨start, ha.source ▸ hstart, ha.base_feeds⟩,
    fun j hj => ha.join_feeds hj, fun i hi => ha.used hs hi⟩
  obtain ⟨trail, hderive⟩ := h.derives hs.coherent hq
  obtain ⟨source, query, hsource, hquery, hplan⟩ := hs.coherent.compileQuery_of_derive hderive
  refine ⟨source, query, hsource, hquery, hplan, (compileQueryOf_columns hs.coherent hplan).1, ?_⟩
  have hfields := ((hs.furnished source (sourceNamed?_mem hsource)).outputs query hquery).map (·.name)
  simpa [Function.comp_def, Field.toDef] using hfields

/-- **Nested plans do not depend on what they are nested in.** In the plan of a request and in every
plan nested in it, at whatever depth: a nested plan is what the query of its source compiles to on its
own, with the output columns that the source has as its first fields; no source has two; the base and
each join read a nested plan exactly if their source is derived, and then that of the source; and every
nested plan is read. -/
theorem Reachable.sub_plans_wellNested (hs : s.Reachable) {request : Request} {plan : Plan}
    (h : s.compileRequest request = .ok plan) (hq : plan.Holds q) : s.WellNested q :=
  ((compiled_of_request h).holds hs.coherent hq).wellNested hs

/-- The shop, where the customers are counted by what they have spent: a source that is derived from one
that is derived. -/
def tiered : Store :=
  shop.attempt (.defineQuerySource "tiers"
    ⟨"spending", [⟨[⟨["total"]⟩], [⟨some "customers", some .count, none⟩]⟩]⟩ (some "total"))

/-- The plan of the spending is nested in that of the tiers, which is nested in that of the request. -/
theorem sub_plans_wellNested_tiered :
    tiered.Reachable ∧ ∃ plan tiers spending,
      tiered.compileRequest ⟨"tiers", [⟨["customers"]⟩], []⟩ = .ok plan ∧
      plan.subPlans = [("tiers", tiers)] ∧ tiers.subPlans = [("spending", spending)] ∧
      tiered.WellNested plan ∧ tiered.WellNested tiers ∧ tiered.WellNested spending := by
  have hreachable : tiered.Reachable := shop_reachable.attempt _
  have hcomputed : (tiered.compileRequest ⟨"tiers", [⟨["customers"]⟩], []⟩).map (fun plan =>
      plan.subPlans.map fun e => (e.1, e.2.subPlans.map (·.1))) = .ok [("tiers", ["spending"])] := by
    decide +kernel
  obtain ⟨plan, hplan, hnested⟩ := map_eq_ok_iff.mp hcomputed
  obtain ⟨⟨_, tiers⟩, hsub, htiers⟩ := List.map_eq_singleton_iff.mp hnested
  obtain ⟨rfl, hnested⟩ := Prod.mk.inj htiers
  obtain ⟨⟨_, spending⟩, hsub', rfl⟩ := List.map_eq_singleton_iff.mp hnested
  have hholds : plan.Holds tiers := .nested (hsub ▸ List.mem_singleton_self _) .self
  have hholds' : plan.Holds spending :=
    .nested (hsub ▸ List.mem_singleton_self _) (.nested (hsub' ▸ List.mem_singleton_self _) .self)
  exact ⟨hreachable, plan, tiers, spending, hplan, hsub, hsub', hreachable.sub_plans_wellNested hplan .self,
    hreachable.sub_plans_wellNested hplan hholds, hreachable.sub_plans_wellNested hplan hholds'⟩

end Store

end Joinery
