/-
Deriving ends, and reports of cycles are true.

A trail only ever grows by the name of a derived source that is not on it, so the
derived sources off the trail bound how deep a derivation can go
(`deriveUpTo_eq`), and how deep plans are nested (`depth_lt_of_derive`). What a
derived source requires is derived with its name on the trail. If it has a plan,
so has all that it requires, at any remove, beside that trail: it does not
require itself (`not_transGen_of_derive`). If a cycle stops it, the names of the
trail have led there one after another (`derive_cycle`).
-/
import Joinery.Proofs.Plan.Nesting
import Joinery.Proofs.Plan.Readable
import Joinery.Proofs.Plan.Requires
import Mathlib.Data.List.Chain
import Mathlib.Logic.Relation

namespace Joinery

namespace Store

variable {s : Store}

/-! ## Deriving ends -/

/-- How many derived sources are not on the trail. -/
def derivedRoom (s : Store) (trail : List String) : Nat :=
  s.sources.countP fun source => source.query.isSome && !trail.contains source.name

/-- How many derived sources there are. -/
def derivedCount (s : Store) : Nat := s.sources.countP (·.query.isSome)

theorem derivedRoom_nil (s : Store) : s.derivedRoom [] = s.derivedCount := by
  simp [derivedRoom, derivedCount]

theorem derivedRoom_lt {trail : List String} {name : String} {source : Source} {query : Query}
    (hs : s.sourceNamed? name = some source) (hq : source.query = some query) (ht : name ∉ trail) :
    s.derivedRoom (trail ++ [name]) < s.derivedRoom trail := by
  have hname : source.name = name := sourceNamed?_name hs
  refine countP_lt_of_mem ?_ (sourceNamed?_mem hs) ?_ ?_ <;> simp_all

/-- Deriving at most so many sources one inside another; where one more would be needed, the outcome
is whatever `spent` makes it. -/
def deriveUpTo (s : Store) (spent : List String → Derive) : Nat → List String → Derive
  | 0, trail, name => spent trail name
  | depth + 1, trail, name =>
    if trail.contains name then .error (.cyclicDerivation (trail ++ [name]))
    else match s.sourceNamed? name with
      | none => .error (.internal (.notDerived name))
      | some source =>
        match source.query with
        | none => .error (.internal (.notDerived name))
        | some query =>
          (s.compileQueryOf (s.deriveUpTo spent depth (trail ++ [name])) name query).mapError
            (.within name)

/-- No outcome is left to chance beside a trail that leaves less room. -/
theorem deriveUpTo_eq (spent : List String → Derive) : ∀ {depth : Nat} {trail : List String},
    s.derivedRoom trail < depth → s.deriveUpTo spent depth trail = s.derive trail
  | depth + 1, trail, h => by
    funext name
    rw [deriveUpTo, derive_eq]
    by_cases ht : trail.contains name
    · rw [if_pos ht, if_pos ht]
    rw [if_neg ht, if_neg ht]
    cases hs : s.sourceNamed? name with
    | none => rfl
    | some source =>
      cases hq : source.query with
      | none => simp only [hq]
      | some query =>
        have hroom : s.derivedRoom (trail ++ [name]) < depth := by
          have := derivedRoom_lt hs hq (by simpa using ht)
          omega
        simp only [hq, deriveUpTo_eq spent hroom]

/-- The plan of a request, with at most so many sources derived one inside another. -/
def compileRequestUpTo (s : Store) (spent : List String → Derive) (depth : Nat) (request : Request) :
    Except CompileError Plan :=
  match s.sourceNamed? request.source with
  | none => .error (.unknownSource request.source)
  | some source => s.compileStage (s.deriveUpTo spent depth []) source request.stage

theorem compileRequestUpTo_eq (spent : List String → Derive) {depth : Nat} (h : s.derivedCount < depth)
    (request : Request) : s.compileRequestUpTo spent depth request = s.compileRequest request := by
  rw [compileRequestUpTo, deriveUpTo_eq spent (by rwa [derivedRoom_nil])]
  rfl

theorem depth_le_of_compileStage (hs : s.Coherent) {derive : Derive} {start : Source}
    (hstart : start ∈ s.sources) {stage : Stage} {plan : Plan} {bound : Nat}
    (h : s.compileStage derive start stage = .ok plan)
    (hd : ∀ name p, derive name = .ok p → p.depth < bound) : plan.depth ≤ bound := by
  obtain ⟨items, -, a, ha⟩ := (compileStage_agree hs hstart stage).right h
  rw [Plan.depth_le_iff, ha.subPlans]
  intro e he
  obtain ⟨⟨source, p⟩, hmem, rfl⟩ := List.mem_map.mp he
  exact hd source.name p (ha.laid.nested.derived _ hmem).2.2

/-- Plans are nested less deep than there are derived sources off the trail. -/
theorem depth_lt_of_derive (hs : s.Coherent) (trail : List String) (name : String) (plan : Plan)
    (h : s.derive trail name = .ok plan) : plan.depth < s.derivedRoom trail := by
  obtain ⟨htrail, source, query, hsource, hq, hc⟩ := derive_eq_ok_iff.mp h
  have hroom := derivedRoom_lt hsource hq htrail
  obtain ⟨stage, start, -, hstart, hplan⟩ := compileQueryOf_eq_ok hc
  have hdepth : plan.depth ≤ s.derivedRoom (trail ++ [name]) :=
    depth_le_of_compileStage hs (sourceNamed?_mem hstart) hplan fun m p hp =>
      depth_lt_of_derive hs (trail ++ [name]) m p hp
  omega
termination_by s.derivedRoom trail

/-! ## What compiles requires no cycle -/

/-- A derived source that has a plan is off the trail, and all that it requires has a plan with it on
the trail. -/
theorem derive_requires (hs : s.Coherent) {trail : List String} {name : String} {plan : Plan}
    (h : s.derive trail name = .ok plan) :
    name ∉ trail ∧ ∀ other, s.Requires name other → ∃ p, s.derive (trail ++ [name]) other = .ok p := by
  obtain ⟨htrail, source, query, hsource, hq, hc⟩ := derive_eq_ok_iff.mp h
  refine ⟨htrail, ?_⟩
  rintro other ⟨source', query', target, hsource', hq', hreads, rfl, htarget⟩
  cases hsource.symm.trans hsource'
  cases hq.symm.trans hq'
  exact compileQueryOf_reads hs hc hreads htarget

/-- All that a derived source with a plan requires, at any remove, is neither on the trail nor the
source itself. -/
theorem not_mem_of_transGen (hs : s.Coherent) {name other : String}
    (h : Relation.TransGen s.Requires name other) {trail : List String} {plan : Plan}
    (hp : s.derive trail name = .ok plan) : other ∉ trail ++ [name] := by
  induction h using Relation.TransGen.head_induction_on generalizing trail plan with
  | single hr =>
    obtain ⟨p, hp⟩ := (derive_requires hs hp).2 _ hr
    exact (derive_requires hs hp).1
  | head hr _ ih =>
    obtain ⟨p, hp⟩ := (derive_requires hs hp).2 _ hr
    exact fun hm => ih hp (List.mem_append_left _ hm)

theorem not_transGen_of_derive (hs : s.Coherent) {trail : List String} {name : String} {plan : Plan}
    (h : s.derive trail name = .ok plan) : ¬ Relation.TransGen s.Requires name name := fun hr =>
  not_mem_of_transGen hs hr h (List.mem_append_right _ (List.mem_singleton_self name))

/-! ## What a report of a cycle says -/

/-- A chain of derived sources that closes: each requires the next, all but the last are distinct,
and the last is one of them again. -/
structure IsCycle (s : Store) (chain : List String) : Prop where
  derived : ∀ name ∈ chain, s.IsDerived name
  requires : chain.IsChain s.Requires
  closes : ∃ init last, chain = init ++ [last] ∧ init.Nodup ∧ init.count last = 1

/-- A trail that has led to a name: distinct derived sources, each requiring the next, and the last of
them the name. -/
structure LedTo (s : Store) (trail : List String) (name : String) : Prop where
  distinct : trail.Nodup
  derived : ∀ m ∈ trail ++ [name], s.IsDerived m
  requires : (trail ++ [name]).IsChain s.Requires

theorem LedTo.nil {name : String} (h : s.IsDerived name) : s.LedTo [] name :=
  ⟨List.nodup_nil, by simpa using h, List.isChain_singleton name⟩

theorem LedTo.step {trail : List String} {name other : String} (h : s.LedTo trail name)
    (hnew : name ∉ trail) (hr : s.Requires name other) : s.LedTo (trail ++ [name]) other := by
  refine ⟨?_, fun m hm => ?_, ?_⟩
  · exact List.nodup_append.mpr ⟨h.distinct, List.nodup_singleton name, by
      rintro m hm _ hn rfl
      exact hnew (List.mem_singleton.mp hn ▸ hm)⟩
  · rcases List.mem_append.mp hm with hm | hm
    · exact h.derived m hm
    · rw [List.mem_singleton.mp hm]
      exact hr.derived.2
  · refine List.isChain_append.mpr ⟨h.requires, List.isChain_singleton other, fun m hm n hn => ?_⟩
    rw [List.getLast?_concat] at hm
    cases hm
    cases hn
    exact hr

theorem LedTo.isCycle {trail : List String} {name : String} (h : s.LedTo trail name)
    (hmem : name ∈ trail) : s.IsCycle (trail ++ [name]) :=
  ⟨h.derived, h.requires, trail, name, rfl, h.distinct, List.count_eq_one_of_mem h.distinct hmem⟩

theorem derive_cycle (hs : s.Coherent) (trail : List String) (name : String) (h : s.LedTo trail name)
    {e : CompileError} (he : s.derive trail name = .error e) {chain : List String}
    (hc : e.root = .cyclicDerivation chain) : s.IsCycle chain := by
  rw [derive_eq] at he
  split at he
  · next ht =>
    cases he
    cases hc
    exact h.isCycle (by simpa using ht)
  next ht =>
  split at he
  · cases he
    cases hc
  next source hsource =>
  split at he
  · cases he
    cases hc
  next query hq =>
  have hnew : name ∉ trail := by simpa using ht
  cases hcompile : s.compileQueryOf (s.derive (trail ++ [name])) name query with
  | ok plan =>
    rw [hcompile] at he
    cases he
  | error inner =>
    rw [hcompile] at he
    cases he
    rw [CompileError.root_within] at hc
    obtain ⟨target, e, hreads, hderived, he, hroot⟩ := compileQueryOf_cycle hs name query inner hcompile chain hc
    have hr : s.Requires name target.name := ⟨source, query, target, hsource, hq, hreads, rfl, hderived⟩
    have := derivedRoom_lt hsource hq hnew
    exact derive_cycle hs (trail ++ [name]) target.name (h.step hnew hr) he hroot
termination_by s.derivedRoom trail

/-! ## Requests -/

theorem compileRequest_depth (hs : s.Coherent) {request : Request} {plan : Plan}
    (h : s.compileRequest request = .ok plan) : plan.depth ≤ s.derivedCount := by
  obtain ⟨start, hstart, hplan⟩ := compileRequest_eq_ok h
  refine depth_le_of_compileStage hs (sourceNamed?_mem hstart) hplan fun name p hp => ?_
  rw [← derivedRoom_nil]
  exact depth_lt_of_derive hs [] name p hp

theorem compileRequest_cycle (hs : s.Coherent) {request : Request} {e : CompileError}
    (h : s.compileRequest request = .error e) {chain : List String}
    (hc : e.root = .cyclicDerivation chain) : s.IsCycle chain := by
  unfold compileRequest compile at h
  split at h
  · cases h
    cases hc
  next start hstart =>
  obtain ⟨source, e, hreads, hderived, he, hroot⟩ :=
    compileStage_cycle hs (sourceNamed?_mem hstart) request.stage e h chain hc
  have hnamed : s.sourceNamed? source.name = some source := hreads.named (sourceNamed?_self hstart)
  exact derive_cycle hs [] source.name (.nil ⟨source, hnamed, hderived⟩) he hroot

/-- **Deriving ends, and a report of a cycle is true.** However sources are derived from each other,
compiling a request derives no more of them one inside another than there are, and one more that it
refuses or has no plan for. Plans are nested no deeper than that, and no nested plan is that of a
source which requires itself. If a cycle stops the request, the chain that is reported is one. -/
theorem Reachable.derivation_ends (hs : s.Reachable) (request : Request) :
    (∀ spent, s.compileRequestUpTo spent (s.derivedCount + 1) request = s.compileRequest request) ∧
      (∀ plan, s.compileRequest request = .ok plan → plan.depth ≤ s.derivedCount ∧
        ∀ q, plan.Holds q → ∀ name nested, (name, nested) ∈ q.subPlans →
          ¬ Relation.TransGen s.Requires name name) ∧
      ∀ e chain, s.compileRequest request = .error e → e.root = .cyclicDerivation chain →
        s.IsCycle chain := by
  refine ⟨fun spent => compileRequestUpTo_eq spent (Nat.lt_succ_self _) request, fun plan h => ?_,
    fun e chain h hc => compileRequest_cycle hs.coherent h hc⟩
  refine ⟨compileRequest_depth hs.coherent h, fun q hq name nested hmem => ?_⟩
  obtain ⟨trail, hderive⟩ := ((compiled_of_request h).holds hs.coherent hq).derives hs.coherent hmem
  exact not_transGen_of_derive hs.coherent hderive

/-- Orders whose totals are taken from a summary of the orders that goes through the totals, and a
list of the orders that does not. -/
def circular : Store :=
  [.defineSource "orders" [⟨"id", .scalar⟩,
      ⟨"totals", .join ⟨"totals", .one, .equal ⟨["id"]⟩ ⟨["totals", "id"]⟩⟩⟩] (some "id"),
    .defineQuerySource "totals" ⟨"summary", [⟨[⟨["id"]⟩], []⟩]⟩ none,
    .defineQuerySource "summary" ⟨"orders", [⟨[⟨["totals", "id"]⟩], []⟩]⟩ none,
    .defineQuerySource "listing" ⟨"orders", [⟨[⟨["id"]⟩], []⟩]⟩ none].foldl attempt .empty

/-- The totals require the summary and the summary the totals, so that neither has a plan; the list
has one. -/
theorem derivation_ends_circular :
    circular.Reachable ∧ circular.derivedCount = 3 ∧
      (∃ e, circular.compileRequest ⟨"totals", [⟨["id"]⟩], []⟩ = .error e ∧
        circular.IsCycle ["totals", "summary", "totals"]) ∧
      ∃ plan nested, circular.compileRequest ⟨"listing", [⟨["id"]⟩], []⟩ = .ok plan ∧
        plan.subPlans = [("listing", nested)] ∧ plan.depth ≤ 3 ∧
        ¬ Relation.TransGen circular.Requires "listing" "listing" := by
  have hreachable : circular.Reachable := Reachable.empty.attempts _
  have hcount : circular.derivedCount = 3 := by decide +kernel
  refine ⟨hreachable, hcount, ?_, ?_⟩
  · have hcomputed : verdict (circular.compileRequest ⟨"totals", [⟨["id"]⟩], []⟩) =
        .error (.cyclicDerivation ["totals", "summary", "totals"]) := by decide +kernel
    have hc := verdict_eq_error_iff.mp hcomputed
    exact ⟨_, hc, (hreachable.derivation_ends _).2.2 _ _ hc rfl⟩
  · have hcomputed : (circular.compileRequest ⟨"listing", [⟨["id"]⟩], []⟩).toOption.map
        (·.subPlans.map (·.1)) = some ["listing"] := by decide +kernel
    cases hc : circular.compileRequest ⟨"listing", [⟨["id"]⟩], []⟩ with
    | error e =>
      rw [hc] at hcomputed
      cases hcomputed
    | ok plan =>
      rw [hc] at hcomputed
      obtain ⟨⟨name, nested⟩, hsub, rfl⟩ := List.map_eq_singleton_iff.mp (Option.some.inj hcomputed)
      obtain ⟨hdepth, hacyclic⟩ := (hreachable.derivation_ends _).2.1 plan hc
      exact ⟨plan, nested, rfl, hsub, hcount ▸ hdepth,
        hacyclic plan .self _ nested (hsub ▸ List.mem_singleton_self _)⟩

end Store

end Joinery
