/-
Compiling in two stores that mirror each other.

The stores number their sources and fields in different ways, and a plan is put
together by numbers: a join is known by the numbers of its chain, a nested plan
by the number of its source. Since the numbers of one store tell apart what those
of the other do, both look-ups come to the same positions, and a step that keeps
the assemblies related gives plans that are (`Mirrors.compileStage`). The plan of
a derived source follows by induction on the trail (`Mirrors.derive`), and with
it the plan of a request.
-/
import Joinery.Proofs.Plan.Growth
import Joinery.Proofs.Plan.Paired
import Joinery.Proofs.Plan.Same

namespace Joinery.Store

/-- Paired stores whose sources have the same queries, and whose numbers tell sources and fields
apart in the same way. -/
structure Mirrors (s t : Store) (S : Source → Source → Prop) (F : Field → Field → Prop) : Prop
    extends Paired s t S F where
  query : ∀ {x y}, S x y → x.query = y.query
  sourceId : ∀ {x x' y y'}, S x y → S x' y' → (x.id = x'.id ↔ y.id = y'.id)
  fieldId : ∀ {f f' g g'}, F f g → F f' g' → (f.id = f'.id ↔ g.id = g'.id)

/-- Plans that are one but for the numbers of their fields, which are paired. -/
abbrev SamePlan (F : Field → Field → Prop) : Plan → Plan → Prop := Plan.Same (SameId F)

/-- A join of the same chain, planned in the same way. -/
structure SameEntry (F : Field → Field → Prop) (e e' : Chain × PlannedJoin) : Prop where
  chain : List.Forall₂ (SameId F) e.1 e'.1
  join : e.2.Same (SameId F) e'.2

/-- Join sets whose entries correspond, one by one. -/
structure SameJoinSet (F : Field → Field → Prop) (js ks : JoinSet) : Prop where
  entries : List.Forall₂ (SameEntry F) js.entries ks.entries

/-- Assemblies whose joins and nested plans correspond, one by one. -/
structure SameAssembly (S : Source → Source → Prop) (F : Field → Field → Prop) (a b : Assembly) :
    Prop where
  joins : SameJoinSet F a.joins b.joins
  subPlans : List.Forall₂ (fun e e' => S e.1 e'.1 ∧ SamePlan F e.2 e'.2) a.subPlans b.subPlans

/-- One outcome, on assemblies that are related. -/
def SameStep {α β : Type} (S : Source → Source → Prop) (F : Field → Field → Prop) (R : α → β → Prop)
    (out : α × Assembly) (out' : β × Assembly) : Prop :=
  R out.1 out'.1 ∧ SameAssembly S F out.2 out'.2

namespace Mirrors

variable {s t : Store} {S : Source → Source → Prop} {F : Field → Field → Prop} {x y : Source}
  {f g : Field} {fs gs : List Field} {js ks : JoinSet} {a b : Assembly} {d e : Derive}

/-! ## Look-ups by number -/

theorem sameIds (h : List.Forall₂ F fs gs) :
    List.Forall₂ (SameId F) (fs.map (·.id)) (gs.map (·.id)) := by
  rw [List.forall₂_map_left_iff, List.forall₂_map_right_iff]
  exact h.imp fun f g hfg => ⟨f, g, hfg, rfl, rfl⟩

theorem chain_eq_iff (h : Mirrors s t S F) : ∀ {c d c' d' : Chain}, List.Forall₂ (SameId F) c c' →
    List.Forall₂ (SameId F) d d' → (c = d ↔ c' = d')
  | _, _, _, _, .nil, .nil => by simp
  | _, _, _, _, .nil, .cons _ _ => by simp
  | _, _, _, _, .cons _ _, .nil => by simp
  | _, _, _, _, .cons hm hc, .cons hn hd => by
    obtain ⟨f, g, hfg, rfl, rfl⟩ := hm
    obtain ⟨f', g', hfg', rfl, rfl⟩ := hn
    rw [List.cons.injEq, List.cons.injEq, h.fieldId hfg hfg', h.chain_eq_iff hc hd]

theorem findIdx?_congr {α β : Type} {R : α → β → Prop} {p : α → Bool} {q : β → Bool}
    (hpq : ∀ a b, R a b → p a = q b) {xs : List α} {ys : List β} (h : List.Forall₂ R xs ys) :
    xs.findIdx? p = ys.findIdx? q := by
  induction h with
  | nil => rfl
  | cons hab _ ih => rw [List.findIdx?_cons, List.findIdx?_cons, hpq _ _ hab, ih]

theorem lookup?_eq (h : Mirrors s t S F) (hj : SameJoinSet F js ks) {c c' : Chain}
    (hc : List.Forall₂ (SameId F) c c') : js.lookup? c = ks.lookup? c' := by
  unfold JoinSet.lookup?
  rw [findIdx?_congr (fun e e' he => ?_) hj.entries]
  rw [Bool.eq_iff_iff, beq_iff_eq, beq_iff_eq]
  exact h.chain_eq_iff he.chain hc

theorem subPlan?_eq (h : Mirrors s t S F) (ha : SameAssembly S F a b) (hxy : S x y) :
    a.subPlan? x = b.subPlan? y := by
  unfold Assembly.subPlan?
  refine findIdx?_congr (fun e e' he => ?_) ha.subPlans
  rw [Bool.eq_iff_iff, beq_iff_eq, beq_iff_eq]
  exact h.sourceId he.1 hxy

/-! ## Chains -/

/-- What is derived in the two stores is the same. -/
def Derives (F : Field → Field → Prop) (d e : Derive) : Prop :=
  ∀ name, Agree (SamePlan F) (d name) (e name)

theorem needSubPlan (h : Mirrors s t S F) (hd : Derives F d e) (ha : SameAssembly S F a b)
    (hxy : S x y) : Agree (SameStep S F Eq) (Store.needSubPlan d a x) (Store.needSubPlan e b y) := by
  unfold Store.needSubPlan
  rw [h.subPlan?_eq ha hxy, h.name hxy]
  cases b.subPlan? y with
  | some position => exact .ok ⟨rfl, ha⟩
  | none =>
    refine (hd y.name).bind fun p q hpq => .ok ⟨ha.subPlans.length_eq, ha.joins, ?_⟩
    exact List.rel_append ha.subPlans (.cons ⟨hxy, hpq⟩ .nil)

theorem rowsOf (h : Mirrors s t S F) (hd : Derives F d e) (ha : SameAssembly S F a b)
    (hxy : S x y) : Agree (SameStep S F Eq) (Store.rowsOf d a x) (Store.rowsOf e b y) := by
  unfold Store.rowsOf
  rw [h.query hxy]
  cases y.query with
  | none => exact .ok ⟨rfl, ha⟩
  | some query =>
    refine (h.needSubPlan hd ha hxy).bind ?_
    rintro ⟨position, a⟩ ⟨_, b⟩ ⟨rfl, hab⟩
    exact .ok ⟨rfl, hab⟩

theorem push (h : Mirrors s t S F) (hj : SameJoinSet F js ks) (hc : List.Forall₂ F fs gs)
    (parent : Slot) (subPlan : Option Nat) :
    Agree (fun out out' : Slot × JoinSet => out.1 = out'.1 ∧ SameJoinSet F out.2 out'.2)
      (JoinSet.push s js fs parent subPlan) (JoinSet.push t ks gs parent subPlan) := by
  unfold JoinSet.push
  simp only [h.lookup?_eq hj (sameIds hc)]
  cases ks.lookup? (gs.map (·.id)) with
  | some slot => exact .ok ⟨rfl, hj⟩
  | none =>
    have hlast : Option.Rel F fs.getLast? gs.getLast? := by
      rw [List.getLast?_eq_head?_reverse, List.getLast?_eq_head?_reverse]
      have hrev := List.rel_reverse hc
      generalize fs.reverse = fs', gs.reverse = gs' at hrev
      cases hrev with
      | nil => exact .none
      | cons hfg _ => exact .some hfg
    obtain ⟨hf, hg⟩ | ⟨f, g, hf, hg, hfg⟩ := optionRel_cases hlast
    · simp only [hf, hg]
      exact .error _
    simp only [hf, hg, h.kind hfg, h.toPaired.qualifiedName hfg]
    cases g.kind with
    | scalar => exact .error _
    | aggregate _ => exact .error _
    | join join =>
      rw [hj.entries.length_eq]
      refine (h.toPaired.bind hfg parent (.join ks.entries.length) join.on).bind ?_
      rintro on _ rfl
      have hlabel : fs.map (·.name) = gs.map (·.name) :=
        forall₂_map_eq (fun f g (hfg : F f g) => h.fieldName hfg) hc
      refine .ok ⟨rfl, ⟨List.rel_append hj.entries (.cons ⟨sameIds hc, ⟨f, g, hfg, rfl, rfl⟩, ?_⟩ .nil)⟩⟩
      simp only [hlabel, h.fieldName hfg, (h.owner hfg).name]

theorem addJoin (h : Mirrors s t S F) (hd : Derives F d e) (ha : SameAssembly S F a b)
    (hc : List.Forall₂ F fs gs) (hfg : F f g) (parent : Slot) :
    Agree (SameStep S F Eq) (s.addJoin d a fs f parent) (t.addJoin e b gs g parent) := by
  unfold Store.addJoin
  rw [h.lookup?_eq ha.joins (sameIds hc), h.toPaired.qualifiedName hfg]
  cases b.joins.lookup? (gs.map (·.id)) with
  | some slot => exact .ok ⟨rfl, ha⟩
  | none =>
    obtain ⟨hs, ht⟩ | ⟨x, y, hs, ht, hxy⟩ := optionRel_cases (h.toPaired.target? hfg)
    · simp only [hs, ht]
      exact .error _
    simp only [hs, ht]
    refine (h.rowsOf hd ha hxy).bind ?_
    rintro ⟨position, a⟩ ⟨_, b⟩ ⟨rfl, hab⟩
    refine (h.push hab.joins hc parent position).bind ?_
    rintro ⟨slot, js⟩ ⟨_, ks⟩ ⟨rfl, hj⟩
    exact .ok ⟨rfl, hj, hab.subPlans⟩

theorem addRest (h : Mirrors s t S F) (hd : Derives F d e) {rest rest' : List Field}
    (hr : List.Forall₂ F rest rest') : ∀ {a b : Assembly} {walked walked' : List Field} (slot : Slot),
    SameAssembly S F a b → List.Forall₂ F walked walked' →
    Agree (SameStep S F Eq) (s.addRest d a walked slot rest) (t.addRest e b walked' slot rest') := by
  induction hr with
  | nil => exact fun _ ha _ => .ok ⟨rfl, ha⟩
  | cons hfg _ ih =>
    intro a b walked walked' slot ha hw
    have hw := List.rel_append hw (.cons hfg .nil)
    refine (h.addJoin hd ha hw hfg slot).bind ?_
    rintro ⟨next, a⟩ ⟨_, b⟩ ⟨rfl, hab⟩
    exact ih next hab hw

theorem addChain (h : Mirrors s t S F) (hd : Derives F d e) (ha : SameAssembly S F a b)
    (hc : List.Forall₂ F fs gs) :
    Agree (SameStep S F Eq) (s.addChain d a fs) (t.addChain e b gs) :=
  h.addRest hd hc .root ha .nil

/-! ## Items -/

theorem addKey (h : Mirrors s t S F) (hd : Derives F d e) (ha : SameAssembly S F a b) (hxy : S x y)
    (path : Path) :
    Agree (SameStep S F (GroupingKey.Same (SameId F))) (s.addKey d x a path) (t.addKey e y b path) := by
  unfold Store.addKey
  refine (h.resolveRequested hxy path).bind fun r r' hr => ?_
  refine (h.addChain hd ha hr.joins).bind ?_
  rintro ⟨_, a⟩ ⟨_, b⟩ ⟨-, hab⟩
  refine (h.toPaired.keyEnd path hr).bind fun k k' hk => ?_
  refine (h.addChain hd hab hk.chain).bind ?_
  rintro ⟨slot, a⟩ ⟨_, b⟩ ⟨rfl, hab⟩
  refine .ok ⟨⟨⟨_, _, hk.field, rfl, rfl⟩, ?_⟩, hab⟩
  simp only [h.fieldName hr.field, h.fieldName hk.field, h.name hk.source]

theorem addAggregate (h : Mirrors s t S F) (hd : Derives F d e) (ha : SameAssembly S F a b)
    (hxy : S x y) (request : AggregateRequest) :
    Agree (SameStep S F (PlannedAggregate.Same (SameId F))) (s.addAggregate d x a request)
      (t.addAggregate e y b request) := by
  unfold Store.addAggregate
  refine (h.aggregateEnd hxy request).bind fun i i' hi => ?_
  refine (h.addChain hd ha hi.chain).bind ?_
  rintro ⟨slot, a⟩ ⟨_, b⟩ ⟨rfl, hab⟩
  refine .ok ⟨⟨hi.definedBy, ?_⟩, hab⟩
  simp only [hi.op, hi.column]

theorem addKeys (h : Mirrors s t S F) (hd : Derives F d e) (hxy : S x y) :
    ∀ (paths : List Path) {a b : Assembly}, SameAssembly S F a b →
    Agree (SameStep S F (List.Forall₂ (GroupingKey.Same (SameId F)))) (s.addKeys d x a paths)
      (t.addKeys e y b paths)
  | [], _, _, ha => .ok ⟨.nil, ha⟩
  | path :: paths, _, _, ha => by
    unfold Store.addKeys
    refine (h.addKey hd ha hxy path).mapError.bind ?_
    rintro ⟨key, a⟩ ⟨key', b⟩ ⟨hkey, hab⟩
    refine (h.addKeys hd hxy paths hab).bind ?_
    rintro ⟨keys, a⟩ ⟨keys', b⟩ ⟨hkeys, hab⟩
    exact .ok ⟨.cons hkey hkeys, hab⟩

theorem addAggregates (h : Mirrors s t S F) (hd : Derives F d e) (hxy : S x y) :
    ∀ (requests : List AggregateRequest) {a b : Assembly}, SameAssembly S F a b →
    Agree (SameStep S F (List.Forall₂ (PlannedAggregate.Same (SameId F))))
      (s.addAggregates d x a requests) (t.addAggregates e y b requests)
  | [], _, _, ha => .ok ⟨.nil, ha⟩
  | request :: requests, _, _, ha => by
    unfold Store.addAggregates
    refine (h.addAggregate hd ha hxy request).mapError.bind ?_
    rintro ⟨planned, a⟩ ⟨planned', b⟩ ⟨hplanned, hab⟩
    refine (h.addAggregates hd hxy requests hab).bind ?_
    rintro ⟨rest, a⟩ ⟨rest', b⟩ ⟨hrest, hab⟩
    exact .ok ⟨.cons hplanned hrest, hab⟩

/-! ## Stages -/

theorem compileStage (h : Mirrors s t S F) (hd : Derives F d e) (hxy : S x y) (stage : Stage) :
    Agree (SamePlan F) (s.compileStage d x stage) (t.compileStage e y stage) := by
  unfold Store.compileStage baseOf
  simp only [bind_assoc, pure_bind]
  have hempty : SameAssembly S F .empty .empty := ⟨⟨.nil⟩, .nil⟩
  refine (h.rowsOf hd hempty hxy).bind ?_
  rintro ⟨position, a⟩ ⟨_, b⟩ ⟨rfl, hab⟩
  refine (h.addKeys hd hxy stage.groupBy hab).bind ?_
  rintro ⟨keys, a⟩ ⟨keys', b⟩ ⟨hkeys, hab⟩
  refine (h.addAggregates hd hxy stage.aggregates hab).bind ?_
  rintro ⟨aggregates, a⟩ ⟨aggregates', b⟩ ⟨haggregates, hab⟩
  have hkeyNames : keys.map (·.name) = keys'.map (·.name) :=
    forall₂_map_eq (fun _ _ hk => by rw [hk.2]) hkeys
  have haggregateNames : aggregates.map (·.name) = aggregates'.map (·.name) :=
    forall₂_map_eq (fun _ _ hi => by rw [hi.2]) haggregates
  simp only [Plan.outputColumns, hkeyNames, haggregateNames, h.name hxy]
  cases firstRepeat? (keys'.map (·.name) ++ aggregates'.map (·.name)) with
  | some name => exact .error _
  | none =>
    refine .ok ⟨rfl, rfl, ?_, hkeys, haggregates, Plan.sameAll_of_forall₂ ?_⟩
    · rw [JoinSet.joins, JoinSet.joins, List.forall₂_map_left_iff, List.forall₂_map_right_iff]
      exact hab.joins.entries.imp fun _ _ he => he.join
    · rw [List.forall₂_map_left_iff, List.forall₂_map_right_iff]
      exact hab.subPlans.imp fun _ _ he => ⟨h.name he.1, he.2⟩

theorem compileQueryOf (h : Mirrors s t S F) (hd : Derives F d e) (owner : String) (query : Query) :
    Agree (SamePlan F) (s.compileQueryOf d owner query) (t.compileQueryOf e owner query) := by
  unfold Store.compileQueryOf
  split
  · obtain ⟨hs, ht⟩ | ⟨x, y, hs, ht, hxy⟩ := optionRel_cases (h.named query.source)
    · simp only [hs, ht]
      exact .error _
    · simp only [hs, ht]
      exact h.compileStage hd hxy _
  · exact .error _

/-- What a name derives is the same in both stores. Every trail leaves as much room in one as in the
other, but the induction needs only that of the first. -/
theorem derive (h : Mirrors s t S F) (trail : List String) : Derives F (s.derive trail) (t.derive trail) := by
  intro name
  rw [derive_eq, derive_eq]
  split
  · exact .error _
  next htrail =>
  obtain ⟨hs, ht⟩ | ⟨x, y, hs, ht, hxy⟩ := optionRel_cases (h.named name)
  · simp only [hs, ht]
    exact .error _
  simp only [hs, ht, h.query hxy]
  cases y.query with
  | none => exact .error _
  | some query =>
    have := room_lt hs htrail
    exact (h.compileQueryOf (h.derive (trail ++ [name])) name query).mapError
termination_by s.room trail

theorem compile (h : Mirrors s t S F) (start : String) (stage : Stage) :
    Agree (SamePlan F) (s.compile start stage) (t.compile start stage) := by
  unfold Store.compile
  obtain ⟨hs, ht⟩ | ⟨x, y, hs, ht, hxy⟩ := optionRel_cases (h.named start)
  · simp only [hs, ht]
    exact .error _
  · simp only [hs, ht]
    exact h.compileStage (h.derive []) hxy stage

end Mirrors

end Joinery.Store
