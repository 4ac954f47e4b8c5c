/-
The columns of a plan can be read.

A column of a plan is a relation and the name of a field on the source whose rows
the relation has. Conditions are bound to scalar fields, and only these are
aggregated, in the plan of a request and in the plans nested in it at any depth
(`Reachable.columns_named`). A path that ends at a join is grouped by the primary
key of the target, whatever kind of field that is (`unreadable_key`); if all
primary keys are scalar fields, these columns can be read as well
(`ScalarKeys.key_readable`).
-/
import Joinery.Proofs.Plan.Growth
import Joinery.Proofs.Plan.Leads

namespace Joinery

/-- A plan, and the plans that are nested in it at any depth. -/
inductive Plan.Holds : Plan → Plan → Prop
  | self {p : Plan} : Holds p p
  | nested {p q r : Plan} {name : String} : (name, q) ∈ p.subPlans → Holds q r → Holds p r

namespace Store

variable {s : Store} {derive : Derive} {start : Source}

/-! ## Conditions -/

/-- What a reference in the condition of a join is bound to: a scalar field of the owner in the parent
relation, or of the target in the join's own. -/
def BindsTo (s : Store) (f : Field) (parent own : Slot) (c : Column) : Prop :=
  ∃ id g, s.fieldNamed? id c.field = some g ∧ g.kind = .scalar ∧
    (c.slot = parent ∧ id = f.owner ∨
      c.slot = own ∧ ∃ target, s.target? f = some target ∧ id = target.id)

theorem bindReference_bindsTo {f : Field} {parent own : Slot} {reference : Path} {c : Column}
    (h : s.bindReference f parent own reference = .ok c) : s.BindsTo f parent own c := by
  simp only [bindReference, bind_eq_ok_iff] at h
  obtain ⟨⟨id, slot, name⟩, hside, h⟩ := h
  simp only at h
  split at h
  · cases h
  next g hg =>
  split at h
  · next hk =>
    cases h
    refine ⟨id, g, hg, hk, ?_⟩
    unfold side at hside
    split at hside
    · cases hside; exact .inl ⟨rfl, rfl⟩
    · split at hside
      · split at hside
        · next target ht => cases hside; exact .inr ⟨rfl, target, ht, rfl⟩
        · cases hside
      · cases hside
    · cases hside
  · cases h

mutual
theorem bind_bindsTo {f : Field} {parent own : Slot} : ∀ {on : Condition} {b : BoundCondition},
    s.bind f parent own on = .ok b →
    ∀ e ∈ b.equalities, s.BindsTo f parent own e.1 ∧ s.BindsTo f parent own e.2
  | .equal left right, b, h => by
    simp only [bind, bind_eq_ok_iff, pure_eq_ok_iff] at h
    obtain ⟨l, hl, r, hr, rfl⟩ := h
    intro e he
    rw [BoundCondition.equalities, List.mem_singleton] at he
    rw [he]
    exact ⟨bindReference_bindsTo hl, bindReference_bindsTo hr⟩
  | .all kids, b, h => by
    simp only [bind, bind_eq_ok_iff, pure_eq_ok_iff] at h
    obtain ⟨bs, hbs, rfl⟩ := h
    exact bindAll_bindsTo hbs

theorem bindAll_bindsTo {f : Field} {parent own : Slot} : ∀ {kids : List Condition}
    {bs : List BoundCondition}, s.bindAll f parent own kids = .ok bs →
    ∀ e ∈ BoundCondition.allEqualities bs, s.BindsTo f parent own e.1 ∧ s.BindsTo f parent own e.2
  | [], bs, h => by
    cases h
    exact nofun
  | on :: kids, bs, h => by
    simp only [bindAll, bind_eq_ok_iff, pure_eq_ok_iff] at h
    obtain ⟨b, hb, bs, hbs, rfl⟩ := h
    intro e he
    rw [BoundCondition.allEqualities, List.mem_append] at he
    exact he.elim (bind_bindsTo hb e) (bindAll_bindsTo hbs e)
end

/-- Both sides of a bound condition are what references are bound to. -/
theorem bindsTo_of_bind {f : Field} {parent own : Slot} {on : Condition} {b : BoundCondition}
    (h : s.bind f parent own on = .ok b) {e : Column × Column} (he : e ∈ b.equalities) {c : Column}
    (hc : c ∈ [e.1, e.2]) : s.BindsTo f parent own c := by
  obtain ⟨hleft, hright⟩ := bind_bindsTo h e he
  simp only [List.mem_cons, List.not_mem_nil, or_false] at hc
  rcases hc with rfl | rfl
  · exact hleft
  · exact hright

/-! ## Relations of a plan -/

/-- The source whose rows a relation of a plan has: the start for the root, the target for a join. -/
def sourceAt? (s : Store) (p : Plan) : Slot → Option Source
  | .root => s.sourceNamed? p.source
  | .join i => p.joins[i]?.bind fun j => s.sourceNamed? j.target

/-- The field that a column of a plan names on the source whose rows its relation has. -/
def columnField? (s : Store) (p : Plan) (c : Column) : Option Field :=
  (s.sourceAt? p c.slot).bind fun source => s.fieldNamed? source.id c.field

/-- A column of a plan that can be read: it names a scalar field. -/
def Readable (s : Store) (p : Plan) (c : Column) : Prop :=
  ∃ f, s.columnField? p c = some f ∧ f.kind = .scalar

variable {items : StageItems} {a : Assembly} {p : Plan}

/-- The chain of a relation is made of joins from the start. -/
theorem LaysOut.leads (h : LaysOut s derive start items a p) (hi : s.LeadsItems start items)
    {slot : Slot} {c : Chain} (hat : At a.joins.chains slot c) :
    ∃ fs source, c = ids fs ∧ s.Leads start fs source := by
  by_cases hc : c = []
  · exact ⟨[], start, hc, rfl⟩
  have hmem := hat.mem hc
  rw [h.chains] at hmem
  obtain ⟨-, whole, hwhole, hprefix⟩ := (mem_growAll.mp hmem).resolve_left List.not_mem_nil
  obtain ⟨gs, there, rfl, hleads⟩ : ∃ gs there, whole = ids gs ∧ s.Leads start gs there := by
    rcases List.mem_append.mp hwhole with hw | hw
    · obtain ⟨k, hk, rfl⟩ := List.mem_map.mp hw
      exact ⟨k.chain, k.source, rfl, (hi.keys k hk).chain⟩
    · obtain ⟨i, hi', rfl⟩ := List.mem_map.mp hw
      obtain ⟨there, hleads, _⟩ := hi.aggregates i hi'
      exact ⟨i.ending.chain, there, rfl, hleads⟩
  obtain ⟨rest, hrest⟩ := hprefix
  obtain ⟨fs, rest', rfl, rfl, rfl⟩ := List.map_eq_append_iff.mp hrest.symm
  obtain ⟨mid, hmid, _⟩ := leads_append_iff.mp hleads
  exact ⟨fs, mid, rfl, hmid⟩

theorem LaysOut.join (h : LaysOut s derive start items a p) {i : Nat} {c : Chain}
    (hc : a.joins.chains[i]? = some c) : ∃ j init f join target, p.joins[i]? = some j ∧
      c = ids (init ++ [f]) ∧ Planned s a.joins.chains a.subPlans i init f join target j := by
  rw [JoinSet.chains, List.getElem?_map] at hc
  obtain ⟨⟨c, j⟩, hi, rfl⟩ := Option.map_eq_some_iff.mp hc
  obtain ⟨init, f, join, target, hids, hp⟩ := h.laid.planned i c j hi
  refine ⟨j, init, f, join, target, ?_, hids, hp⟩
  rw [h.joins, JoinSet.joins, List.getElem?_map, hi]
  rfl

theorem sourceAt?_join {i : Nat} {j : PlannedJoin} {target : Source} (hj : p.joins[i]? = some j)
    (ht : s.sourceNamed? j.target = some target) : s.sourceAt? p (.join i) = some target := by
  rw [sourceAt?, hj, Option.bind_some, ht]

/-- A relation has the rows of the source that its chain leads to. -/
theorem LaysOut.sourceAt (h : LaysOut s derive start items a p) (hs : s.Coherent)
    (hstart : s.sourceNamed? start.name = some start) {slot : Slot} {fs : List Field} {source : Source}
    (hat : At a.joins.chains slot (ids fs)) (hleads : s.Leads start fs source) :
    s.sourceAt? p slot = some source := by
  cases slot with
  | root =>
    have hnil : ids fs = [] := (Option.some.inj hat).symm
    obtain rfl : fs = [] := List.map_eq_nil_iff.mp hnil
    obtain rfl : start = source := hleads
    rw [sourceAt?, h.source, hstart]
  | join i =>
    obtain ⟨j, init, f, join, target, hj, hids, hp⟩ := h.join hat
    obtain rfl : fs = init ++ [f] := (hleads.stands hs).ext hp.stands hids
    obtain ⟨_, _, _, ht⟩ := leads_concat_iff.mp hleads
    obtain ⟨join', hk, hn⟩ := target?_eq_some ht
    cases hp.kind.symm.trans hk
    exact sourceAt?_join hj (hp.target ▸ hn)

/-- A relation of a plan is that of a join, which leads to a source. -/
def JoinAt (s : Store) (p : Plan) (slot : Slot) (f : Field) (target : Source) : Prop :=
  ∃ i j, slot = .join i ∧ p.joins[i]? = some j ∧ j.field = f.id ∧ s.target? f = some target

/-- A chain that ends with a join leads to the relation of that join. -/
theorem LaysOut.joinAt (h : LaysOut s derive start items a p) {slot : Slot} {fs : List Field} {f : Field}
    {target : Source} (hat : At a.joins.chains slot (ids (fs ++ [f]))) (ht : s.target? f = some target) :
    s.JoinAt p slot f target := by
  cases slot with
  | root =>
    have hnil : ids (fs ++ [f]) = [] := (Option.some.inj hat).symm
    simp [ids] at hnil
  | join i =>
    obtain ⟨j, init, g, join, _, hj, hids, hp⟩ := h.join hat
    rw [ids_append, ids_append] at hids
    have hlast : [f.id] = [g.id] := (List.append_inj' hids rfl).2
    refine ⟨i, j, rfl, hj, ?_, ht⟩
    rw [hp.shape]
    exact (List.cons.inj hlast).1.symm

/-- The columns of a plan, and what they name. -/
structure Named (s : Store) (p : Plan) : Prop where
  /-- A condition is over the join's own relation and its parent, and both sides can be read. -/
  conditions : ∀ (i : Nat) (j : PlannedJoin), p.joins[i]? = some j → ∀ e ∈ j.on.equalities,
    ∀ c ∈ [e.1, e.2], (c.slot = .join i ∨ c.slot = j.parent) ∧ s.Readable p c
  /-- A column that is aggregated can be read. -/
  aggregates : ∀ planned ∈ p.aggregates, ∀ c, planned.target = .column c → s.Readable p c
  /-- A column that is grouped by is the scalar field that the path of the key ends at. Or the path ends
  at a join, and the column is the primary key of the target, in the relation of that join. -/
  keys : ∀ key ∈ p.groupBy, ∃ source f r, s.sourceAt? p key.column.slot = some source ∧
    s.fieldNamed? source.id key.column.field = some f ∧ f.id = key.field ∧
    s.resolve p.source key.path = .ok r ∧
    (f = r.field ∧ f.kind = .scalar ∨
      s.JoinAt p key.column.slot r.field source ∧ source.primaryKey = some f.name)

section

variable (h : LaysOut s derive start items a p) (hs : s.Coherent)
  (hstart : s.sourceNamed? start.name = some start) (hi : s.LeadsItems start items)

include h hs hstart hi

theorem LaysOut.condition_readable {i : Nat} {j : PlannedJoin} (hj : p.joins[i]? = some j)
    {e : Column × Column} (he : e ∈ j.on.equalities) {c : Column} (hc : c ∈ [e.1, e.2]) :
    (c.slot = .join i ∨ c.slot = j.parent) ∧ s.Readable p c := by
  obtain ⟨c', hc'⟩ : ∃ c', a.joins.chains[i]? = some c' := by
    rw [h.joins, JoinSet.joins, List.getElem?_map] at hj
    obtain ⟨entry, hentry, -⟩ := Option.map_eq_some_iff.mp hj
    exact ⟨entry.1, JoinSet.chains_getElem? hentry⟩
  obtain ⟨j', init, f, join, target, hj', hids, hp⟩ := h.join hc'
  cases hj.symm.trans hj'
  obtain ⟨id, g, hg, hscalar, ⟨hslot, rfl⟩ | ⟨hslot, target', ht, rfl⟩⟩ := bindsTo_of_bind hp.on he hc
  · -- The owner of the join is the source that the parent relation has come to.
    obtain ⟨fs, there, hfs, hleads⟩ := h.leads hi (At.join hc')
    obtain rfl : fs = init ++ [f] := (hleads.stands hs).ext hp.stands (hfs ▸ hids)
    obtain ⟨mid, hmid, hf, -⟩ := leads_concat_iff.mp hleads
    refine ⟨.inr hslot, g, ?_, hscalar⟩
    rw [columnField?, hslot, h.sourceAt hs hstart hp.parent hmid, Option.bind_some,
      ← (fieldNamed?_owner hf).1, hg]
  · obtain ⟨join', hk, hn⟩ := target?_eq_some ht
    cases hp.kind.symm.trans hk
    refine ⟨.inl hslot, g, ?_, hscalar⟩
    rw [columnField?, hslot, sourceAt?_join hj (hp.target ▸ hn), Option.bind_some, hg]

theorem LaysOut.aggregate_readable {planned : PlannedAggregate} (hp : planned ∈ p.aggregates)
    {c : Column} (hc : planned.target = .column c) : s.Readable p c := by
  obtain ⟨i, hmem, slot, hat, rfl⟩ := forall₂_mem h.aggregates.flip hp
  obtain ⟨source, hleads, hcolumn⟩ := hi.aggregates i hmem
  unfold AggregateItem.place at hc
  cases hname : i.ending.column with
  | none =>
    simp only [hname] at hc
    cases hc
  | some name =>
    simp only [hname] at hc
    cases hc
    obtain ⟨g, hg, hscalar⟩ := hcolumn name hname
    refine ⟨g, ?_, hscalar⟩
    rw [columnField?, h.sourceAt hs hstart hat hleads, Option.bind_some, hg]

theorem LaysOut.named : Named s p := by
  refine ⟨fun i j hj e he c hc => h.condition_readable hs hstart hi hj he hc,
    fun planned hp c hc => h.aggregate_readable hs hstart hi hp hc, fun key hk => ?_⟩
  obtain ⟨k, hmem, slot, hat, rfl⟩ := forall₂_mem h.keys.flip hk
  obtain ⟨hleads, hfield, r, hr, hend⟩ := hi.keys k hmem
  have hresolve : s.resolve p.source k.path = .ok r := by
    rw [h.source, resolve, hstart]
    exact hr
  refine ⟨k.source, k.field, r, h.sourceAt hs hstart hat hleads, hfield, rfl, hresolve, ?_⟩
  rcases hend with ⟨-, hsame, hscalar⟩ | ⟨hchain, ht, hprimary⟩
  · exact .inl ⟨hsame, hscalar⟩
  · rw [hchain] at hat
    exact .inr ⟨h.joinAt hat ht, hprimary⟩

end

/-! ## Nested plans -/

/-- A plan that compiling gives at some depth. -/
def Compiled (s : Store) (p : Plan) : Prop :=
  ∃ trail start stage, s.sourceNamed? start.name = some start ∧
    s.compileStage (s.derive trail) start stage = .ok p

theorem compiled_of_derive {trail : List String} {name : String} (h : s.derive trail name = .ok p) :
    s.Compiled p := by
  obtain ⟨_, source, query, _, _, hc⟩ := derive_eq_ok_iff.mp h
  obtain ⟨stage, start, -, hstart, hplan⟩ := compileQueryOf_eq_ok hc
  exact ⟨_, start, stage, sourceNamed?_self hstart, hplan⟩

theorem compiled_of_request {request : Request} (h : s.compileRequest request = .ok p) :
    s.Compiled p := by
  obtain ⟨start, hstart, hplan⟩ := compileRequest_eq_ok h
  exact ⟨[], start, _, sourceNamed?_self hstart, hplan⟩

theorem Compiled.laysOut (hs : s.Coherent) (h : s.Compiled p) : ∃ trail start items a,
    s.sourceNamed? start.name = some start ∧ s.LeadsItems start items ∧
    LaysOut s (s.derive trail) start items a p := by
  obtain ⟨trail, start, stage, hstart, hp⟩ := h
  obtain ⟨items, hitems, a, ha⟩ := (compileStage_agree hs (sourceNamed?_mem hstart) stage).right hp
  exact ⟨trail, start, items, a, hstart, stageItems_leads hitems, ha⟩

theorem Compiled.named (hs : s.Coherent) (h : s.Compiled p) : Named s p := by
  obtain ⟨trail, start, items, a, hstart, hi, ha⟩ := h.laysOut hs
  exact ha.named hs hstart hi

theorem Compiled.derives (hs : s.Coherent) (h : s.Compiled p) {name : String} {q : Plan}
    (hq : (name, q) ∈ p.subPlans) : ∃ trail, s.derive trail name = .ok q := by
  obtain ⟨trail, start, items, a, _, _, ha⟩ := h.laysOut hs
  rw [ha.subPlans] at hq
  obtain ⟨⟨source, plan⟩, hmem, heq⟩ := List.mem_map.mp hq
  cases heq
  exact ⟨trail, (ha.laid.nested.derived _ hmem).2.2⟩

theorem Compiled.nested (hs : s.Coherent) (h : s.Compiled p) {name : String} {q : Plan}
    (hq : (name, q) ∈ p.subPlans) : s.Compiled q := by
  obtain ⟨trail, hderive⟩ := h.derives hs hq
  exact compiled_of_derive hderive

theorem Compiled.holds (hs : s.Coherent) {q : Plan} (hq : p.Holds q) (h : s.Compiled p) :
    s.Compiled q := by
  induction hq with
  | self => exact h
  | nested hmem _ ih => exact ih (h.nested hs hmem)

/-- **Compiled columns name fields of their relations.** In a plan and the plans nested in it, both
sides of a condition and every aggregated column can be read, and so can every key that is not the
primary key of the target of a join. -/
theorem Reachable.columns_named (hs : s.Reachable) {request : Request} {plan q : Plan}
    (h : s.compileRequest request = .ok plan) (hq : plan.Holds q) : Named s q :=
  ((compiled_of_request h).holds hs.coherent hq).named hs.coherent

/-- What the customers of each region have spent: the plan of the spending is nested in that of the
request, and the columns of both are named. -/
theorem columns_named_shop :
    let request : Request :=
      ⟨"customers", [⟨["region"]⟩, ⟨["orders"]⟩], [⟨none, some .sum, some ⟨["spending", "total"]⟩⟩]⟩
    shop.Reachable ∧ ∃ plan nested, shop.compileRequest request = .ok plan ∧
      plan.subPlans = [("spending", nested)] ∧ Named shop plan ∧ Named shop nested := by
  intro request
  have hcomputed : (shop.compileRequest request).toOption.map (·.subPlans.map (·.1)) =
      some ["spending"] := by decide +kernel
  cases hplan : shop.compileRequest request with
  | error e =>
    rw [hplan] at hcomputed
    cases hcomputed
  | ok plan =>
    rw [hplan] at hcomputed
    obtain ⟨⟨name, nested⟩, hsub, rfl⟩ := List.map_eq_singleton_iff.mp (Option.some.inj hcomputed)
    have hholds : plan.Holds nested := .nested (hsub ▸ List.mem_singleton_self _) .self
    exact ⟨shop_reachable, plan, nested, rfl, hsub, shop_reachable.columns_named hplan .self,
      shop_reachable.columns_named hplan hholds⟩

/-! ## Primary keys -/

/-- Every primary key is a scalar field of its source. -/
def ScalarKeys (s : Store) : Prop :=
  ∀ source ∈ s.sources, ∀ key, source.primaryKey = some key → s.HasScalar source key

theorem sourceAt?_mem {slot : Slot} {source : Source} (h : s.sourceAt? p slot = some source) :
    source ∈ s.sources := by
  cases slot with
  | root => exact sourceNamed?_mem h
  | join i =>
    obtain ⟨j, -, hsource⟩ := Option.bind_eq_some_iff.mp h
    exact sourceNamed?_mem hsource

/-- If every primary key is a scalar field, every key of a plan can be read. -/
theorem ScalarKeys.key_readable (hk : s.ScalarKeys) (hs : s.Reachable) {request : Request}
    {plan q : Plan} (h : s.compileRequest request = .ok plan) (hq : plan.Holds q) {key : GroupingKey}
    (hkey : key ∈ q.groupBy) : s.Readable q key.column := by
  have hnamed : Named s q := ((compiled_of_request h).holds hs.coherent hq).named hs.coherent
  obtain ⟨source, f, r, hsource, hf, -, -, ⟨-, hscalar⟩ | ⟨-, hprimary⟩⟩ := hnamed.keys key hkey
  · exact ⟨f, by rw [columnField?, hsource, Option.bind_some, hf], hscalar⟩
  · obtain ⟨g, hg, hscalar⟩ := hk source (sourceAt?_mem hsource) f.name hprimary
    refine ⟨g, ?_, hscalar⟩
    rw [columnField?, hsource, Option.bind_some, ← (fieldNamed?_owner hf).2, hg]

/-- Customers of regions whose primary key is an aggregate: a source may have any of its fields as its
key. -/
def census : Store :=
  [.defineSource "regions" [⟨"id", .scalar⟩, ⟨"size", .aggregate ⟨.count, none⟩⟩] (some "size"),
    .defineSource "customers" [⟨"region_id", .scalar⟩,
      ⟨"region", .join ⟨"regions", .one, .equal ⟨["region_id"]⟩ ⟨["region", "id"]⟩⟩⟩] none].foldl
    attempt .empty

/-- Grouping the customers by their region is grouping by a column that cannot be read. -/
theorem unreadable_key : census.Reachable ∧ ∃ plan key,
    census.compileRequest ⟨"customers", [⟨["region"]⟩], []⟩ = .ok plan ∧ plan.groupBy = [key] ∧
      key.column = ⟨.join 0, "size"⟩ ∧ ¬ census.Readable plan key.column := by
  have hcomputed : (census.compileRequest ⟨"customers", [⟨["region"]⟩], []⟩).toOption.map (fun plan =>
      plan.groupBy.map fun key => (key.column, (census.columnField? plan key.column).map (·.kind.name))) =
      some [(⟨.join 0, "size"⟩, some "aggregate")] := by decide +kernel
  refine ⟨Reachable.empty.attempts _, ?_⟩
  generalize census.compileRequest _ = compiled at hcomputed
  cases compiled with
  | error e => cases hcomputed
  | ok plan =>
    obtain ⟨key, hkeys, hkey⟩ := List.map_eq_singleton_iff.mp (Option.some.inj hcomputed)
    obtain ⟨hcolumn, hkind⟩ := Prod.mk.inj hkey
    refine ⟨plan, key, rfl, hkeys, hcolumn, ?_⟩
    rintro ⟨f, hf, hscalar⟩
    rw [hf, Option.map_some, hscalar] at hkind
    exact absurd (Option.some.inj hkind) (by decide)

end Store

end Joinery
