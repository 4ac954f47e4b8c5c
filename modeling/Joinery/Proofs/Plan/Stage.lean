/-
A stage and its plan.

Every item of a stage is checked for itself (`keyItem`, `aggregateItem`): what
it resolves to and whether its joins can be planned do not depend on the other
items. The plan is laid out from the chains of the items in their order
(`compileStage_agree`).
-/
import Joinery.Proofs.Plan.Item
import Joinery.Proofs.Plan.Layout
import Mathlib.Data.List.Forall2

namespace Joinery

/-! ## Items -/

/-- A grouping path with what it leads to. -/
structure KeyItem where
  name : String
  path : Path
  chain : List Field
  field : Field
  source : Source

/-- The key, with its relation at a slot. -/
def KeyItem.place (k : KeyItem) (slot : Slot) : GroupingKey :=
  { name := k.name, path := k.path, column := ⟨slot, k.field.name⟩, field := k.field.id
    source := k.source.name }

/-- A requested aggregate with what it asks for. -/
structure AggregateItem where
  request : AggregateRequest
  ending : Store.AggregateEnd

/-- The aggregate, with its relation at a slot. -/
def AggregateItem.place (i : AggregateItem) (slot : Slot) : PlannedAggregate :=
  { name := i.request.outputName
    op := i.ending.op
    target := match i.ending.column with
      | none => .rows slot
      | some field => .column ⟨slot, field⟩
    path := i.request.path
    definedBy := i.ending.definedBy }

/-- The key is the planned one, at the relation that its chain leads to. -/
def KeyItem.Placed (chains : List Chain) (k : KeyItem) (key : GroupingKey) : Prop :=
  ∃ slot, At chains slot (ids k.chain) ∧ key = k.place slot

/-- The aggregate is planned from the item, at the slot of its chain. -/
def AggregateItem.Placed (chains : List Chain) (i : AggregateItem) (a : PlannedAggregate) : Prop :=
  ∃ slot, At chains slot (ids i.ending.chain) ∧ a = i.place slot

theorem KeyItem.Placed.mono {chains more : List Chain} {k : KeyItem} {key : GroupingKey}
    (h : k.Placed chains key) (hp : chains <+: more) : k.Placed more key :=
  h.imp fun _ ⟨hat, hk⟩ => ⟨hat.mono hp, hk⟩

theorem AggregateItem.Placed.mono {chains more : List Chain} {i : AggregateItem}
    {a : PlannedAggregate} (h : i.Placed chains a) (hp : chains <+: more) : i.Placed more a :=
  h.imp fun _ ⟨hat, ha⟩ => ⟨hat.mono hp, ha⟩

theorem KeyItem.Placed.unique {chains : List Chain} (hr : Rooted chains) :
    Relator.RightUnique (KeyItem.Placed chains) := by
  rintro k _ _ ⟨slot, hat, rfl⟩ ⟨slot', hat', rfl⟩
  rw [hat.unique hr hat']

theorem AggregateItem.Placed.unique {chains : List Chain} (hr : Rooted chains) :
    Relator.RightUnique (AggregateItem.Placed chains) := by
  rintro i _ _ ⟨slot, hat, rfl⟩ ⟨slot', hat', rfl⟩
  rw [hat.unique hr hat']

/-- The items of a stage. -/
structure StageItems where
  keys : List KeyItem
  aggregates : List AggregateItem

/-- The chains that the items need, in their order. -/
def StageItems.chains (items : StageItems) : List Chain :=
  items.keys.map (ids ·.chain) ++ items.aggregates.map (ids ·.ending.chain)

/-- The output columns. -/
def StageItems.names (items : StageItems) : List String :=
  items.keys.map (·.name) ++ items.aggregates.map (·.request.outputName)

namespace Store

variable (s : Store) (derive : Derive) (start : Source)

/-- A grouping path for itself. -/
def keyItem (path : Path) : Except CompileError KeyItem := do
  let r ← s.resolveRequested start path
  s.checkChain derive r.joins
  let e ← s.keyEnd path r
  s.checkChain derive e.chain
  return ⟨path.last?.getD r.field.name, path, e.chain, e.field, e.source⟩

/-- An aggregate for itself. -/
def aggregateItem (request : AggregateRequest) : Except CompileError AggregateItem := do
  let e ← s.aggregateEnd start request
  s.checkChain derive e.chain
  return ⟨request, e⟩

/-- The items of grouping paths; a failure names the path. -/
def keyItems (paths : List Path) : Except CompileError (List KeyItem) :=
  paths.mapM fun path => (s.keyItem derive start path).mapError (.requestedBy path)

/-- The items of requested aggregates; a failure names the request. -/
def aggregateItems (requests : List AggregateRequest) : Except CompileError (List AggregateItem) :=
  requests.mapM fun request => (s.aggregateItem derive start request).mapError (blame request)

/-- The items of a stage, each for itself, with distinct names. -/
def stageItems (stage : Stage) : Except CompileError StageItems := do
  checkRows derive start
  let keys ← s.keyItems derive start stage.groupBy
  let aggregates ← s.aggregateItems derive start stage.aggregates
  let items : StageItems := ⟨keys, aggregates⟩
  match firstRepeat? items.names with
  | some name => .error (.duplicateOutput name)
  | none => return items

variable {s derive start} in
/-- A stage has items when its rows are available, each item is planned for itself, and the names are
distinct. -/
theorem stageItems_eq_ok_iff {stage : Stage} {items : StageItems} :
    s.stageItems derive start stage = .ok items ↔ checkRows derive start = .ok () ∧
      List.Forall₂ (fun path k => s.keyItem derive start path = .ok k) stage.groupBy items.keys ∧
      List.Forall₂ (fun request i => s.aggregateItem derive start request = .ok i)
        stage.aggregates items.aggregates ∧ items.names.Nodup := by
  simp only [stageItems, keyItems, aggregateItems, bind_eq_ok_iff, mapM_eq_ok_iff, mapError_eq_ok_iff]
  constructor
  · rintro ⟨_, hrows, keys, hkeys, aggregates, haggregates, h⟩
    split at h
    · cases h
    next hnames =>
    cases h
    exact ⟨hrows, hkeys, haggregates, firstRepeat?_eq_none_iff.mp hnames⟩
  · rintro ⟨hrows, hkeys, haggregates, hnames⟩
    refine ⟨(), hrows, items.keys, hkeys, items.aggregates, haggregates, ?_⟩
    rw [firstRepeat?_eq_none_iff.mpr hnames]
    rfl

/-- What planning some items leads to. -/
structure Lays (a : Assembly) (chains : List Chain) (b : Assembly) : Prop where
  laid : Laid s derive start b
  grown : b.joins.chains = growAll a.joins.chains chains
  kept : a.subPlans <+: b.subPlans

/-- Where the base rows come from: a nested plan if the source is derived, and otherwise its table. -/
def Rests (subPlans : List (Source × Plan)) (source : Source) (base : Base) : Prop :=
  match source.query with
  | none => base = .table source.name
  | some _ => ∃ k plan, base = .subPlan k ∧ subPlans[k]? = some (source, plan)

/-- The plan that some items are laid out as, and the assembly that it is made of. -/
structure LaysOut (items : StageItems) (a : Assembly) (p : Plan) : Prop where
  laid : Laid s derive start a
  chains : a.joins.chains = growAll [] items.chains
  source : p.source = start.name
  base : Rests a.subPlans start p.base
  joins : p.joins = a.joins.joins
  keys : List.Forall₂ (KeyItem.Placed a.joins.chains) items.keys p.groupBy
  aggregates : List.Forall₂ (AggregateItem.Placed a.joins.chains) items.aggregates p.aggregates
  subPlans : p.subPlans = a.subPlans.map fun (source, plan) => (source.name, plan)

end Store

namespace Store

variable {s : Store} {derive : Derive} {start : Source} {a : Assembly}

theorem addKey_agree (hs : s.Coherent) (h : Laid s derive start a) (path : Path) :
    Agree (fun (k : KeyItem) (out : GroupingKey × Assembly) =>
        Lays s derive start a [ids k.chain] out.2 ∧ k.Placed out.2.joins.chains out.1)
      (s.keyItem derive start path) (s.addKey derive start a path) := by
  unfold keyItem addKey
  cases hr : s.resolveRequested start path with
  | error e => exact .error e
  | ok r =>
    have hj := (resolveFrom_fields (resolveRequested_eq_ok hr)).1
    refine (h.addChain hs (hs.stands hj)).bind ?_
    rintro - ⟨_, b⟩ hb
    cases he : s.keyEnd path r with
    | error e => exact .error e
    | ok e =>
      refine (hb.laid.addChain hs (hs.stands (keyEnd_fields hr he))).bind ?_
      rintro - ⟨slot, c⟩ hc
      have hgrown : c.joins.chains = grow a.joins.chains (ids e.chain) := by
        rw [hc.grown, hb.grown]
        rcases keyEnd_chain he with hchain | hchain <;> rw [hchain]
        · simpa using grow_grow a.joins.chains (ids r.joins) []
        · rw [ids_append, grow_grow]
      exact .ok ⟨⟨hc.laid, hgrown, hb.kept.trans hc.kept⟩, slot, hc.grown ▸ hc.found, rfl⟩

theorem addAggregate_agree (hs : s.Coherent) (h : Laid s derive start a) (request : AggregateRequest) :
    Agree (fun (i : AggregateItem) (out : PlannedAggregate × Assembly) =>
        Lays s derive start a [ids i.ending.chain] out.2 ∧ i.Placed out.2.joins.chains out.1)
      (s.aggregateItem derive start request) (s.addAggregate derive start a request) := by
  unfold aggregateItem addAggregate
  cases he : s.aggregateEnd start request with
  | error e => exact .error e
  | ok e =>
    refine (h.addChain hs (hs.stands (aggregateEnd_fields he))).bind ?_
    rintro - ⟨slot, b⟩ hb
    exact .ok ⟨⟨hb.laid, hb.grown, hb.kept⟩, slot, hb.grown ▸ hb.found, rfl⟩

theorem Lays.refl (h : Laid s derive start a) : Lays s derive start a [] a :=
  ⟨h, rfl, List.prefix_rfl⟩

theorem Lays.trans {b c : Assembly} {cs ds : List Chain} (h : Lays s derive start a cs b)
    (h' : Lays s derive start b ds c) : Lays s derive start a (cs ++ ds) c :=
  ⟨h'.laid, by rw [h'.grown, h.grown, growAll_append], h.kept.trans h'.kept⟩

theorem Lays.prefix {b : Assembly} {cs : List Chain} (h : Lays s derive start a cs b) :
    a.joins.chains <+: b.joins.chains := by
  rw [h.grown]
  exact prefix_growAll cs a.joins.chains

theorem addKeys_agree (hs : s.Coherent) : ∀ (paths : List Path) {a : Assembly},
    Laid s derive start a →
    Agree (fun (ks : List KeyItem) (out : List GroupingKey × Assembly) =>
        Lays s derive start a (ks.map (ids ·.chain)) out.2 ∧
          List.Forall₂ (KeyItem.Placed out.2.joins.chains) ks out.1)
      (s.keyItems derive start paths) (s.addKeys derive start a paths)
  | [], a, h => .ok ⟨Lays.refl h, .nil⟩
  | path :: paths, a, h => by
    unfold keyItems addKeys
    rw [List.mapM_cons]
    refine (addKey_agree hs h path).mapError.bind ?_
    rintro k ⟨key, b⟩ ⟨hb, hk⟩
    refine (addKeys_agree hs paths hb.laid).bind ?_
    rintro ks ⟨keys, c⟩ ⟨hc, hks⟩
    exact .ok ⟨hb.trans hc, .cons (hk.mono hc.prefix) hks⟩

theorem addAggregates_agree (hs : s.Coherent) : ∀ (requests : List AggregateRequest) {a : Assembly},
    Laid s derive start a →
    Agree (fun (is : List AggregateItem) (out : List PlannedAggregate × Assembly) =>
        Lays s derive start a (is.map (ids ·.ending.chain)) out.2 ∧
          List.Forall₂ (AggregateItem.Placed out.2.joins.chains) is out.1)
      (s.aggregateItems derive start requests) (s.addAggregates derive start a requests)
  | [], a, h => .ok ⟨Lays.refl h, .nil⟩
  | request :: requests, a, h => by
    unfold aggregateItems addAggregates
    rw [List.mapM_cons]
    refine (addAggregate_agree hs h request).mapError.bind ?_
    rintro i ⟨planned, b⟩ ⟨hb, hi⟩
    refine (addAggregates_agree hs requests hb.laid).bind ?_
    rintro is ⟨rest, c⟩ ⟨hc, his⟩
    exact .ok ⟨hb.trans hc, .cons (hi.mono hc.prefix) his⟩

theorem keyNames {chains : List Chain} {ks : List KeyItem} {keys : List GroupingKey}
    (h : List.Forall₂ (KeyItem.Placed chains) ks keys) : keys.map (·.name) = ks.map (·.name) :=
  (forall₂_map_eq (fun _ _ ⟨_, _, hk⟩ => (congrArg GroupingKey.name hk).symm) h).symm

theorem aggregateNames {chains : List Chain} {is : List AggregateItem} {as : List PlannedAggregate}
    (h : List.Forall₂ (AggregateItem.Placed chains) is as) :
    as.map (·.name) = is.map (·.request.outputName) :=
  (forall₂_map_eq (fun _ _ ⟨_, _, hi⟩ => (congrArg PlannedAggregate.name hi).symm) h).symm

theorem LaysOut.outputColumns {items : StageItems} {p : Plan} (h : LaysOut s derive start items a p) :
    p.outputColumns = items.names := by
  rw [Plan.outputColumns, keyNames h.keys, aggregateNames h.aggregates]
  rfl

/-- **A stage compiles if each of its items does for itself**, and the first item that does not
gives the error; the plan is laid out from the items. -/
theorem compileStage_agree (hs : s.Coherent) (hstart : start ∈ s.sources) (stage : Stage) :
    Agree (fun items p => ∃ a, LaysOut s derive start items a p)
      (s.stageItems derive start stage) (s.compileStage derive start stage) := by
  unfold stageItems compileStage baseOf
  simp only [bind_assoc, pure_bind]
  have hempty : Nested s derive Assembly.empty.subPlans :=
    ⟨fun _ he => absurd he List.not_mem_nil, List.nodup_nil⟩
  refine (hempty.rowsOf hs hstart).bind ?_
  rintro - ⟨position, a⟩ ha
  have hjoins : a.joins = .empty := ha.joins
  have laid : Laid s derive start a := by
    refine ⟨?_, fun i c j hj => ?_, ha.nested, fun e he => ?_⟩
    · rw [hjoins]
      exact Rooted.nil
    · rw [hjoins] at hj
      cases hj
    · exact .inl ((ha.fresh e he).resolve_left List.not_mem_nil)
  refine (addKeys_agree hs stage.groupBy laid).bind ?_
  rintro ks ⟨keys, b⟩ ⟨hb, hks⟩
  refine (addAggregates_agree hs stage.aggregates hb.laid).bind ?_
  rintro is ⟨as, c⟩ ⟨hc, his⟩
  have hlays := hb.trans hc
  have hkeys := hks.imp fun _ _ hk => hk.mono hc.prefix
  simp only [Plan.outputColumns, StageItems.names, keyNames hkeys, aggregateNames his]
  cases firstRepeat? (ks.map (·.name) ++ is.map (·.request.outputName)) with
  | some name => exact .error _
  | none =>
    refine .ok ⟨c, hc.laid, by rw [hlays.grown, hjoins]; rfl, rfl, ?_, rfl, hkeys, his, rfl⟩
    have hrows : Supplies c.subPlans start position := ha.rows.mono hlays.kept
    unfold Rests
    unfold Supplies at hrows
    cases hq : start.query with
    | none =>
      rw [hq] at hrows
      simp only [hrows]
    | some query =>
      rw [hq] at hrows
      obtain ⟨k, plan, rfl, hplan⟩ := hrows
      exact ⟨k, plan, rfl, hplan⟩

theorem compileQueryOf_eq_ok {owner : String} {query : Query} {plan : Plan}
    (h : s.compileQueryOf derive owner query = .ok plan) : ∃ stage start, query.stages = [stage] ∧
      s.sourceNamed? query.source = some start ∧ s.compileStage derive start stage = .ok plan := by
  unfold compileQueryOf at h
  split at h
  · next stage hstages =>
    split at h
    · cases h
    · next start hstart => exact ⟨stage, start, hstages, hstart, h⟩
  · cases h

theorem compileRequest_eq_ok {request : Request} {plan : Plan} (h : s.compileRequest request = .ok plan) :
    ∃ start, s.sourceNamed? request.source = some start ∧
      s.compileStage (s.derive []) start request.stage = .ok plan := by
  unfold compileRequest compile at h
  split at h
  · cases h
  · next start hstart => exact ⟨start, hstart, h⟩

theorem compileRequest_laysOut (hs : s.Coherent) {request : Request} {plan : Plan}
    (h : s.compileRequest request = .ok plan) : ∃ start items a,
      s.sourceNamed? request.source = some start ∧
      s.stageItems (s.derive []) start request.stage = .ok items ∧
      LaysOut s (s.derive []) start items a plan := by
  obtain ⟨start, hstart, hplan⟩ := compileRequest_eq_ok h
  obtain ⟨items, hitems, a, ha⟩ :=
    (compileStage_agree hs (sourceNamed?_mem hstart) request.stage).right hplan
  exact ⟨start, items, a, hstart, hitems, ha⟩

end Store

end Joinery
