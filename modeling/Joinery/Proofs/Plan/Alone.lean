/-
A request with one of its aggregates.

What the items of a request are does not depend on each other, so a request with
fewer aggregates compiles if the whole one does (`stageItems_alone`). The chains
of its plan are those of the whole one that it needs, in the same order, so it
is the whole plan with joins left out (`LaysOut.thins`), and has the cells of the
whole result (`compileRequest_alone`).
-/
import Joinery.Proofs.Plan.Run
import Joinery.Proofs.Relation.Thin

namespace Joinery

open Engine (SameSlot SameColumn SamePair SameJoin SameJoins SameTarget Thins thin rank alone)

/-! ## Slots of the chains that stay -/

/-- Some of the chains of a plan, in the same order. -/
structure Fewer (few chains : List Chain) : Prop where
  rooted : Rooted few
  whole : Rooted chains
  filter : chains.filter few.contains = few

namespace Fewer

variable {few chains : List Chain}

/-- The flags of the joins that stay. -/
def flags (few chains : List Chain) : List Bool := chains.map few.contains

theorem sameSlot (h : Fewer few chains) {slot slot' : Slot} {c : Chain} (hat : At chains slot c)
    (hat' : At few slot' c) : SameSlot (true :: flags few chains) slot slot' := by
  have hall : true :: flags few chains = ([] :: chains).map fun c => decide (c = [] ∨ c ∈ few) := by
    rw [List.map_cons, flags]
    simp only [true_or, decide_true, List.cons.injEq, true_and]
    refine List.map_congr_left fun x hx => ?_
    have hne : x ≠ [] := h.whole.ne_nil x hx
    simp [hne]
  have hstays : c = [] ∨ c ∈ few := by
    by_cases hc : c = []
    · exact .inl hc
    · exact .inr (hat'.mem hc)
  have hflag : (true :: flags few chains)[slot.index]? = some true := by
    have hat : ([] :: chains)[slot.index]? = some c := hat
    rw [hall, List.getElem?_map, hat]
    simp [hstays]
  have hthin : thin (true :: flags few chains) ([] :: chains) = [] :: few := by
    rw [thin, flags, Engine.thin_map, h.filter]
  have hrank : ([] :: few)[rank (true :: flags few chains) slot.index]? = some c := by
    rw [← hthin, Engine.thin_getElem? _ hflag]
    exact hat
  have hnodup : ([] :: few).Nodup :=
    List.nodup_cons.mpr ⟨fun hnil => h.rooted.ne_nil [] hnil rfl, h.rooted.nodup⟩
  exact ⟨hflag, (List.getElem?_inj hat'.lt hnodup).mp (hat'.trans hrank.symm)⟩

/-- The joins that stay are those of the chains that stay. -/
theorem sameJoins {keep : List Bool} {q : Chain → Bool} : ∀ {es fs : List (Chain × PlannedJoin)},
    (es.map (·.1)).filter q = fs.map (·.1) →
    (∀ e ∈ es, ∀ f ∈ fs, e.1 = f.1 → SameJoin keep e.2 f.2) →
    SameJoins keep ((es.map (·.1)).map q) (es.map (·.2)) (fs.map (·.2))
  | [], fs, hf, _ => by
    have hnil : fs = [] := List.map_eq_nil_iff.mp hf.symm
    rw [hnil]
    exact .nil
  | e :: es, fs, hf, h => by
    rw [List.map_cons, List.filter_cons] at hf
    simp only [List.map_cons]
    cases hq : q e.1 with
    | false =>
      rw [hq, if_neg Bool.false_ne_true] at hf
      exact .drop (sameJoins hf fun a ha => h a (List.mem_cons_of_mem e ha))
    | true =>
      rw [hq, if_pos rfl] at hf
      cases fs with
      | nil => cases hf
      | cons f fs =>
        obtain ⟨hef, hrest⟩ := List.cons.inj hf
        refine .keep (h e List.mem_cons_self f List.mem_cons_self hef) (sameJoins hrest ?_)
        exact fun a ha b hb => h a (List.mem_cons_of_mem e ha) b (List.mem_cons_of_mem f hb)

end Fewer

namespace Store

variable {s : Store} {derive : Derive} {start : Source}

/-! ## The plan with joins left out -/

/-- The joins of one chain in two plans are one, but for where their relations stand. -/
theorem Planned.sameJoin {few chains : List Chain} (h : Fewer few chains) {c : Chain}
    {init init' : List Field} {f f' : Field} {join join' : Join} {target target' : Source}
    {j j' : PlannedJoin} {i i' : Nat} {subPlans subPlans' : List (Source × Plan)}
    (hp : Planned s chains subPlans i init f join target j)
    (hp' : Planned s few subPlans' i' init' f' join' target' j')
    (hc : c = ids (init ++ [f])) (hc' : c = ids (init' ++ [f'])) (hi : chains[i]? = some c)
    (hi' : few[i']? = some c) : SameJoin (true :: Fewer.flags few chains) j j' := by
  obtain ⟨rfl, rfl, rfl⟩ := hp.fields rfl hp' (hc ▸ hc')
  refine ⟨by rw [hp.target, hp'.target], by rw [hp.shape, hp'.shape]; rfl, ?_⟩
  have hparent := h.sameSlot hp.parent hp'.parent
  have hown := h.sameSlot (At.join hi) (At.join hi')
  have hon := hp.on
  have hon' := hp'.on
  rw [s.bind_sides, map_eq_ok_iff] at hon hon'
  obtain ⟨on, hb, hon⟩ := hon
  obtain ⟨on', hb', hon'⟩ := hon'
  obtain rfl : on = on' := Except.ok.inj (hb.symm.trans hb')
  rw [← hon, ← hon', BoundCondition.equalities_relabel, BoundCondition.equalities_relabel,
    List.forall₂_map_left_iff, List.forall₂_map_right_iff, List.forall₂_same]
  have hside (c : Column) : SameColumn (true :: Fewer.flags few chains)
      (BoundCondition.relabelColumn (sides j.parent (.join i)) c)
      (BoundCondition.relabelColumn (sides j'.parent (.join i')) c) := by
    obtain ⟨slot, field⟩ := c
    cases slot with
    | root => exact ⟨hparent, rfl⟩
    | join k => exact ⟨hown, rfl⟩
  exact fun e _ => ⟨hside e.1, hside e.2⟩

theorem keys_thin {few chains : List Chain} (h : Fewer few chains) {ks : List KeyItem}
    {keys keys' : List GroupingKey} (hk : List.Forall₂ (KeyItem.Placed chains) ks keys)
    (hk' : List.Forall₂ (KeyItem.Placed few) ks keys') :
    List.Forall₂ (fun a b => SameColumn (true :: Fewer.flags few chains) a.column b.column ∧
      b.name = a.name) keys keys' := by
  induction hk generalizing keys' with
  | nil =>
    cases hk'
    exact .nil
  | cons hx _ ih =>
    cases hk' with
    | cons hx' hrest =>
      obtain ⟨slot, hat, rfl⟩ := hx
      obtain ⟨slot', hat', rfl⟩ := hx'
      exact .cons ⟨⟨h.sameSlot hat hat', rfl⟩, rfl⟩ (ih hrest)

theorem fewer_alone {items : StageItems} {item : AggregateItem} (hitem : item ∈ items.aggregates) :
    Fewer (growAll [] (StageItems.mk items.keys [item]).chains) (growAll [] items.chains) := by
  have hbase : Rooted (growAll [] (items.keys.map (ids ·.chain))) := Rooted.nil.growAll _
  have hfew : growAll [] (StageItems.mk items.keys [item]).chains =
      grow (growAll [] (items.keys.map (ids ·.chain))) (ids item.ending.chain) := by
    rw [StageItems.chains, growAll_append]
    rfl
  have hfilter := filter_growAll hbase (List.mem_map_of_mem (f := (ids ·.ending.chain)) hitem)
  rw [← hfew, ← growAll_append, ← StageItems.chains] at hfilter
  refine ⟨Rooted.nil.growAll _, Rooted.nil.growAll _, ?_⟩
  refine Eq.trans (List.filter_congr fun c _ => ?_) hfilter
  exact List.contains_eq_mem c _

variable {items : StageItems} {item : AggregateItem} {a b : Assembly} {p q : Plan} {i : Nat}

/-- **The plan with one of the aggregates is the whole one with joins left out.** -/
theorem LaysOut.thins (h : LaysOut s derive start items a p)
    (h' : LaysOut s derive start ⟨items.keys, [item]⟩ b q) (hi : items.aggregates[i]? = some item) :
    Thins (Fewer.flags b.joins.chains a.joins.chains) i p q := by
  have hfew : Fewer b.joins.chains a.joins.chains := by
    rw [h.chains, h'.chains]
    exact fewer_alone (List.mem_of_getElem? hi)
  refine ⟨?_, keys_thin hfew h.keys h'.keys, ?_⟩
  · rw [h.joins, h'.joins]
    refine Fewer.sameJoins hfew.filter fun e he f hf hef => ?_
    obtain ⟨m, hm⟩ := List.getElem?_of_mem he
    obtain ⟨n, hn⟩ := List.getElem?_of_mem hf
    obtain ⟨init, g, join, target, hc, hp⟩ := h.laid.planned m e.1 e.2 hm
    obtain ⟨init', g', join', target', hc', hp'⟩ := h'.laid.planned n f.1 f.2 hn
    exact hp.sameJoin hfew hp' hc (hef ▸ hc') (JoinSet.chains_getElem? hm)
      (hef ▸ JoinSet.chains_getElem? hn)
  · obtain ⟨planned, hplanned, slot, hat, rfl⟩ := forall₂_getElem? h.aggregates hi
    obtain ⟨planned', rest, ⟨slot', hat', rfl⟩, hrest, hq⟩ :=
      List.forall₂_cons_left_iff.mp h'.aggregates
    cases hrest
    refine ⟨_, _, hplanned, hq, rfl, rfl, ?_⟩
    have hslot := hfew.sameSlot hat hat'
    unfold AggregateItem.place
    cases item.ending.column with
    | none => exact .rows hslot
    | some field => exact .column ⟨hslot, rfl⟩

theorem stageItems_length {stage : Stage} (h : s.stageItems derive start stage = .ok items) :
    items.keys.length = stage.groupBy.length ∧ items.aggregates.length = stage.aggregates.length := by
  obtain ⟨-, hkeys, haggregates, -⟩ := stageItems_eq_ok_iff.mp h
  exact ⟨hkeys.length_eq.symm, haggregates.length_eq.symm⟩

/-- The items of a stage with one of its aggregates are among those of the stage. -/
theorem stageItems_alone {stage : Stage} {request : AggregateRequest}
    (h : s.stageItems derive start stage = .ok items) (hi : stage.aggregates[i]? = some request) :
    ∃ item, items.aggregates[i]? = some item ∧
      s.stageItems derive start ⟨stage.groupBy, [request]⟩ = .ok ⟨items.keys, [item]⟩ := by
  obtain ⟨hrows, hkeys, haggregates, hnames⟩ := stageItems_eq_ok_iff.mp h
  obtain ⟨item, hitem, hone⟩ := forall₂_getElem? haggregates hi
  have hsub : (StageItems.mk items.keys [item]).names.Sublist items.names :=
    List.Sublist.append (List.Sublist.refl _)
      (List.Sublist.map _ (List.singleton_sublist.mpr (List.mem_of_getElem? hitem)))
  exact ⟨item, hitem,
    stageItems_eq_ok_iff.mpr ⟨hrows, hkeys, .cons hone .nil, hnames.sublist hsub⟩⟩

/-- **Aggregates do not depend on each other.** If a request runs, it runs with each one of its
aggregates alone, and gives the same rows with the same keys and the same cells of that aggregate:
whatever the other aggregates join does not show in it. -/
theorem Reachable.aggregates_alone (hs : s.Reachable) {tables : Tables} {request : Request}
    {plan : Plan} {result : Result} (hplan : s.compileRequest request = .ok plan)
    (hrun : Engine.run tables plan = .ok result) {i : Nat} {aggregate : AggregateRequest}
    (hi : request.aggregates[i]? = some aggregate) :
    (∀ row ∈ result.rows, row.length = request.groupBy.length + request.aggregates.length) ∧
    ∃ plan' result',
      s.compileRequest { request with aggregates := [aggregate] } = .ok plan' ∧
      Engine.run tables plan' = .ok result' ∧
      result'.columns = alone request.groupBy.length i result.columns ∧
      result'.rows = result.rows.map (alone request.groupBy.length i) := by
  obtain ⟨start, items, a, hstart, hitems, hlaid⟩ := compileRequest_laysOut hs.coherent hplan
  obtain ⟨item, hitem, hone⟩ := stageItems_alone hitems hi
  obtain ⟨plan', hplan', b, hlaid'⟩ :=
    (compileStage_agree hs.coherent (sourceNamed?_mem hstart) _).left hone
  have hthins := hlaid.thins hlaid' hitem
  obtain ⟨base, targets, hbase, htargets, heval⟩ := hlaid.run_eq_ok_iff.mp hrun
  obtain ⟨result', heval', hcolumns, hrows⟩ := Engine.evaluateOn_thin hthins heval
  have htargets' : List.Forall₂ (s.GivesTarget (s.derive []) tables) plan'.joins
      (thin (Fewer.flags b.joins.chains a.joins.chains) targets) :=
    hthins.joins.forall₂ (fun j j' r hj hr => by unfold GivesTarget at hr ⊢; rwa [hj]) htargets
  have hkeys : plan.groupBy.length = request.groupBy.length :=
    hlaid.keys.length_eq.symm.trans (stageItems_length hitems).1
  have haggregates : plan.aggregates.length = request.aggregates.length :=
    hlaid.aggregates.length_eq.symm.trans (stageItems_length hitems).2
  rw [hkeys] at hcolumns hrows
  refine ⟨fun row hrow => ?_, plan', result', ?_, ?_, hcolumns, hrows⟩
  · rw [(Engine.evaluateOn_length heval).2 row hrow, hkeys, haggregates]
  · simp only [compileRequest, compile, hstart]
    exact hplan'
  · exact hlaid'.run_eq_ok_iff.mpr ⟨base, _, hbase, htargets', heval'⟩

/-- What the customers of each region have spent, next to a count of their orders, which repeats the
customers, and without it. -/
theorem aggregates_alone_shop :
    let spent : AggregateRequest := ⟨none, some .sum, some ⟨["spending", "total"]⟩⟩
    let request : Request := ⟨"customers", [⟨["region"]⟩], [⟨none, some .count, some ⟨["orders"]⟩⟩, spent]⟩
    shop.Reachable ∧ request.aggregates[1]? = some spent ∧
      ∃ plan result plan' result', shop.compileRequest request = .ok plan ∧
        Engine.run shopTables plan = .ok result ∧
        shop.compileRequest { request with aggregates := [spent] } = .ok plan' ∧
        Engine.run shopTables plan' = .ok result' ∧ result'.rows = result.rows.map (alone 1 1) := by
  intro spent request
  obtain ⟨plan, result, hplan, hrun⟩ :=
    exists_run shopTables (shop.compileRequest request) (by decide +kernel)
  obtain ⟨-, plan', result', hplan', hrun', -, hrows⟩ :=
    shop_reachable.aggregates_alone hplan hrun (i := 1) rfl
  exact ⟨shop_reachable, rfl, plan, result, plan', result', hplan, hrun, hplan', hrun', hrows⟩

end Store

end Joinery
