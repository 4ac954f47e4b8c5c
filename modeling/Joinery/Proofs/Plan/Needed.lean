/-
The joins of a plan are the ones that its items need.

What an item needs is read off its path: the joins on the way to a scalar, the
join at the end of a path as well, and for a defined aggregate what its own path
needs behind the joins on the way to it. A plan has one join for each beginning
of these chains, in the order in which they first occur, on the relation of the
beginning before it (`Reachable.joins_needed`).
-/
import Joinery.Proofs.Plan.Stage
import Joinery.Proofs.Relation.Repeats

namespace Joinery

/-! ## Beginnings -/

/-- The beginnings of a chain that are not empty, the shorter before the longer. -/
def beginnings (c : Chain) : List Chain := c.inits.tail

/-- The beginnings of some chains, each once, where it first occurs. -/
def allBeginnings (cs : List Chain) : List Chain := (cs.flatMap beginnings).eraseDups

/-- The relation of a chain among the joins of some chains: the root for the empty one. -/
def slotOf (chains : List Chain) (c : Chain) : Slot :=
  if c = [] then .root else .join (chains.idxOf c)

theorem growRest_eq_foldl : ∀ (rest : Chain) (chains : List Chain) (walked : Chain),
    growRest chains walked rest = ((beginnings rest).map (walked ++ ·)).foldl addOne chains
  | [], _, _ => rfl
  | f :: rest, chains, walked => by
    have hrest : rest.inits = [] :: beginnings rest := by cases rest <;> simp [beginnings]
    have hcons : (beginnings (f :: rest)).map (walked ++ ·) =
        (walked ++ [f]) :: (beginnings rest).map (walked ++ [f] ++ ·) := by
      rw [beginnings, List.inits_cons, List.tail_cons, hrest]
      simp
    rw [growRest, growRest_eq_foldl rest, hcons, List.foldl_cons]

theorem growAll_eq_foldl : ∀ (cs chains : List Chain),
    growAll chains cs = (cs.flatMap beginnings).foldl addOne chains
  | [], _ => rfl
  | c :: cs, chains => by
    have hc : grow chains c = (beginnings c).foldl addOne chains := by
      rw [grow, growRest_eq_foldl]
      simp
    rw [List.flatMap_cons, List.foldl_append, ← hc, ← growAll_eq_foldl cs]
    rfl

/-- Coming in one after another, only what is new, is what erasing repeats leaves. -/
theorem foldl_addOne (xs : List Chain) : xs.foldl addOne [] = xs.eraseDups := by
  induction xs using List.reverseRecOn with
  | nil => rfl
  | append_singleton xs x ih =>
    rw [List.foldl_append, ih, List.eraseDups_append, List.foldl_cons, List.foldl_nil, addOne]
    by_cases hx : x ∈ xs
    · simp [hx, List.removeAll]
    · simp [hx, List.removeAll, List.eraseDups_cons]

theorem growAll_eq (cs : List Chain) : growAll [] cs = allBeginnings cs := by
  rw [growAll_eq_foldl, foldl_addOne, allBeginnings]

theorem At.eq_slotOf {chains : List Chain} (hr : Rooted chains) {slot : Slot} {c : Chain}
    (h : At chains slot c) : slot = slotOf chains c := by
  refine h.unique hr ?_
  unfold slotOf
  split
  · next hc => rw [hc]; exact At.root
  · next hc => exact At.join (List.getElem?_idxOf (h.mem hc))

/-! ## What an item needs -/

/-- The joins that the end of a path needs: those on the way, and the join that it ends at. -/
def Resolved.needs (r : Resolved) : List Field :=
  match r.field.kind with
  | .join _ => r.joins ++ [r.field]
  | _ => r.joins

namespace Store

/-- The joins that a grouping path needs. -/
def keyNeeds (s : Store) (start : Source) (path : Path) : Except ResolutionError (List Field) := do
  return (← s.resolveFrom start path).needs

/-- The joins that the aggregate that a field defines needs: those on the way to the field, and
behind them those that the path of the definition needs. -/
def definedNeeds (s : Store) (r : Resolved) : Except ResolutionError (List Field) :=
  match r.field.kind.aggregate?.bind (·.path) with
  | none => .ok r.joins
  | some inner => do return r.joins ++ (← s.resolveFrom r.source inner).needs

/-- The joins that an aggregate needs. -/
def aggregateNeeds (s : Store) (start : Source) (request : AggregateRequest) :
    Except ResolutionError (List Field) :=
  match request.op, request.path with
  | _, none => .ok []
  | some _, some path => do return (← s.resolveFrom start path).needs
  | none, some path => do s.definedNeeds (← s.resolveFrom start path)

variable {s : Store} {derive : Derive} {start : Source}

theorem keyEnd_needs {path : Path} {r : Resolved} {e : KeyEnd} (h : s.keyEnd path r = .ok e) :
    e.chain = r.needs := by
  unfold keyEnd at h
  unfold Resolved.needs
  cases hk : r.field.kind with
  | scalar => rw [hk] at h; cases h; rfl
  | aggregate _ => rw [hk] at h; cases h
  | join join =>
    simp only [hk] at h
    split at h
    · cases h
    · split at h
      · cases h
      · cases h; rfl

theorem appliedEnd_needs {request : AggregateRequest} {path : Path} {op : Operator}
    {before : List Field} {r : Resolved} {e : AggregateEnd}
    (h : s.appliedEnd request path op (before ++ r.joins) r.field = .ok e) :
    e.chain = before ++ r.needs := by
  unfold appliedEnd at h
  unfold Resolved.needs
  cases hk : r.field.kind with
  | scalar => rw [hk] at h; cases h; rfl
  | aggregate _ => rw [hk] at h; cases h
  | join join =>
    simp only [hk] at h
    split at h
    · split at h
      · cases h
      · cases h; simp
    · cases h

theorem definedEnd_needs {request : AggregateRequest} {path : Path} {r : Resolved} {e : AggregateEnd}
    (h : s.definedEnd request path r = .ok e) : s.definedNeeds r = .ok e.chain := by
  unfold definedEnd at h
  unfold definedNeeds
  split at h
  · cases h
  next definition hdefinition =>
  rw [hdefinition, Option.bind_some]
  cases hpath : definition.path with
  | none =>
    simp only [hpath, bind_eq_ok_iff, pure_eq_ok_iff] at h
    obtain ⟨e, he, rfl⟩ := h
    simp only [rowsEnd_chain he]
  | some inner =>
    simp only [hpath, bind_eq_ok_iff, pure_eq_ok_iff, mapError_eq_ok_iff] at h
    obtain ⟨i, hi, e, he, rfl⟩ := h
    simp only [hi]
    exact congrArg _ (appliedEnd_needs he).symm

theorem keyItem_needs {path : Path} {k : KeyItem} (h : s.keyItem derive start path = .ok k) :
    s.keyNeeds start path = .ok k.chain := by
  simp only [keyItem, bind_eq_ok_iff, pure_eq_ok_iff] at h
  obtain ⟨r, hr, _, _, e, he, _, _, rfl⟩ := h
  rw [keyNeeds, resolveRequested_eq_ok hr]
  exact congrArg _ (keyEnd_needs he).symm

theorem aggregateEnd_needs {request : AggregateRequest} {e : AggregateEnd}
    (he : s.aggregateEnd start request = .ok e) : s.aggregateNeeds start request = .ok e.chain := by
  unfold aggregateEnd at he
  unfold aggregateNeeds
  split at he
  · cases he
  · next op hop hpath => rw [hpath, rowsEnd_chain he]
  · next op path hop hpath =>
    obtain ⟨r, hr, he⟩ := bind_eq_ok_iff.mp he
    have he : s.appliedEnd request path op ([] ++ r.joins) r.field = .ok e := he
    simp only [hpath, hop, resolveRequested_eq_ok hr]
    exact congrArg _ (appliedEnd_needs he).symm
  · next path hop hpath =>
    obtain ⟨r, hr, he⟩ := bind_eq_ok_iff.mp he
    have hr := resolveRequested_eq_ok hr
    simp only [hpath, hop, hr]
    exact definedEnd_needs he

theorem aggregateItem_needs {request : AggregateRequest} {i : AggregateItem}
    (h : s.aggregateItem derive start request = .ok i) :
    s.aggregateNeeds start request = .ok i.ending.chain := by
  simp only [aggregateItem, bind_eq_ok_iff, pure_eq_ok_iff] at h
  obtain ⟨e, he, _, _, rfl⟩ := h
  exact aggregateEnd_needs he

theorem Laid.joins_eq {a : Assembly} (h : Laid s derive start a) :
    a.joins.joins.map (fun j => (some j.field, j.parent)) =
      a.joins.chains.map fun c => (c.getLast?, slotOf a.joins.chains c.dropLast) := by
  rw [JoinSet.joins, JoinSet.chains, List.map_map, List.map_map]
  refine List.map_congr_left fun e he => ?_
  obtain ⟨i, hi⟩ := List.getElem?_of_mem he
  obtain ⟨init, f, join, target, hc, hp⟩ := h.planned i e.1 e.2 hi
  have hfield : e.2.field = f.id := congrArg PlannedJoin.field hp.shape
  have hparent := hp.parent.eq_slotOf h.rooted
  have hc : e.1 = ids init ++ [f.id] := by rw [hc, ids_append]; rfl
  simp only [Function.comp_apply, hc, List.getLast?_concat, List.dropLast_concat, hfield, hparent]
  rfl

/-- A join hangs off the root or an earlier join. -/
theorem Laid.parent_before {a : Assembly} (h : Laid s derive start a) {i k : Nat} {j : PlannedJoin}
    (hj : a.joins.joins[i]? = some j) (hk : j.parent = .join k) : k < i := by
  rw [JoinSet.joins, List.getElem?_map] at hj
  obtain ⟨⟨c, j⟩, hi, rfl⟩ := Option.map_eq_some_iff.mp hj
  obtain ⟨_, _, _, _, _, hp⟩ := h.planned i c j hi
  have hbefore : j.parent.index ≤ i := hp.before
  rwa [hk] at hbefore

theorem stageItems_needs {stage : Stage} {items : StageItems}
    (h : s.stageItems derive start stage = .ok items) :
    stage.groupBy.mapM (s.keyNeeds start) = .ok (items.keys.map (·.chain)) ∧
    stage.aggregates.mapM (s.aggregateNeeds start) = .ok (items.aggregates.map (·.ending.chain)) := by
  obtain ⟨-, hkeys, haggregates, -⟩ := stageItems_eq_ok_iff.mp h
  rw [mapM_eq_ok_iff, mapM_eq_ok_iff, List.forall₂_map_right_iff, List.forall₂_map_right_iff]
  exact ⟨hkeys.imp fun _ _ => keyItem_needs, haggregates.imp fun _ _ => aggregateItem_needs⟩

/-- **The joins of a plan are the ones that its items need**, one for each beginning of their chains:
each is its last field on the relation of the rest, which comes before it, and every item is at the
relation of its own chain. -/
theorem Reachable.joins_needed (hs : s.Reachable) {request : Request} {plan : Plan}
    (h : s.compileRequest request = .ok plan) : ∃ start keyChains aggregateChains,
      s.sourceNamed? request.source = some start ∧
      request.groupBy.mapM (s.keyNeeds start) = .ok keyChains ∧
      request.aggregates.mapM (s.aggregateNeeds start) = .ok aggregateChains ∧
      let chains := allBeginnings (keyChains.map ids ++ aggregateChains.map ids)
      plan.joins.map (fun j : PlannedJoin => (some j.field, j.parent)) =
        chains.map (fun c => (c.getLast?, slotOf chains c.dropLast)) ∧
      (∀ (i k : Nat) (j : PlannedJoin), plan.joins[i]? = some j → j.parent = .join k → k < i) ∧
      plan.groupBy.map (·.column.slot) = (keyChains.map ids).map (slotOf chains) ∧
      plan.aggregates.map (·.target.slot) = (aggregateChains.map ids).map (slotOf chains) := by
  obtain ⟨start, items, a, hstart, hitems, hlaid⟩ := compileRequest_laysOut hs.coherent h
  obtain ⟨hkeys, haggregates⟩ := stageItems_needs hitems
  refine ⟨start, _, _, hstart, hkeys, haggregates, ?_⟩
  have hchains : a.joins.chains = allBeginnings ((items.keys.map (·.chain)).map ids ++
      (items.aggregates.map (·.ending.chain)).map ids) := by
    rw [hlaid.chains, growAll_eq, StageItems.chains, List.map_map, List.map_map]
    rfl
  simp only [← hchains]
  have hr := hlaid.laid.rooted
  refine ⟨hlaid.joins ▸ hlaid.laid.joins_eq, fun i k j hj hk => ?_, ?_, ?_⟩
  · exact hlaid.laid.parent_before (hlaid.joins ▸ hj) hk
  · rw [List.map_map, List.map_map]
    refine (forall₂_map_eq (fun k key ⟨slot, hat, hk⟩ => ?_) hlaid.keys).symm
    rw [hk]
    exact (hat.eq_slotOf hr).symm
  · rw [List.map_map, List.map_map]
    refine (forall₂_map_eq (fun i planned ⟨slot, hat, hi⟩ => ?_) hlaid.aggregates).symm
    rw [hi, AggregateItem.place]
    cases i.ending.column <;> exact (hat.eq_slotOf hr).symm

/-- A path that comes back to the customers and their orders walks both joins twice, and shares the
first of each with another path. -/
theorem joins_needed_shop :
    let request : Request :=
      ⟨"customers", [⟨["orders", "customer", "orders", "customer", "region"]⟩, ⟨["orders", "customer"]⟩],
        [⟨none, some .max, some ⟨["spending", "total"]⟩⟩, ⟨none, some .count, none⟩]⟩
    shop.Reachable ∧ ∃ plan, shop.compileRequest request = .ok plan ∧
      plan.joins.map (fun j : PlannedJoin => (some j.field, j.parent)) =
        [(some 6, .root), (some 5, .join 0), (some 6, .join 1), (some 5, .join 2), (some 9, .root)] ∧
      plan.groupBy.map (·.column.slot) = [.join 3, .join 1] ∧
      plan.aggregates.map (·.target.slot) = [.join 4, .root] := by
  intro request
  obtain ⟨plan, hplan⟩ := exists_ok (x := shop.compileRequest request) (by decide +kernel)
  obtain ⟨start, keys, aggregates, hstart, hkeys, haggregates, hjoins, -, hkeySlots, hslots⟩ :=
    shop_reachable.joins_needed hplan
  cases hstart
  let customers : Source := ⟨0, "customers", some "id", none⟩
  have hkeyIds : keys.map ids = [[6, 5, 6, 5], [6, 5]] := by
    have hids : (request.groupBy.mapM (shop.keyNeeds customers)).toOption.map (·.map ids) =
        some [[6, 5, 6, 5], [6, 5]] := by decide +kernel
    exact Option.some.inj ((congrArg (·.toOption.map (·.map ids)) hkeys).symm.trans hids)
  have haggregateIds : aggregates.map ids = [[9], []] := by
    have hids : (request.aggregates.mapM (shop.aggregateNeeds customers)).toOption.map (·.map ids) =
        some [[9], []] := by decide +kernel
    exact Option.some.inj ((congrArg (·.toOption.map (·.map ids)) haggregates).symm.trans hids)
  rw [hkeyIds, haggregateIds] at hjoins hkeySlots hslots
  exact ⟨shop_reachable, plan, hplan, hjoins, hkeySlots, hslots⟩

end Store

end Joinery
