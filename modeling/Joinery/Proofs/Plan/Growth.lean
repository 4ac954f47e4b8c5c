/-
Plans are stable while a model grows.

Each step of compiling asks the store for things that are there, so what
succeeds on a store succeeds with the same outcome on its extensions, and with
any way to derive that succeeds where the old one did. The plan of a derived
source is stable by induction on the trail, and with it the plan of a request
(`Grows.compileRequest_stable`).
-/
import Joinery.Proofs.Plan.Item
import Joinery.Proofs.Store.Growth

namespace Joinery.Store

namespace Extends

variable {s t : Store} {d e : Derive}

/-! ## Paths -/

theorem lookup (h : Extends s t) (here : Source) (segment : String) (position : Nat) :
    Kept (s.lookup here segment position) (t.lookup here segment position) := by
  intro f hf
  simp only [Store.lookup, h.fieldNamed? (lookup_eq_ok hf)]

theorem follow (h : Extends s t) (here : Source) (f : Field) :
    Kept (s.follow here f) (t.follow here f) := by
  intro target ht
  obtain ⟨join, hj, hs⟩ := Option.bind_eq_some_iff.mp (h.target? (follow_eq_ok ht))
  simp only [Store.follow, hj, hs]

theorem walk (h : Extends s t) : ∀ (segments : List String) (here : Source) (position : Nat),
    Kept (s.walk here position segments) (t.walk here position segments)
  | [], _, _ => .error
  | [final], here, position => by
    simp only [Store.walk]
    exact (h.lookup here final position).bind fun _ _ => .refl _
  | segment :: next :: rest, here, position => by
    simp only [Store.walk]
    refine (h.lookup here segment position).bind fun f _ => ?_
    refine (h.follow here f).bind fun target _ => ?_
    exact (h.walk (next :: rest) target (position + 1)).bind fun _ _ => .refl _

/-- Whether a path is qualified stays as it is: a field of the name of its source is there from the
start or does not come in. -/
theorem isQualified (h : Extends s t) {start : Source} (hs : start ∈ s.sources) :
    ∀ segments : List String, t.isQualified start segments = s.isQualified start segments
  | [] | [_] => rfl
  | first :: _ :: _ => by
    simp only [Store.isQualified]
    by_cases hname : first = start.name
    · subst hname
      cases hf : s.fieldNamed? start.id start.name with
      | none => rw [h.unshadowed start hs hf]
      | some f => rw [h.fieldNamed? hf]
    · rw [beq_eq_false_iff_ne.mpr hname, Bool.false_and, Bool.false_and]

theorem resolveFrom (h : Extends s t) {start : Source} (hs : start ∈ s.sources) (path : Path) :
    Kept (s.resolveFrom start path) (t.resolveFrom start path) := by
  simp only [Store.resolveFrom, h.isQualified hs]
  split
  · exact h.walk _ start 1
  · exact h.walk _ start 0

/-! ## Conditions -/

theorem side (h : Extends s t) (f : Field) (reference : Path) (parent own : Slot) :
    Kept (s.side f reference parent own) (t.side f reference parent own) := by
  intro x hx
  simp only [Store.side] at hx ⊢
  split at hx
  · exact hx
  · split at hx
    · split at hx
      · next target ht => rw [if_pos ‹_›, h.target? ht]; exact hx
      · cases hx
    · cases hx
  · cases hx

theorem bindReference (h : Extends s t) (f : Field) (parent own : Slot) (reference : Path) :
    Kept (s.bindReference f parent own reference) (t.bindReference f parent own reference) := by
  refine (h.side f reference parent own).bind fun ⟨source, slot, name⟩ _ => fun x hx => ?_
  simp only at hx ⊢
  split at hx
  · cases hx
  · next g hg =>
    rw [h.fieldNamed? hg]
    cases hk : g.kind with
    | scalar => simpa only [hk] using hx
    | aggregate | join => simp only [hk] at hx; cases hx

mutual
theorem bind (h : Extends s t) (f : Field) (parent own : Slot) :
    ∀ on : Condition, Kept (s.bind f parent own on) (t.bind f parent own on)
  | .equal left right => by
    simp only [Store.bind]
    refine (h.bindReference f parent own left).bind fun _ _ => ?_
    exact (h.bindReference f parent own right).bind fun _ _ => .refl _
  | .all kids => by
    simp only [Store.bind]
    exact (h.bindAll f parent own kids).bind fun _ _ => .refl _

theorem bindAll (h : Extends s t) (f : Field) (parent own : Slot) :
    ∀ kids : List Condition, Kept (s.bindAll f parent own kids) (t.bindAll f parent own kids)
  | [] => .refl _
  | on :: kids => by
    simp only [Store.bindAll]
    refine (h.bind f parent own on).bind fun _ _ => ?_
    exact (h.bindAll f parent own kids).bind fun _ _ => .refl _
end

/-! ## Chains -/

theorem push (h : Extends s t) (js : JoinSet) {chain : List Field} (hc : ∀ f ∈ chain, f.owner < s.sources.length)
    (parent : Slot) (subPlan : Option Nat) :
    Kept (js.push s chain parent subPlan) (js.push t chain parent subPlan) := by
  intro x hx
  simp only [JoinSet.push] at hx ⊢
  split at hx
  · exact hx
  · cases hx
  · next f _ hlast =>
    split at hx
    · next join hk =>
      rw [h.sourceName (hc f (List.mem_of_getLast? hlast))]
      exact ((h.bind f parent (.join js.entries.length) join.on).bind fun _ _ => .refl _) x hx
    · cases hx

theorem needSubPlan (hd : ∀ name, Kept (d name) (e name)) (a : Assembly) (source : Source) :
    Kept (Store.needSubPlan d a source) (Store.needSubPlan e a source) := by
  simp only [Store.needSubPlan]
  split
  · exact .refl _
  · exact (hd source.name).bind fun _ _ => .refl _

theorem rowsOf (hd : ∀ name, Kept (d name) (e name)) (a : Assembly) (source : Source) :
    Kept (Store.rowsOf d a source) (Store.rowsOf e a source) := by
  simp only [Store.rowsOf]
  split
  · exact .refl _
  · exact (needSubPlan hd a source).bind fun _ _ => .refl _

theorem addJoin (h : Extends s t) (hd : ∀ name, Kept (d name) (e name)) (a : Assembly)
    {chain : List Field} (hc : ∀ f ∈ chain, f.owner < s.sources.length) (f : Field) (parent : Slot) :
    Kept (s.addJoin d a chain f parent) (t.addJoin e a chain f parent) := by
  simp only [Store.addJoin]
  split
  · exact .refl _
  · cases ht : s.target? f with
    | none => exact .error
    | some target =>
      rw [h.target? ht]
      refine (rowsOf hd a target).bind fun ⟨subPlan, a⟩ _ => ?_
      exact (h.push a.joins hc parent subPlan).bind fun _ _ => .refl _

theorem addRest (h : Extends s t) (hd : ∀ name, Kept (d name) (e name)) :
    ∀ (rest walked : List Field) (a : Assembly) (slot : Slot),
      (∀ f ∈ walked ++ rest, f.owner < s.sources.length) →
      Kept (s.addRest d a walked slot rest) (t.addRest e a walked slot rest)
  | [], _, _, _, _ => .refl _
  | f :: rest, walked, a, slot, hc => by
    simp only [Store.addRest]
    have hwalked : ∀ g ∈ walked ++ [f], g.owner < s.sources.length := fun g hg => by
      refine hc g ?_
      simp only [List.mem_append, List.mem_cons, List.not_mem_nil, or_false] at hg ⊢
      exact hg.imp_right .inl
    refine (h.addJoin hd a hwalked f slot).bind fun ⟨next, a⟩ _ => ?_
    exact h.addRest hd rest (walked ++ [f]) a next (by simpa using hc)

theorem addChain (h : Extends s t) (hd : ∀ name, Kept (d name) (e name)) (a : Assembly)
    {chain : List Field} (hc : ∀ f ∈ chain, f.owner < s.sources.length) :
    Kept (s.addChain d a chain) (t.addChain e a chain) :=
  h.addRest hd chain [] a .root hc

/-! ## Items -/

theorem resolveRequested (h : Extends s t) {start : Source} (hs : start ∈ s.sources) (path : Path) :
    Kept (s.resolveRequested start path) (t.resolveRequested start path) :=
  (h.resolveFrom hs path).mapError

theorem keyEnd (h : Extends s t) (path : Path) (r : Resolved) :
    Kept (s.keyEnd path r) (t.keyEnd path r) := by
  intro x hx
  simp only [Store.keyEnd] at hx ⊢
  split at hx
  · exact hx
  · cases hx
  · split at hx
    · cases hx
    · next target ht =>
      rw [h.sourceNamed? ht]
      split at hx
      · cases hx
      · next key hkey =>
        obtain ⟨name, hn, hf⟩ := Option.bind_eq_some_iff.mp hkey
        simp only [hn, Option.bind_some, h.fieldNamed? hf]
        exact hx

theorem appliedEnd (h : Extends s t) (request : AggregateRequest) (path : Path) (op : Operator)
    (joins : List Field) (f : Field) :
    Kept (s.appliedEnd request path op joins f) (t.appliedEnd request path op joins f) := by
  intro x hx
  simp only [Store.appliedEnd] at hx ⊢
  split at hx
  · exact hx
  · cases hx
  · split at hx
    · split at hx
      · cases hx
      · next target ht => rw [if_pos ‹_›, h.target? ht]; exact hx
    · cases hx

theorem definedEnd (h : Extends s t) (request : AggregateRequest) (path : Path) {r : Resolved}
    (hr : r.source ∈ s.sources) :
    Kept (s.definedEnd request path r) (t.definedEnd request path r) := by
  simp only [Store.definedEnd]
  split
  · exact .error
  next definition _ =>
  split
  · exact .refl _
  next inner _ =>
  refine (h.resolveFrom hr inner).mapError.bind fun i _ => ?_
  exact (h.appliedEnd request path definition.op (r.joins ++ i.joins) i.field).bind fun _ _ => .refl _

theorem aggregateEnd (h : Extends s t) {start : Source} (hs : start ∈ s.sources)
    (request : AggregateRequest) :
    Kept (s.aggregateEnd start request) (t.aggregateEnd start request) := by
  simp only [Store.aggregateEnd]
  split
  · exact .error
  · exact .refl _
  · exact (h.resolveRequested hs _).bind fun r _ => h.appliedEnd request _ _ r.joins r.field
  · refine (h.resolveRequested hs _).bind fun r hr => ?_
    exact h.definedEnd request _ (resolveFrom_source hs (resolveRequested_eq_ok hr))

theorem addKey (h : Extends s t) (hs : s.Coherent) (hd : ∀ name, Kept (d name) (e name))
    {start : Source} (hstart : start ∈ s.sources) (a : Assembly) (path : Path) :
    Kept (s.addKey d start a path) (t.addKey e start a path) := by
  simp only [Store.addKey]
  refine (h.resolveRequested hstart path).bind fun r hr => ?_
  have hj := (resolveFrom_fields (resolveRequested_eq_ok hr)).1
  refine (h.addChain hd a fun f hf => hs.owners f (hj f hf)).bind fun ⟨_, a⟩ _ => ?_
  refine (h.keyEnd path r).bind fun k hk => ?_
  have hc := keyEnd_fields hr hk
  exact (h.addChain hd a fun f hf => hs.owners f (hc f hf)).bind fun _ _ => .refl _

theorem addAggregate (h : Extends s t) (hs : s.Coherent) (hd : ∀ name, Kept (d name) (e name))
    {start : Source} (hstart : start ∈ s.sources) (a : Assembly) (request : AggregateRequest) :
    Kept (s.addAggregate d start a request) (t.addAggregate e start a request) := by
  simp only [Store.addAggregate]
  refine (h.aggregateEnd hstart request).bind fun x hx => ?_
  have hc := aggregateEnd_fields hx
  exact (h.addChain hd a fun f hf => hs.owners f (hc f hf)).bind fun _ _ => .refl _

/-! ## Stages -/

theorem addKeys (h : Extends s t) (hs : s.Coherent) (hd : ∀ name, Kept (d name) (e name))
    {start : Source} (hstart : start ∈ s.sources) : ∀ (paths : List Path) (a : Assembly),
    Kept (s.addKeys d start a paths) (t.addKeys e start a paths)
  | [], _ => .refl _
  | path :: paths, a => by
    simp only [Store.addKeys]
    refine (h.addKey hs hd hstart a path).mapError.bind fun ⟨_, a⟩ _ => ?_
    exact (h.addKeys hs hd hstart paths a).bind fun _ _ => .refl _

theorem addAggregates (h : Extends s t) (hs : s.Coherent) (hd : ∀ name, Kept (d name) (e name))
    {start : Source} (hstart : start ∈ s.sources) :
    ∀ (requests : List AggregateRequest) (a : Assembly),
      Kept (s.addAggregates d start a requests) (t.addAggregates e start a requests)
  | [], _ => .refl _
  | request :: requests, a => by
    simp only [Store.addAggregates]
    refine (h.addAggregate hs hd hstart a request).mapError.bind fun ⟨_, a⟩ _ => ?_
    exact (h.addAggregates hs hd hstart requests a).bind fun _ _ => .refl _

theorem compileStage (h : Extends s t) (hs : s.Coherent) (hd : ∀ name, Kept (d name) (e name))
    {start : Source} (hstart : start ∈ s.sources) (stage : Stage) :
    Kept (s.compileStage d start stage) (t.compileStage e start stage) := by
  simp only [Store.compileStage, Store.baseOf, bind_assoc, pure_bind]
  refine (rowsOf hd .empty start).bind fun ⟨_, a⟩ _ => ?_
  refine (h.addKeys hs hd hstart stage.groupBy a).bind fun ⟨_, a⟩ _ => ?_
  exact (h.addAggregates hs hd hstart stage.aggregates a).bind fun _ _ => .refl _

theorem compileQueryOf (h : Extends s t) (hs : s.Coherent) (hd : ∀ name, Kept (d name) (e name))
    (owner : String) (query : Query) :
    Kept (s.compileQueryOf d owner query) (t.compileQueryOf e owner query) := by
  simp only [Store.compileQueryOf]
  split
  · cases hq : s.sourceNamed? query.source with
    | none => exact .error
    | some start =>
      rw [h.sourceNamed? hq]
      exact h.compileStage hs hd (sourceNamed?_mem hq) _
  · exact .error

end Extends

/-! ## Derived sources -/

/-- Deriving without the proofs that it ends. -/
theorem derive_eq (s : Store) (trail : List String) (name : String) : s.derive trail name =
    if trail.contains name then .error (.cyclicDerivation (trail ++ [name]))
    else match s.sourceNamed? name with
      | none => .error (.internal (.notDerived name))
      | some source =>
        match source.query with
        | none => .error (.internal (.notDerived name))
        | some query =>
          (s.compileQueryOf (s.derive (trail ++ [name])) name query).mapError (.within name) := by
  rw [derive]
  split
  · rfl
  · split
    · next hn => simp only [hn]
    · next source hs => cases hq : source.query <;> simp only [hs, hq]

/-- A derived source has a plan when its name is not on the trail and its query compiles with the
name put there. -/
theorem derive_eq_ok_iff {s : Store} {trail : List String} {name : String} {plan : Plan} :
    s.derive trail name = .ok plan ↔ name ∉ trail ∧ ∃ source query,
      s.sourceNamed? name = some source ∧ source.query = some query ∧
      s.compileQueryOf (s.derive (trail ++ [name])) name query = .ok plan := by
  rw [derive_eq]
  by_cases ht : name ∈ trail
  · simp [ht]
  rw [if_neg (by simpa using ht)]
  cases s.sourceNamed? name with
  | none => simp
  | some source => cases hq : source.query <;> simp [ht, hq, mapError_eq_ok_iff]

/-- A trail leaves as much room in an extension, so the induction is on the room of the smaller
store. -/
theorem Extends.derive {s t : Store} (h : Extends s t) (hs : s.Coherent) (trail : List String)
    (name : String) : Kept (s.derive trail name) (t.derive trail name) := by
  intro plan hp
  obtain ⟨htrail, source, query, hsource, hq, hc⟩ := derive_eq_ok_iff.mp hp
  have := room_lt hsource (by simpa using htrail)
  have hd := fun m => Extends.derive h hs (trail ++ [name]) m
  exact derive_eq_ok_iff.mpr
    ⟨htrail, source, query, h.sourceNamed? hsource, hq, h.compileQueryOf hs hd name query plan hc⟩
termination_by s.room trail

theorem Extends.compile {s t : Store} (h : Extends s t) (hs : s.Coherent) (start : String)
    (stage : Stage) : Kept (s.compile start stage) (t.compile start stage) := by
  simp only [Store.compile]
  cases hq : s.sourceNamed? start with
  | none => exact .error
  | some source =>
    rw [h.sourceNamed? hq]
    exact h.compileStage hs (h.derive hs []) (sourceNamed?_mem hq) stage

/-- **Plans are stable.** A request that compiles on a store compiles to the same plan after any
operations, unless one of them gives a source that was defined a field of the source's own name. -/
theorem Grows.compileRequest_stable {s t : Store} (hs : s.Reachable) (h : Grows s t) {request : Request}
    {plan : Plan} (hp : s.compileRequest request = .ok plan) : t.compileRequest request = .ok plan :=
  (h.extends hs.coherent).compile hs.coherent request.source request.stage plan hp

/-- What regions a customer's orders go to, and what the customer has spent, before and after the
customers have got a name and the sources another join. -/
theorem compileRequest_stable_shop :
    let request : Request :=
      ⟨"customers", [⟨["orders", "customer", "region"]⟩], [⟨none, some .max, some ⟨["spending", "total"]⟩⟩]⟩
    let grown := [.apply [⟨"customers", ⟨"name", .scalar⟩⟩],
      .defineSource "regions" [⟨"id", .scalar⟩, ⟨"regions", .scalar⟩] none,
      .addJoinField "orders" "home" "regions" .one (.all [])].foldl attempt shop
    shop.Reachable ∧ Grows shop grown ∧
      ∃ plan, shop.compileRequest request = .ok plan ∧ grown.compileRequest request = .ok plan := by
  intro request grown
  have hg : Grows shop grown := Grows.refl.attempts (by simp [Operation.Shadows, Operation.amendments])
  have hsome : (shop.compileRequest request).toOption.isSome = true := by decide +kernel
  cases hp : shop.compileRequest request with
  | error e => rw [hp] at hsome; cases hsome
  | ok plan => exact ⟨shop_reachable, hg, plan, rfl, Grows.compileRequest_stable shop_reachable hg hp⟩

end Joinery.Store
