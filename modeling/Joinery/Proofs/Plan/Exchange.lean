/-
Exchanging queries for tables.

Two stores that differ in their queries, each with tables of its own, serve the
same rows if every source that has rows in one has them in the other
(`Serves`). Then a stage compiles in both, and its plans run to the same results
(`Serves.compileStage`). For that it is enough that each source keeps its query,
or its table, or has the same rows in both stores (`Trades`): by induction on the
depth of nested plans, every derived source then has them (`Trades.serves`).
-/
import Joinery.Proofs.Plan.Alike
import Joinery.Proofs.Plan.Derivation
import Joinery.Proofs.Plan.Run

namespace Joinery.Store

open Engine (evaluateOn JoinsAlike)

variable {s t : Store} {d e : Derive} {tables tables' : Tables} {x y : Source}

/-! ## Plans of the same items -/

theorem Alike.SameKey.placed_iff {k k' : KeyItem} (h : Alike.SameKey k k') (chains : List Chain)
    (key : GroupingKey) : k.Placed chains key ↔ k'.Placed chains key := by
  unfold KeyItem.Placed
  rw [h.chain, h.place]

/-- Two joins of one chain join the same rows in the same way. -/
theorem Alike.joinsAlike (h : Alike s t) {chains : List Chain} (hr : Rooted chains)
    {init init' : List Field} {f f' : Field} {join join' : Join} {target target' : Source}
    {j j' : PlannedJoin} {i : Nat} {subPlans subPlans' : List (Source × Plan)}
    (hp : Planned s chains subPlans i init f join target j)
    (hp' : Planned t chains subPlans' i init' f' join' target' j')
    (hc : ids (init ++ [f]) = ids (init' ++ [f'])) : JoinsAlike j j' ∧ target.Same target' := by
  obtain ⟨rfl, rfl, rfl⟩ := hp.fields h.fields hp' hc
  have hon := hp.on
  rw [hp.parent.unique hr hp'.parent, h.bind, hp'.on] at hon
  have hcardinality : j.cardinality = j'.cardinality := by rw [hp.shape, hp'.shape]; rfl
  obtain ⟨target'', hn, hsame⟩ := h.sourceNamed? hp.named
  cases hp'.named.symm.trans hn
  exact ⟨⟨hcardinality, (Except.ok.inj hon).symm⟩, hsame⟩

/-! ## Serving the same rows -/

/-- The rows that are available in the first store are in the second, and are the same. -/
def Serves (s : Store) (d : Derive) (tables : Tables) (t : Store) (e : Derive) (tables' : Tables) :
    Prop :=
  ∀ x y, s.sourceNamed? x.name = some x → t.sourceNamed? y.name = some y → x.Same y →
    checkRows d x = .ok () →
    checkRows e y = .ok () ∧ ∀ r, Gives d tables x r ↔ Gives e tables' y r

namespace Serves

variable {items items' : StageItems} {a b : Assembly} {p q : Plan}

/-- Plans with the same chains have the same joins, of the same relations. -/
theorem joins (hserves : Serves s d tables t e tables') (h : Alike s t)
    (hchains : a.joins.chains = b.joins.chains) (ha : Laid s d x a) (hb : Laid t e y b) :
    List.Forall₂ (fun j j' => JoinsAlike j j' ∧
      ∀ r, s.GivesTarget d tables j r ↔ t.GivesTarget e tables' j' r) a.joins.joins b.joins.joins := by
  have hlength : a.joins.entries.length = b.joins.entries.length := by
    rw [← JoinSet.chains_length, hchains, JoinSet.chains_length]
  rw [JoinSet.joins, JoinSet.joins, List.forall₂_map_left_iff, List.forall₂_map_right_iff,
    List.forall₂_iff_get]
  refine ⟨hlength, fun i hi hi' => ?_⟩
  have hentry := List.getElem?_eq_getElem hi
  have hentry' := List.getElem?_eq_getElem hi'
  obtain ⟨init, f, join, target, hc, hj⟩ := ha.planned i _ _ hentry
  obtain ⟨init', f', join', target', hc', hj'⟩ := hb.planned i _ _ hentry'
  have hchain : a.joins.entries[i].1 = b.joins.entries[i].1 := by
    have hget := JoinSet.chains_getElem? hentry
    rw [hchains, JoinSet.chains_getElem? hentry'] at hget
    exact (Option.some.inj hget).symm
  have hrow := ha.nested.checkRows hj.rows
  rw [hchains] at hj
  obtain ⟨halike, hsame⟩ := h.joinsAlike hb.rooted hj hj' (hc ▸ hc' ▸ hchain)
  refine ⟨halike, fun r => ?_⟩
  rw [hj.givesTarget_iff, hj'.givesTarget_iff]
  exact (hserves target target' (sourceNamed?_self hj.named) (sourceNamed?_self hj'.named) hsame
    hrow).2 r

/-- Plans of the same items run to the same results. -/
theorem run_iff (hserves : Serves s d tables t e tables') (h : Alike s t)
    (hx : s.sourceNamed? x.name = some x) (hy : t.sourceNamed? y.name = some y) (hxy : x.Same y)
    (hrows : checkRows d x = .ok ()) (hsame : Alike.SameItems items items')
    (hp : LaysOut s d x items a p) (hq : LaysOut t e y items' b q) (result : Result) :
    Engine.run tables p = .ok result ↔ Engine.run tables' q = .ok result := by
  have hchains : a.joins.chains = b.joins.chains := by rw [hp.chains, hq.chains, hsame.chains]
  have hr : Rooted b.joins.chains := hq.laid.rooted
  have hkeys : p.groupBy = q.groupBy := by
    have hplaced := hp.keys
    rw [hchains, forall₂_congr_left (hsame.keys.imp fun k k' hk => hk.placed_iff b.joins.chains)]
      at hplaced
    exact (KeyItem.Placed.unique hr).forall₂ hplaced hq.keys
  have haggregates : p.aggregates = q.aggregates := by
    have hplaced := hp.aggregates
    rw [hchains, hsame.aggregates] at hplaced
    exact (AggregateItem.Placed.unique hr).forall₂ hplaced hq.aggregates
  have hjoins := hserves.joins h hchains hp.laid hq.laid
  rw [← hp.joins, ← hq.joins] at hjoins
  rw [hp.run_eq_ok_iff, hq.run_eq_ok_iff]
  refine exists_congr fun base => exists_congr fun targets => ?_
  rw [(hserves x y hx hy hxy hrows).2 base, forall₂_congr_left (hjoins.imp fun _ _ hj => hj.2),
    Engine.evaluateOn_congr (hjoins.imp fun _ _ hj => hj.1) hkeys haggregates]

theorem offers (h : Serves s d tables t e tables') : Alike.Offers s t d e :=
  fun x y hx hy hxy hr => (h x y hx hy hxy hr).1

/-- **A stage that compiles in the first store compiles in the second**, and its plans run to the
same results. -/
theorem compileStage (hserves : Serves s d tables t e tables') (h : Alike s t) (hs : s.Coherent)
    (hx : s.sourceNamed? x.name = some x) (hy : t.sourceNamed? y.name = some y) (hxy : x.Same y)
    {stage : Stage} (hp : s.compileStage d x stage = .ok p) :
    ∃ q, t.compileStage e y stage = .ok q ∧
      ∀ result, Engine.run tables p = .ok result ↔ Engine.run tables' q = .ok result := by
  obtain ⟨items, hitems, a, ha⟩ := (compileStage_agree hs (sourceNamed?_mem hx) stage).right hp
  have hrows : checkRows d x = .ok () := by
    simp only [Store.stageItems, bind_eq_ok_iff] at hitems
    exact hitems.choose_spec.1
  obtain ⟨items', hitems', hsame⟩ := h.stageItems hserves.offers hx hy hxy hitems
  obtain ⟨q, hq, b, hb⟩ :=
    (compileStage_agree (h.coherent hs) (sourceNamed?_mem hy) stage).left hitems'
  exact ⟨q, hq, hserves.run_iff h hx hy hxy hrows hsame ha hb⟩

theorem compileQueryOf (hserves : Serves s d tables t e tables') (h : Alike s t) (hs : s.Coherent)
    {owner : String} {query : Query} (hp : s.compileQueryOf d owner query = .ok p) :
    ∃ q, t.compileQueryOf e owner query = .ok q ∧
      ∀ result, Engine.run tables p = .ok result ↔ Engine.run tables' q = .ok result := by
  simp only [Store.compileQueryOf] at hp ⊢
  split at hp
  · split at hp
    · cases hp
    next x hx =>
    obtain ⟨y, hy, hxy⟩ := h.sourceNamed? hx
    rw [hy]
    exact hserves.compileStage h hs (sourceNamed?_self hx) (sourceNamed?_self hy) hxy hp
  · cases hp

end Serves

/-! ## Trading queries -/

/-- Each source keeps its query, and if it has none its table, or has the same rows in both stores. -/
def Trades (s : Store) (tables : Tables) (t : Store) (tables' : Tables) : Prop :=
  ∀ x y, s.sourceNamed? x.name = some x → t.sourceNamed? y.name = some y → x.Same y →
    (x.query = y.query ∧ (x.query = none → tables.get x.name = tables'.get y.name)) ∨
    (checkRows (s.derive []) x = .ok () ∧ checkRows (t.derive []) y = .ok () ∧
      ∀ r, Gives (s.derive []) tables x r ↔ Gives (t.derive []) tables' y r)

namespace Trades

theorem symm (h : Trades s tables t tables') : Trades t tables' s tables := by
  intro y x hy hx hyx
  rcases h x y hx hy hyx.symm with ⟨hq, ht⟩ | ⟨hr, hr', hg⟩
  · exact .inl ⟨hq.symm, fun hn => (ht (hq.trans hn)).symm⟩
  · exact .inr ⟨hr', hr, fun r => (hg r).symm⟩

theorem gives_congr (hd : ∀ name, Kept (d name) (e name)) (hr : checkRows d x = .ok ()) (r : Relation) :
    Gives d tables x r ↔ Gives e tables x r := by
  unfold Gives
  cases hq : x.query with
  | none => rfl
  | some query =>
    obtain hn | ⟨plan, hplan⟩ := checkRows_eq_ok_iff.mp hr
    · rw [hq] at hn
      cases hn
    · simp only [hplan, hd x.name plan hplan, Except.ok.injEq, exists_eq_left']

/-- The plan of a derived source becomes a plan that runs to the same results. -/
def Rederives (d e : Derive) (tables tables' : Tables) (name : String) : Prop :=
  ∀ p, d name = .ok p → ∃ q, e name = .ok q ∧
    ∀ result, Engine.run tables p = .ok result ↔ Engine.run tables' q = .ok result

/-- One level more of nested plans. -/
theorem rederives_succ (h : Alike s t) (hs : s.Coherent) {depth : Nat}
    (hserves : Serves s (s.deriveWithin depth) tables t (t.derive []) tables')
    (hx : s.sourceNamed? x.name = some x) (hy : t.sourceNamed? y.name = some y) (hxy : x.Same y)
    (hquery : x.query = y.query) :
    Rederives (s.deriveWithin (depth + 1)) (t.derive []) tables tables' x.name := by
  intro p hp
  obtain ⟨source, query, hsource, hq, hc⟩ := deriveWithin_eq_ok_iff.mp hp
  cases hx.symm.trans hsource
  obtain ⟨q, hq', hrun⟩ := hserves.compileQueryOf h hs hc
  refine ⟨q, ?_, hrun⟩
  rw [hxy.name]
  exact (h.coherent hs).derive_of_query hy (hquery ▸ hq) hq'

/-- A derived source that becomes one with a plan that runs to the same results has the same rows. -/
theorem gives_of_rederives (hxy : x.Same y) (hquery : x.query = y.query) {query : Query}
    (hq : x.query = some query) (hr : checkRows d x = .ok ())
    (hre : Rederives d e tables tables' x.name) :
    checkRows e y = .ok () ∧ ∀ r, Gives d tables x r ↔ Gives e tables' y r := by
  obtain hn | ⟨p, hp⟩ := checkRows_eq_ok_iff.mp hr
  · rw [hq] at hn
    cases hn
  obtain ⟨q, hq', hrun⟩ := hre p hp
  rw [hxy.name] at hp hq'
  refine ⟨checkRows_eq_ok_iff.mpr (.inr ⟨q, hq'⟩), fun r => ?_⟩
  unfold Gives Engine.Ran
  rw [← hquery, hq]
  simp only [hp, hq', Except.ok.injEq, exists_eq_left', hrun, hxy.name]

/-- **Trading queries for tables leaves all rows as they are**: the induction is on the depth of the
nested plans. -/
theorem serves (htrades : Trades s tables t tables') (h : Alike s t) (hs : s.Coherent) :
    ∀ depth, Serves s (s.deriveWithin depth) tables t (t.derive []) tables' := by
  intro depth x y hx hy hxy hr
  have hd (name : String) : Kept (s.deriveWithin depth name) (s.derive [] name) := fun p hp =>
    hs.derive_eq_ok_iff_within.mpr ⟨depth, hp⟩
  rcases htrades x y hx hy hxy with ⟨hquery, htable⟩ | ⟨-, hr', hg⟩
  · cases hq : x.query with
    | none =>
      refine ⟨checkRows_eq_ok_iff.mpr (.inl (hquery ▸ hq)), fun r => ?_⟩
      unfold Gives
      rw [← hquery, hq]
      simp only [htable hq]
    | some query =>
      refine gives_of_rederives hxy hquery hq hr ?_
      cases depth with
      | zero => exact fun p hp => nomatch hp
      | succ depth => exact rederives_succ h hs (serves htrades h hs depth) hx hy hxy hquery
  · exact ⟨hr', fun r => (gives_congr hd hr r).trans (hg r)⟩

/-- A request that runs on one side of a trade runs on the other, to the same result. -/
theorem compileRequest (htrades : Trades s tables t tables') (h : Alike s t) (hs : s.Coherent)
    {request : Request} {p : Plan} (hp : s.compileRequest request = .ok p) :
    ∃ q, t.compileRequest request = .ok q ∧
      ∀ result, Engine.run tables p = .ok result ↔ Engine.run tables' q = .ok result := by
  simp only [Store.compileRequest, compile] at hp ⊢
  split at hp
  · cases hp
  next x hx =>
  obtain ⟨y, hy, hxy⟩ := h.sourceNamed? hx
  have hd (name : String) : Kept (s.derive [] name) (s.deriveWithin (s.room []) name) :=
    hs.within_of_derive [] name
  have hwithin : s.compileStage (s.deriveWithin (s.room [])) x request.stage = .ok p :=
    (Extends.refl s).compileStage hs hd (sourceNamed?_mem hx) request.stage p hp
  rw [hy]
  exact (htrades.serves h hs (s.room [])).compileStage h hs (sourceNamed?_self hx)
    (sourceNamed?_self hy) hxy hwithin

end Trades

end Joinery.Store
