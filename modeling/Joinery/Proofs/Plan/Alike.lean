/-
Stores that differ in the queries of their sources only.

Resolving, binding and what an item asks for do not look at queries, so in such
stores they agree (`Alike`). Queries decide where the rows of a source come from;
if the rows that are available in one store are in the other, a stage has the
same items in both (`Alike.stageItems`).
-/
import Joinery.Proofs.Plan.Paired
import Joinery.Proofs.Plan.Stage

namespace Joinery

/-- The source without its query. -/
def Source.bare (source : Source) : Source := { source with query := none }

/-- Two sources that differ in their queries only. -/
def Source.Same (x y : Source) : Prop := x.bare = y.bare

namespace Source.Same

variable {x y : Source}

theorem symm (h : x.Same y) : y.Same x := Eq.symm h

theorem id (h : x.Same y) : x.id = y.id := (Source.mk.inj h).1

theorem name (h : x.Same y) : x.name = y.name := (Source.mk.inj h).2.1

theorem primaryKey (h : x.Same y) : x.primaryKey = y.primaryKey := (Source.mk.inj h).2.2.1

end Source.Same

namespace Store

/-- Two stores that differ in the queries of their sources only. -/
structure Alike (s t : Store) : Prop where
  sources : s.sources.map Source.bare = t.sources.map Source.bare
  fields : s.fields = t.fields

namespace Alike

variable {s t : Store}

theorem symm (h : Alike s t) : Alike t s := ⟨h.sources.symm, h.fields.symm⟩

theorem length (h : Alike s t) : s.sources.length = t.sources.length := by
  have hl := congrArg List.length h.sources
  rwa [List.length_map, List.length_map] at hl

theorem getElem? (h : Alike s t) {i : Nat} {x : Source} (hx : s.sources[i]? = some x) :
    ∃ y, t.sources[i]? = some y ∧ x.Same y := by
  have hi : (s.sources.map Source.bare)[i]? = (t.sources.map Source.bare)[i]? := by rw [h.sources]
  rw [List.getElem?_map, List.getElem?_map, hx, Option.map_some] at hi
  obtain ⟨y, hy, hxy⟩ := Option.map_eq_some_iff.mp hi.symm
  exact ⟨y, hy, hxy.symm⟩

theorem coherent (h : Alike s t) (hs : s.Coherent) : t.Coherent := by
  refine ⟨fun i y hy => ?_, fun i f hf => hs.fieldIds i f (h.fields ▸ hf), fun f hf => ?_⟩
  · obtain ⟨x, hx, hxy⟩ := h.symm.getElem? hy
    rw [hxy.id]
    exact hs.sourceIds i x hx
  · rw [← h.length]
    exact hs.owners f (h.fields ▸ hf)

theorem sourceNamed?_map (s : Store) (name : String) :
    (s.sourceNamed? name).map Source.bare = (s.sources.map Source.bare).find? (·.name == name) := by
  rw [List.find?_map]
  rfl

theorem sourceNamed? (h : Alike s t) {name : String} {x : Source}
    (hx : s.sourceNamed? name = some x) : ∃ y, t.sourceNamed? name = some y ∧ x.Same y := by
  have hn := sourceNamed?_map s name
  rw [h.sources, ← sourceNamed?_map t, hx, Option.map_some] at hn
  obtain ⟨y, hy, hxy⟩ := Option.map_eq_some_iff.mp hn.symm
  exact ⟨y, hy, hxy.symm⟩

theorem sourceNamed?_none (h : Alike s t) {name : String} (hn : s.sourceNamed? name = none) :
    t.sourceNamed? name = none := by
  cases hy : t.sourceNamed? name with
  | none => rfl
  | some y =>
    obtain ⟨x, hx, _⟩ := h.symm.sourceNamed? hy
    rw [hn] at hx
    cases hx

theorem fieldNamed? (h : Alike s t) (owner : SourceId) (name : String) :
    s.fieldNamed? owner name = t.fieldNamed? owner name := by
  simp only [Store.fieldNamed?, h.fields]

theorem target? (h : Alike s t) {f : Field} {x : Source} (hx : s.target? f = some x) :
    ∃ y, t.target? f = some y ∧ x.Same y := by
  obtain ⟨join, hk, hn⟩ := Option.bind_eq_some_iff.mp hx
  obtain ⟨y, hy, hxy⟩ := h.sourceNamed? hn
  exact ⟨y, Option.bind_eq_some_iff.mpr ⟨join, hk, hy⟩, hxy⟩

theorem sourceName (h : Alike s t) (id : SourceId) : s.sourceName id = t.sourceName id := by
  simp only [Store.sourceName, Store.source?]
  cases hx : s.sources[id]? with
  | some x =>
    obtain ⟨y, hy, hxy⟩ := h.getElem? hx
    rw [hy]
    exact hxy.name
  | none =>
    have hlength := List.getElem?_eq_none_iff.mp hx
    rw [h.length, ← List.getElem?_eq_none_iff] at hlength
    rw [hlength]

/-- Sources are paired with themselves but for the query, and fields with themselves. -/
theorem paired (h : Alike s t) : Paired s t Source.Same Eq := by
  have hfields (id : SourceId) : SameFields s t Eq id id := by
    refine ⟨h.sourceName id, fun name => ?_⟩
    rw [h.fieldNamed?]
    cases t.fieldNamed? id name with
    | none => exact .none
    | some f => exact .some rfl
  refine ⟨fun name => ?_, Source.Same.name, Source.Same.primaryKey, fun hxy => ?_, ?_, ?_, ?_⟩
  · cases hx : s.sourceNamed? name with
    | none =>
      rw [h.sourceNamed?_none hx]
      exact .none
    | some x =>
      obtain ⟨y, hy, hxy⟩ := h.sourceNamed? hx
      rw [hy]
      exact .some hxy
  · rw [hxy.id]
    exact hfields _
  · rintro f _ rfl
    rfl
  · rintro f _ rfl
    rfl
  · rintro f _ rfl
    exact hfields f.owner

/-! ## Paths, conditions and ends -/

variable {x y : Source}

/-- Paths that resolve to one field behind the same joins. -/
structure SameEnd (r r' : Resolved) : Prop where
  joins : r.joins = r'.joins
  field : r.field = r'.field
  source : r.source.Same r'.source

theorem sameEnd_iff {r r' : Resolved} : SameEnd r r' ↔ Store.SameEnd Source.Same Eq r r' := by
  constructor
  · intro h
    exact ⟨by rw [h.joins, List.forall₂_eq_eq_eq], h.field, h.source⟩
  · intro h
    exact ⟨by rw [← List.forall₂_eq_eq_eq]; exact h.joins, h.field, h.source⟩

theorem resolveRequested (h : Alike s t) (hxy : x.Same y) (path : Path) :
    Agree SameEnd (s.resolveRequested x path) (t.resolveRequested y path) :=
  (h.paired.resolveRequested hxy path).mono fun _ _ => sameEnd_iff.mpr

theorem bind (h : Alike s t) (f : Field) (parent own : Slot) (on : Condition) :
    s.bind f parent own on = t.bind f parent own on :=
  (h.paired.bind rfl parent own on).eq

theorem checkCondition (h : Alike s t) (f : Field) : s.checkCondition f = t.checkCondition f := by
  unfold Store.checkCondition
  cases f.kind with
  | scalar => rfl
  | aggregate _ => rfl
  | join join => simp only [h.bind]

/-- Ends of keys with the same chain and field, in sources that are the same but for their query. -/
structure SameKeyEnd (e e' : KeyEnd) : Prop where
  chain : e.chain = e'.chain
  field : e.field = e'.field
  source : e.source.Same e'.source

theorem keyEnd (h : Alike s t) (path : Path) {r r' : Resolved} (hr : SameEnd r r') :
    Agree SameKeyEnd (s.keyEnd path r) (t.keyEnd path r') := by
  refine (h.paired.keyEnd path (sameEnd_iff.mp hr)).mono fun e e' he => ⟨?_, he.field, he.source⟩
  rw [← List.forall₂_eq_eq_eq]
  exact he.chain

theorem aggregateEnd (h : Alike s t) (hxy : x.Same y) (request : AggregateRequest) :
    Agree Eq (s.aggregateEnd x request) (t.aggregateEnd y request) := by
  refine (h.paired.aggregateEnd hxy request).mono ?_
  rintro ⟨op, chain, column, definedBy⟩ ⟨op', chain', column', definedBy'⟩ ⟨hop, hchain, hcolumn, hid⟩
  have hchain : chain = chain' := by rwa [← List.forall₂_eq_eq_eq]
  have hid : definedBy = definedBy' := by
    cases hid with
    | none => rfl
    | some hid =>
      obtain ⟨f, _, rfl, rfl, rfl⟩ := hid
      rfl
  simp only at hop hcolumn
  rw [hop, hchain, hcolumn, hid]

/-! ## Items -/

/-- The rows of a source that are available in one store are in the other. -/
def Offers (s t : Store) (d e : Derive) : Prop :=
  ∀ x y, s.sourceNamed? x.name = some x → t.sourceNamed? y.name = some y → x.Same y →
    checkRows d x = .ok () → checkRows e y = .ok ()

variable {d e : Derive}

theorem checkJoin (h : Alike s t) (hrows : Offers s t d e) {f : Field}
    (hf : s.checkJoin d f = .ok ()) : t.checkJoin e f = .ok () := by
  unfold Store.checkJoin at hf ⊢
  cases ht : s.target? f with
  | none =>
    rw [ht] at hf
    cases hf
  | some target =>
    obtain ⟨target', ht', hsame⟩ := h.target? ht
    simp only [ht, ht', bind_eq_ok_iff] at hf ⊢
    obtain ⟨_, hr, hc⟩ := hf
    obtain ⟨join, _, hn⟩ := target?_eq_some ht
    obtain ⟨join', _, hn'⟩ := target?_eq_some ht'
    exact ⟨(), hrows _ _ (sourceNamed?_self hn) (sourceNamed?_self hn') hsame hr,
      h.checkCondition f ▸ hc⟩

theorem checkChain (h : Alike s t) (hrows : Offers s t d e) : ∀ {chain : List Field},
    s.checkChain d chain = .ok () → t.checkChain e chain = .ok ()
  | [], _ => rfl
  | f :: rest, hc => by
    simp only [Store.checkChain, bind_eq_ok_iff] at hc ⊢
    obtain ⟨_, hf, hrest⟩ := hc
    exact ⟨(), h.checkJoin hrows hf, h.checkChain hrows hrest⟩

/-- Keys that are planned alike. -/
structure SameKey (k k' : KeyItem) : Prop where
  chain : k.chain = k'.chain
  place : k.place = k'.place

theorem keyItem (h : Alike s t) (hrows : Offers s t d e) (hxy : x.Same y) {path : Path} {k : KeyItem}
    (hk : s.keyItem d x path = .ok k) : ∃ k', t.keyItem e y path = .ok k' ∧ SameKey k k' := by
  simp only [Store.keyItem, bind_eq_ok_iff, pure_eq_ok_iff] at hk ⊢
  obtain ⟨r, hr, _, hj, end₁, he, _, hc, rfl⟩ := hk
  obtain ⟨r', hr', hsame⟩ := (h.resolveRequested hxy path).left hr
  obtain ⟨end₂, he', hend⟩ := (h.keyEnd path hsame).left he
  have hj' := h.checkChain hrows hj
  have hc' := h.checkChain hrows hc
  rw [hsame.joins] at hj'
  rw [hend.chain] at hc'
  refine ⟨_, ⟨r', hr', (), hj', end₂, he', (), hc', rfl⟩, hend.chain, funext fun slot => ?_⟩
  simp only [KeyItem.place, hsame.field, hend.field, hend.source.name]

theorem aggregateItem (h : Alike s t) (hrows : Offers s t d e) (hxy : x.Same y)
    {request : AggregateRequest} {i : AggregateItem} (hi : s.aggregateItem d x request = .ok i) :
    t.aggregateItem e y request = .ok i := by
  simp only [Store.aggregateItem, bind_eq_ok_iff, pure_eq_ok_iff] at hi ⊢
  obtain ⟨end₁, he, _, hc, rfl⟩ := hi
  obtain ⟨end₂, he', rfl⟩ := (h.aggregateEnd hxy request).left he
  exact ⟨_, he', (), h.checkChain hrows hc, rfl⟩

theorem keyItems (h : Alike s t) (hrows : Offers s t d e) (hxy : x.Same y) {paths : List Path}
    {ks : List KeyItem} (hk : List.Forall₂ (fun path k => s.keyItem d x path = .ok k) paths ks) :
    ∃ ks', List.Forall₂ (fun path k => t.keyItem e y path = .ok k) paths ks' ∧
      List.Forall₂ SameKey ks ks' := by
  induction hk with
  | nil => exact ⟨[], .nil, .nil⟩
  | cons hk _ ih =>
    obtain ⟨k', hk', hsame⟩ := h.keyItem hrows hxy hk
    obtain ⟨ks', hks', hsames⟩ := ih
    exact ⟨k' :: ks', .cons hk' hks', .cons hsame hsames⟩

/-- Items that are planned alike. -/
structure SameItems (items items' : StageItems) : Prop where
  keys : List.Forall₂ SameKey items.keys items'.keys
  aggregates : items.aggregates = items'.aggregates

theorem SameItems.chains {items items' : StageItems} (h : SameItems items items') :
    items.chains = items'.chains := by
  have hkeys : items.keys.map (ids ·.chain) = items'.keys.map (ids ·.chain) :=
    forall₂_map_eq (fun _ _ hk => congrArg ids hk.chain) h.keys
  rw [StageItems.chains, StageItems.chains, hkeys, h.aggregates]

theorem SameItems.names {items items' : StageItems} (h : SameItems items items') :
    items.names = items'.names := by
  have hkeys : items.keys.map (·.name) = items'.keys.map (·.name) :=
    forall₂_map_eq (fun _ _ hk => congrArg GroupingKey.name (congrFun hk.place .root)) h.keys
  rw [StageItems.names, StageItems.names, hkeys, h.aggregates]

/-- **A stage has the same items in both stores**, if the rows that are available in one are in the
other. -/
theorem stageItems (h : Alike s t) (hrows : Offers s t d e) (hx : s.sourceNamed? x.name = some x)
    (hy : t.sourceNamed? y.name = some y) (hxy : x.Same y) {stage : Stage} {items : StageItems}
    (hi : s.stageItems d x stage = .ok items) :
    ∃ items', t.stageItems e y stage = .ok items' ∧ SameItems items items' := by
  obtain ⟨hr, hk, ha, hnames⟩ := stageItems_eq_ok_iff.mp hi
  obtain ⟨keys', hk', hkeys⟩ := h.keyItems hrows hxy hk
  have hsame : SameItems items ⟨keys', items.aggregates⟩ := ⟨hkeys, rfl⟩
  refine ⟨_, stageItems_eq_ok_iff.mpr ⟨hrows x y hx hy hxy hr, hk', ?_, hsame.names ▸ hnames⟩, hsame⟩
  exact ha.imp fun _ _ => h.aggregateItem hrows hxy

end Alike

end Store

end Joinery
