/-
The labels of the joins of a plan.

The label of a join is made of the names of the joins on its route from the root,
with dots between them (`LaysOut.label`). The names of a route tell its joins, since
a source has one field of a name and a join has one target (`Leads.ext`), and names
without dots are told by their text. So where no dot stands in the paths that a
request is compiled from, the labels of its plan are distinct, and each finds the
join that it labels (`Reachable.labels_identify`).
-/
import Joinery.Proofs.Composition
import Joinery.Proofs.Path
import Joinery.Proofs.Plan.Definition
import Joinery.Proofs.Plan.Needed
import Joinery.Proofs.Plan.Readable

namespace Joinery

/-! ## Texts with dots -/

theorem intercalate_dot (xs : List String) : ".".intercalate xs = (Path.mk xs).text := by
  rw [← String.toList_inj, Path.text, String.toList_ofList]
  induction xs with
  | nil => rfl
  | cons x xs ih =>
    cases xs with
    | nil => simp [Text.joined]
    | cons y ys =>
      rw [String.intercalate_cons_cons, List.map_cons, List.map_cons, Text.joined, String.toList_append,
        String.toList_append, ih]
      rfl

theorem intercalate_dot_inj {xs ys : List String} (hx : xs ≠ []) (hy : ys ≠ [])
    (hdx : ∀ x ∈ xs, '.' ∉ x.toList) (hdy : ∀ y ∈ ys, '.' ∉ y.toList)
    (h : ".".intercalate xs = ".".intercalate ys) : xs = ys := by
  rw [intercalate_dot, intercalate_dot, Path.text_eq_iff] at h
  have hux : (Path.mk xs).Undotted := ⟨hx, hdx⟩
  have huy : (Path.mk ys).Undotted := ⟨hy, hdy⟩
  rw [hux.cut, huy.cut] at h
  exact congrArg Path.segments h

/-! ## Look-ups -/

/-- Where labels are distinct, a label finds its own join. -/
theorem Plan.joinNamed?_label {plan : Plan} (hnodup : (plan.joins.map (·.label)).Nodup) {i : Nat}
    {j : PlannedJoin} (hj : plan.joins[i]? = some j) :
    plan.joins.findIdx? (·.label == j.label) = some i ∧ plan.joinNamed? j.label = some j := by
  obtain ⟨hi, rfl⟩ := List.getElem?_eq_some_iff.mp hj
  have hfirst : ∀ k, (hk : k < i) → plan.joins[k].label ≠ plan.joins[i].label := by
    intro k hk he
    have hlabels : (plan.joins.map (·.label))[k]? = (plan.joins.map (·.label))[i]? := by
      simp [he, hk.trans hi, hi]
    have hbound : k < (plan.joins.map (·.label)).length := by
      rw [List.length_map]
      exact hk.trans hi
    have hsame : k = i := (List.getElem?_inj hbound hnodup).mp hlabels
    omega
  constructor
  · rw [List.findIdx?_eq_some_iff_getElem]
    exact ⟨hi, by simp, fun k hk => by simpa using hfirst k hk⟩
  · rw [Plan.joinNamed?, List.find?_eq_some_iff_getElem]
    exact ⟨by simp, i, hi, rfl, fun k hk => by simpa using hfirst k hk⟩

namespace Store

variable {s : Store} {derive : Derive} {start : Source} {items : StageItems} {a : Assembly} {p : Plan}

/-! ## Routes -/

/-- The joins on the way from the root to a relation: each is the field of a planned join on the relation
that those before it lead to. -/
inductive Route (s : Store) (p : Plan) : Slot → List Field → Prop
  | root : Route s p .root []
  | join {i : Nat} {j : PlannedJoin} {f : Field} {fs : List Field} (hj : p.joins[i]? = some j)
      (hf : s.field? j.field = some f) (hfs : Route s p j.parent fs) : Route s p (.join i) (fs ++ [f])

/-- There is one route to a relation. -/
theorem Route.unique {slot : Slot} {fs gs : List Field} (h : s.Route p slot fs) :
    s.Route p slot gs → fs = gs := by
  induction h generalizing gs with
  | root =>
    intro hg
    cases hg
    rfl
  | join hj hf _ ih =>
    intro hg
    cases hg with
    | join hj' hf' hg =>
      cases hj.symm.trans hj'
      cases hf.symm.trans hf'
      rw [ih hg]

theorem Leads.ext : ∀ {fs gs : List Field} {here there there' : Source}, s.Leads here fs there →
    s.Leads here gs there' → fs.map (·.name) = gs.map (·.name) → fs = gs
  | [], [], _, _, _, _, _, _ => rfl
  | [], _ :: _, _, _, _, _, _, h => nomatch h
  | _ :: _, [], _, _, _, _, _, h => nomatch h
  | f :: fs, g :: gs, here, _, _, ⟨hf, next, ht, hfs⟩, ⟨hg, next', ht', hgs⟩, h => by
    obtain ⟨hname, hrest⟩ := List.cons.inj h
    have hname : f.name = g.name := hname
    rw [hname] at hf
    cases hf.symm.trans hg
    cases ht.symm.trans ht'
    rw [Leads.ext hfs hgs hrest]

/-- The route to the relation of a chain are the fields of the chain. -/
theorem LaysOut.route (h : LaysOut s derive start items a p) (fs : List Field) : ∀ {slot : Slot},
    At a.joins.chains slot (ids fs) → s.Stands fs → s.Route p slot fs := by
  induction fs using List.reverseRecOn with
  | nil =>
    intro slot hat _
    have hroot : slot = .root := hat.unique h.laid.rooted At.root
    rw [hroot]
    exact .root
  | append_singleton fs f ih =>
    intro slot hat hstands
    cases slot with
    | root =>
      have hnil : ids (fs ++ [f]) = [] := (Option.some.inj hat).symm
      simp [ids] at hnil
    | join i =>
      obtain ⟨j, init, g, join, target, hj, hids, hp⟩ := h.join hat
      have hsame : fs ++ [f] = init ++ [g] := hstands.ext hp.stands hids
      obtain ⟨rfl, hfg⟩ := List.append_inj' hsame rfl
      cases hfg
      have hfield : s.field? j.field = some f := by
        rw [hp.shape]
        exact hp.stands f (by simp)
      refine .join hj hfield (ih hp.parent fun x hx => hp.stands x (by simp [hx]))

/-- A planned join has a route, whose names are its label. -/
theorem LaysOut.label (h : LaysOut s derive start items a p) {i : Nat} {j : PlannedJoin}
    (hj : p.joins[i]? = some j) : ∃ fs, fs ≠ [] ∧ At a.joins.chains (.join i) (ids fs) ∧ s.Stands fs ∧
      j.label = ".".intercalate (fs.map (·.name)) := by
  have hentry := hj
  rw [h.joins, JoinSet.joins, List.getElem?_map] at hentry
  obtain ⟨⟨c, j'⟩, hi, -⟩ := Option.map_eq_some_iff.mp hentry
  obtain ⟨j', init, f, join, target, hj', hids, hp⟩ := h.join (JoinSet.chains_getElem? hi)
  cases hj.symm.trans hj'
  refine ⟨init ++ [f], by simp, ?_, hp.stands, ?_⟩
  · exact At.join (hids ▸ JoinSet.chains_getElem? hi)
  · rw [hp.shape]
    rfl

/-! ## Names -/

/-- The path of the definition that a requested aggregate uses: it is requested without an operator, by a
path that leads to a field which defines an aggregate over a path of its own. -/
def definitionPath? (s : Store) (start : String) (request : AggregateRequest) : Option Path :=
  match request.op, request.path with
  | none, some path => (s.resolve start path).toOption.bind fun r => r.field.kind.aggregate?.bind (·.path)
  | _, _ => none

/-- The paths of a request, and those of the definitions that it uses. -/
def usedPaths (s : Store) (request : Request) : List Path :=
  request.groupBy ++ request.aggregates.filterMap (·.path) ++
    request.aggregates.filterMap (s.definitionPath? request.source)

theorem resolved_names {path : Path} {r : Resolved} (h : s.resolveFrom start path = .ok r) :
    ∀ f ∈ r.joins ++ [r.field], f.name ∈ path.segments := by
  intro f hf
  have hname : f.name ∈ (r.joins ++ [r.field]).map Field.name := List.mem_map_of_mem hf
  rcases resolveFrom_names h with hnames | ⟨hnames, -⟩
  · rw [hnames]
    exact hname
  · rw [hnames]
    exact List.mem_cons_of_mem _ hname

theorem needs_names {path : Path} {r : Resolved} (h : s.resolveFrom start path = .ok r) :
    ∀ f ∈ r.needs, f.name ∈ path.segments := by
  intro f hf
  refine resolved_names h f ?_
  unfold Resolved.needs at hf
  split at hf
  · exact hf
  · exact List.mem_append_left _ hf

theorem keyNeeds_names {path : Path} {fs : List Field} (h : s.keyNeeds start path = .ok fs) :
    ∀ f ∈ fs, f.name ∈ path.segments := by
  simp only [keyNeeds, bind_eq_ok_iff, pure_eq_ok_iff] at h
  obtain ⟨r, hr, rfl⟩ := h
  exact needs_names hr

theorem aggregateNeeds_names {request : AggregateRequest} {name : String} {fs : List Field}
    (hstart : s.sourceNamed? name = some start) (h : s.aggregateNeeds start request = .ok fs) :
    ∀ f ∈ fs, ∃ path, (request.path = some path ∨ s.definitionPath? name request = some path) ∧
      f.name ∈ path.segments := by
  intro f hf
  unfold aggregateNeeds at h
  split at h
  · cases h
    cases hf
  · next path _ hpath =>
    exact ⟨path, .inl hpath, keyNeeds_names h f hf⟩
  · next path hop hpath =>
    obtain ⟨r, hr, h⟩ := bind_eq_ok_iff.mp h
    have hjoins : ∀ g ∈ r.joins, g.name ∈ path.segments := fun g hg =>
      resolved_names hr g (List.mem_append_left _ hg)
    unfold definedNeeds at h
    split at h
    · cases h
      exact ⟨path, .inl hpath, hjoins f hf⟩
    · next inner hinner =>
      simp only [bind_eq_ok_iff, pure_eq_ok_iff] at h
      obtain ⟨i, hi, rfl⟩ := h
      rcases List.mem_append.mp hf with hf | hf
      · exact ⟨path, .inl hpath, hjoins f hf⟩
      · refine ⟨inner, .inr ?_, needs_names hi f hf⟩
        simp only [definitionPath?, hop, hpath, resolve, hstart, hr]
        exact hinner

/-- The joins of an item are named by segments of the paths that the request uses. -/
theorem stageItems_names {request : Request} (hstart : s.sourceNamed? request.source = some start)
    (h : s.stageItems derive start request.stage = .ok items) :
    (∀ k ∈ items.keys, ∀ f ∈ k.chain, ∃ path ∈ s.usedPaths request, f.name ∈ path.segments) ∧
    ∀ i ∈ items.aggregates, ∀ f ∈ i.ending.chain, ∃ path ∈ s.usedPaths request,
      f.name ∈ path.segments := by
  obtain ⟨-, hkeys, haggregates, -⟩ := stageItems_eq_ok_iff.mp h
  refine ⟨fun k hk f hf => ?_, fun i hi f hf => ?_⟩
  · obtain ⟨path, hpath, hitem⟩ := forall₂_mem hkeys.flip hk
    refine ⟨path, ?_, keyNeeds_names (keyItem_needs hitem) f hf⟩
    exact List.mem_append_left _ (List.mem_append_left _ hpath)
  · obtain ⟨ar, har, hitem⟩ := forall₂_mem haggregates.flip hi
    obtain ⟨path, hused, hname⟩ := aggregateNeeds_names hstart (aggregateItem_needs hitem) f hf
    refine ⟨path, ?_, hname⟩
    rcases hused with hpath | hpath
    · exact List.mem_append_left _ (List.mem_append_right _ (List.mem_filterMap.mpr ⟨ar, har, hpath⟩))
    · exact List.mem_append_right _ (List.mem_filterMap.mpr ⟨ar, har, hpath⟩)

/-- So are the joins on the route to a relation, which is the beginning of the chain of an item. -/
theorem LaysOut.names {request : Request} (hs : s.Coherent) (h : LaysOut s derive start items a p)
    (hstart : s.sourceNamed? request.source = some start)
    (hitems : s.stageItems derive start request.stage = .ok items) {slot : Slot} {fs : List Field}
    (hat : At a.joins.chains slot (ids fs)) (hstands : s.Stands fs) :
    ∀ f ∈ fs, ∃ path ∈ s.usedPaths request, f.name ∈ path.segments := by
  by_cases hnil : fs = []
  · rw [hnil]
    exact nofun
  have hmem := hat.mem fun h => hnil (List.map_eq_nil_iff.mp h)
  rw [h.chains] at hmem
  obtain ⟨-, whole, hwhole, hprefix⟩ := (mem_growAll.mp hmem).resolve_left List.not_mem_nil
  have hleads := stageItems_leads hitems
  obtain ⟨hkeys, haggregates⟩ := stageItems_names hstart hitems
  obtain ⟨gs, rfl, hgs, hnames⟩ : ∃ gs, whole = ids gs ∧ s.Stands gs ∧
      ∀ f ∈ gs, ∃ path ∈ s.usedPaths request, f.name ∈ path.segments := by
    rcases List.mem_append.mp hwhole with hw | hw
    · obtain ⟨k, hk, rfl⟩ := List.mem_map.mp hw
      exact ⟨k.chain, rfl, (hleads.keys k hk).chain.stands hs, hkeys k hk⟩
    · obtain ⟨i, hi, rfl⟩ := List.mem_map.mp hw
      obtain ⟨there, hchain, -⟩ := hleads.aggregates i hi
      exact ⟨i.ending.chain, rfl, hchain.stands hs, haggregates i hi⟩
  obtain ⟨rest, hrest⟩ := hprefix
  obtain ⟨front, back, rfl, hfront, -⟩ := List.map_eq_append_iff.mp hrest.symm
  have hsame : front = fs :=
    Stands.ext (fun f hf => hgs f (List.mem_append_left back hf)) hstands hfront
  intro f hf
  exact hnames f (List.mem_append_left back (hsame ▸ hf))

/-! ## Labels -/

/-- Joins of one label are one join, if no dot stands in the names on their routes. -/
theorem LaysOut.eq_of_label (hs : s.Coherent) (h : LaysOut s derive start items a p)
    (hleads : s.LeadsItems start items)
    (hdots : ∀ {slot : Slot} {fs : List Field}, At a.joins.chains slot (ids fs) → s.Stands fs →
      ∀ f ∈ fs, '.' ∉ f.name.toList)
    {i k : Nat} {j j' : PlannedJoin} (hj : p.joins[i]? = some j) (hk : p.joins[k]? = some j')
    (hsame : j.label = j'.label) : i = k := by
  obtain ⟨fs, hfs, hat, hstands, hlabel⟩ := h.label hj
  obtain ⟨gs, hgs, hat', hstands', hlabel'⟩ := h.label hk
  have hnames : fs.map (·.name) = gs.map (·.name) := by
    rw [hlabel, hlabel'] at hsame
    refine intercalate_dot_inj (by simpa using hfs) (by simpa using hgs) ?_ ?_ hsame
    · exact List.forall_mem_map.mpr (hdots hat hstands)
    · exact List.forall_mem_map.mpr (hdots hat' hstands')
  -- the names are those of joins from the start, so they tell the joins and these the relation
  obtain ⟨fs', source, hids, hfrom⟩ := h.leads hleads hat
  obtain ⟨gs', source', hids', hfrom'⟩ := h.leads hleads hat'
  rw [hstands.ext (hfrom.stands hs) hids, hstands'.ext (hfrom'.stands hs) hids'] at hnames
  rw [hids, Leads.ext hfrom hfrom' hnames, ← hids'] at hat
  exact Slot.join.inj (hat.unique h.laid.rooted hat')

/-- **Labels identify joins** where no dot stands in a path that the request is compiled from: they are
distinct, each is made of the names on the one route from the root, and each finds its own join. -/
theorem Reachable.labels_identify (hs : s.Reachable) {request : Request} {plan : Plan}
    (h : s.compileRequest request = .ok plan)
    (hdots : ∀ path ∈ s.usedPaths request, ∀ segment ∈ path.segments, '.' ∉ segment.toList) :
    (plan.joins.map (·.label)).Nodup ∧
    ∀ (i : Nat) (j : PlannedJoin), plan.joins[i]? = some j →
      ((∃ fs, s.Route plan (.join i) fs) ∧
        ∀ fs, s.Route plan (.join i) fs → j.label = ".".intercalate (fs.map (·.name))) ∧
      plan.joins.findIdx? (·.label == j.label) = some i ∧ plan.joinNamed? j.label = some j := by
  obtain ⟨start, items, a, hstart, hitems, hlaid⟩ := compileRequest_laysOut hs.coherent h
  have hdotless {slot : Slot} {fs : List Field} (hat : At a.joins.chains slot (ids fs))
      (hstands : s.Stands fs) : ∀ f ∈ fs, '.' ∉ f.name.toList := by
    intro f hf
    obtain ⟨path, hpath, hname⟩ := hlaid.names hs.coherent hstart hitems hat hstands f hf
    exact hdots path hpath _ hname
  have hnodup : (plan.joins.map (·.label)).Nodup := by
    rw [List.nodup_iff_getElem?_ne_getElem?]
    intro i k hik hk hsame
    rw [List.length_map] at hk
    have hi : i < plan.joins.length := Nat.lt_trans hik hk
    simp only [List.getElem?_map, List.getElem?_eq_getElem hk, List.getElem?_eq_getElem hi,
      Option.map_some, Option.some.injEq] at hsame
    have hpositions := hlaid.eq_of_label hs.coherent (stageItems_leads hitems) hdotless
      (List.getElem?_eq_getElem hi) (List.getElem?_eq_getElem hk) hsame
    omega
  refine ⟨hnodup, fun i j hj => ⟨?_, Plan.joinNamed?_label hnodup hj⟩⟩
  obtain ⟨fs, -, hat, hstands, hlabel⟩ := hlaid.label hj
  have hroute := hlaid.route fs hat hstands
  refine ⟨⟨fs, hroute⟩, fun gs hgs => ?_⟩
  rw [← hroute.unique hgs]
  exact hlabel

/-- The customers' join to what they have spent, from the start and behind two other joins, once for
the aggregate that the customers define over it. -/
theorem labels_identify_ranked :
    let request : Request := ⟨"customers", [⟨["customers", "orders", "customer", "region"]⟩],
      [⟨some "own", none, some ⟨["turnover"]⟩⟩, ⟨none, none, some ⟨["orders", "customer", "turnover"]⟩⟩]⟩
    ranked.Reachable ∧ ∃ plan, ranked.compileRequest request = .ok plan ∧
      (∀ path ∈ ranked.usedPaths request, ∀ segment ∈ path.segments, '.' ∉ segment.toList) ∧
      plan.joins.map (·.label) = ["orders", "orders.customer", "spending", "orders.customer.spending"] ∧
      (plan.joins.map (·.label)).Nodup ∧
      ∀ (i : Nat) (j : PlannedJoin), plan.joins[i]? = some j →
        ((∃ fs, ranked.Route plan (.join i) fs) ∧
          ∀ fs, ranked.Route plan (.join i) fs → j.label = ".".intercalate (fs.map (·.name))) ∧
        plan.joins.findIdx? (·.label == j.label) = some i ∧ plan.joinNamed? j.label = some j := by
  intro request
  have hreachable : ranked.Reachable := shop_reachable.attempts _
  obtain ⟨plan, hplan⟩ := exists_ok (x := ranked.compileRequest request) (by decide +kernel)
  have hdots : ∀ path ∈ ranked.usedPaths request, ∀ segment ∈ path.segments, '.' ∉ segment.toList := by
    decide +kernel
  have hlabels : (ranked.compileRequest request).toOption.map (·.joins.map (·.label)) =
      some ["orders", "orders.customer", "spending", "orders.customer.spending"] := by
    decide +kernel
  rw [hplan] at hlabels
  obtain ⟨hnodup, hjoins⟩ := hreachable.labels_identify hplan hdots
  exact ⟨hreachable, plan, hplan, hdots, Option.some.inj hlabels, hnodup, hjoins⟩

end Store

end Joinery
