/-
The join graph shows where paths can go.

A join of a store is an edge of its graph, from its owner to its target, or
dangles if the target is not defined (`Drawn`). So the sources that some edges
lead to are those of the joins that paths resolve to (`joinsTo_iff`): the walk of
a path is a walk on the graph, and along any edges the names of their joins make
a path. What the groups of the graph say of reaching is thereby said of paths
(`Reachable.graph_agrees`).
-/
import Joinery.Proofs.Composition
import Joinery.Proofs.Graph.Groups
import Joinery.Proofs.Store.Model

namespace Joinery.Store

open Relation

variable {s : Store} {f : Field} {a b target : Source}

/-! ## Edges and what dangles -/

/-- What the graph takes from a field: nothing if it is no join, else an edge or what dangles. -/
theorem shown_cases (s : Store) (f : Field) :
    (f.kind.join? = none ∧ s.target? f = none ∧ s.edge? f = none ∧ s.dangling? f = none) ∨
    ∃ join, f.kind.join? = some join ∧
      ((∃ target, s.target? f = some target ∧ s.dangling? f = none ∧
        s.edge? f = some ⟨f.id, f.name, join.cardinality, f.owner, target.id⟩) ∨
      (s.target? f = none ∧ s.edge? f = none ∧
        s.dangling? f = some ⟨s.sourceName f.owner, f.name, join.target⟩)) := by
  cases hj : f.kind.join? with
  | none => exact .inl ⟨rfl, by simp [target?, hj], by simp [edge?, hj], by simp [dangling?, hj]⟩
  | some join =>
    refine .inr ⟨join, rfl, ?_⟩
    cases ht : s.sourceNamed? join.target with
    | none => exact .inr ⟨by simp [target?, hj, ht], by simp [edge?, hj, ht], by simp [dangling?, hj, ht]⟩
    | some target =>
      exact .inl ⟨target, by simp [target?, hj, ht], by simp [dangling?, hj, ht], by simp [edge?, hj, ht]⟩

/-- The edge is that of a join to its target. -/
structure Draws (f : Field) (target : Source) (e : Edge) : Prop where
  field : e.field = f.id
  name : e.name = f.name
  source : e.source = f.owner
  target : e.target = target.id

theorem edge?_eq_some {e : Edge} (h : s.edge? f = some e) :
    ∃ target, s.target? f = some target ∧ Draws f target e := by
  rcases shown_cases s f with ⟨-, -, hnone, -⟩ | ⟨join, -, ⟨target, ht, -, he⟩ | ⟨-, hnone, -⟩⟩
  · cases hnone.symm.trans h
  · cases he.symm.trans h
    exact ⟨target, ht, rfl, rfl, rfl, rfl⟩
  · cases hnone.symm.trans h

theorem edge?_of_target (h : s.target? f = some target) :
    ∃ e, s.edge? f = some e ∧ Draws f target e := by
  rcases shown_cases s f with ⟨-, hnone, -⟩ | ⟨join, -, ⟨target', ht, -, he⟩ | ⟨hnone, -⟩⟩
  · cases hnone.symm.trans h
  · cases ht.symm.trans h
    exact ⟨_, he, rfl, rfl, rfl, rfl⟩
  · cases hnone.symm.trans h

theorem dangling?_eq_some {d : DanglingJoin} (h : s.dangling? f = some d) :
    s.target? f = none ∧ d.owner = s.sourceName f.owner ∧ d.field = f.name := by
  rcases shown_cases s f with ⟨-, -, -, hnone⟩ | ⟨join, -, ⟨_, -, hnone, -⟩ | ⟨ht, -, hd⟩⟩
  · cases hnone.symm.trans h
  · cases hnone.symm.trans h
  · cases hd.symm.trans h
    exact ⟨ht, rfl, rfl⟩

/-- Every join counts once. -/
theorem length_edges_dangling (s : Store) (fields : List Field) :
    (fields.filterMap s.edge?).length + (fields.filterMap s.dangling?).length =
      (fields.filter (·.kind.join?.isSome)).length := by
  induction fields with
  | nil => rfl
  | cons f fields ih =>
    rcases shown_cases s f with ⟨hj, -, he, hd⟩ | ⟨join, hj, ⟨_, -, hd, he⟩ | ⟨-, he, hd⟩⟩
    · simpa [hj, he, hd] using ih
    all_goals
      simp only [List.filterMap_cons, List.filter_cons, hj, he, hd, Option.isSome_some, if_true,
        List.length_cons]
      omega

theorem graph_joined {i j : SourceId} : s.graph.Joined i j ↔
    ∃ f ∈ s.fields, f.owner = i ∧ ∃ target, s.target? f = some target ∧ target.id = j := by
  constructor
  · rintro ⟨e, he, rfl, rfl⟩
    obtain ⟨f, hf, he⟩ := List.mem_filterMap.mp he
    obtain ⟨target, ht, hdraws⟩ := edge?_eq_some he
    exact ⟨f, hf, hdraws.source.symm, target, ht, hdraws.target.symm⟩
  · rintro ⟨f, hf, rfl, target, ht, rfl⟩
    obtain ⟨e, he, hdraws⟩ := edge?_of_target ht
    exact ⟨e, List.mem_filterMap.mpr ⟨f, hf, he⟩, hdraws.source, hdraws.target⟩

theorem target?_mem (h : s.target? f = some target) : target ∈ s.sources := by
  obtain ⟨join, -, hj⟩ := target?_eq_some h
  exact sourceNamed?_mem hj

theorem Reachable.graph_coherent (hs : s.Reachable) : s.graph.Coherent := by
  refine ⟨hs.names_nodup, fun e he => ?_⟩
  obtain ⟨f, hf, he⟩ := List.mem_filterMap.mp he
  obtain ⟨target, ht, hdraws⟩ := edge?_eq_some he
  have hlength : s.graph.nodes.length = s.sources.length := List.length_map _
  rw [hlength, hdraws.source, hdraws.target]
  exact ⟨hs.coherent.owners f hf, hs.coherent.lt_of_mem (target?_mem ht)⟩

/-- How the graph of a store shows its joins: each as an edge, if its target is defined, and else as
dangling, and nothing else. -/
structure Drawn (s : Store) : Prop where
  edge_iff : ∀ f ∈ s.joinFields,
    (∃ e ∈ s.graph.edges, e.field = f.id) ↔ ∃ target, s.target? f = some target
  dangling_iff : ∀ f ∈ s.joinFields,
    (∃ d ∈ s.graph.dangling, d.owner = s.sourceName f.owner ∧ d.field = f.name) ↔ s.target? f = none
  ends : ∀ e ∈ s.graph.edges, ∃ f ∈ s.joinFields, ∃ target ∈ s.sources, s.target? f = some target ∧
    e.field = f.id ∧ e.source = f.owner ∧ e.target = target.id
  length : s.graph.edges.length + s.graph.dangling.length = s.joinFields.length

theorem Reachable.drawn (hs : s.Reachable) : s.Drawn where
  edge_iff f hf := by
    have hf := (List.mem_filter.mp hf).1
    constructor
    · rintro ⟨e, he, hid⟩
      obtain ⟨g, hg, he⟩ := List.mem_filterMap.mp he
      obtain ⟨target, ht, hdraws⟩ := edge?_eq_some he
      have hfound := hs.coherent.field?_id hg
      rw [← hdraws.field, hid, hs.coherent.field?_id hf] at hfound
      exact ⟨target, Option.some.inj hfound ▸ ht⟩
    · rintro ⟨target, ht⟩
      obtain ⟨e, he, hdraws⟩ := edge?_of_target ht
      exact ⟨e, List.mem_filterMap.mpr ⟨f, hf, he⟩, hdraws.field⟩
  dangling_iff f hf := by
    obtain ⟨hf, hjoin⟩ := List.mem_filter.mp hf
    constructor
    · rintro ⟨d, hd, howner, hname⟩
      obtain ⟨g, hg, hd⟩ := List.mem_filterMap.mp hd
      obtain ⟨ht, howner', hname'⟩ := dangling?_eq_some hd
      obtain ⟨x, hx, hxid, hxname⟩ := hs.coherent.owner hf
      obtain ⟨y, hy, hyid, hyname⟩ := hs.coherent.owner hg
      have hxy : x = y := hs.source_ext hx hy <| by
        rw [← hxname, ← hyname, ← howner, howner']
      have hfg : f = g := hs.field_ext hf hg (by rw [← hxid, ← hyid, hxy]) (hname.symm.trans hname')
      exact hfg ▸ ht
    · intro ht
      rcases shown_cases s f with ⟨hnone, -⟩ | ⟨join, -, ⟨_, hsome, -⟩ | ⟨-, -, hd⟩⟩
      · simp [hnone] at hjoin
      · cases ht.symm.trans hsome
      · exact ⟨_, List.mem_filterMap.mpr ⟨f, hf, hd⟩, rfl, rfl⟩
  ends e he := by
    obtain ⟨f, hf, he⟩ := List.mem_filterMap.mp he
    obtain ⟨target, ht, hdraws⟩ := edge?_eq_some he
    obtain ⟨join, hj, -⟩ := Option.bind_eq_some_iff.mp ht
    exact ⟨f, List.mem_filter.mpr ⟨hf, by simp [hj]⟩, target, target?_mem ht, ht, hdraws.field,
      hdraws.source, hdraws.target⟩
  length := length_edges_dangling s s.fields

/-! ## Paths -/

/-- Some path resolves from a source to a join with the other as its target. -/
def JoinsTo (s : Store) (a b : Source) : Prop :=
  ∃ path r, s.resolve a.name path = .ok r ∧ s.target? r.field = some b

/-- Joins that lead somewhere are edges one after the other. -/
theorem Leads.reflTransGen : ∀ {fs : List Field} {here there : Source}, s.Leads here fs there →
    ReflTransGen s.graph.Joined here.id there.id
  | [], _, _, h => h ▸ .refl
  | _ :: _, _, _, ⟨hf, _, ht, hrest⟩ =>
    .head (graph_joined.mpr ⟨_, fieldNamed?_mem hf, (fieldNamed?_owner hf).1, _, ht, rfl⟩)
      hrest.reflTransGen

/-- The names of joins that lead somewhere, with that of a field there, are a path to the field. -/
theorem Leads.resolveFrom {fs : List Field} {here there : Source} (h : s.Leads here fs there)
    (hf : s.fieldNamed? there.id f.name = some f) :
    s.resolveFrom here ⟨fs.map (·.name) ++ [f.name]⟩ = .ok ⟨fs, there, f⟩ := by
  have hover : s.Over here (fs.map (·.name)) fs there := ⟨h, .inl rfl⟩
  have hplain : s.Plain there ⟨[f.name]⟩ := .inl rfl
  rw [hover.resolveFrom_append (.inr hplain), resolveFrom_field hf]
  simp [onward, Except.map, Except.mapError, Resolved.behind]

/-- Along edges there are joins, the last of them to the end of the edges. -/
theorem Reachable.leads_of_transGen (hs : s.Reachable) {j : SourceId} (h : TransGen s.graph.Joined a.id j) :
    ∃ fs f there, s.Leads a (fs ++ [f]) there ∧ there.id = j := by
  have step {mid : Source} {k : SourceId} (hmid : s.graph.Joined mid.id k) :
      ∃ f there, s.fieldNamed? mid.id f.name = some f ∧ s.target? f = some there ∧ there.id = k := by
    obtain ⟨f, hf, howner, there, ht, hid⟩ := graph_joined.mp hmid
    have hof : f ∈ s.fieldsOf mid.id := List.mem_filter.mpr ⟨hf, by simp [howner]⟩
    exact ⟨f, there, hs.fieldNamed?_of_mem hof, ht, hid⟩
  induction h with
  | single h =>
    obtain ⟨f, there, hf, ht, hid⟩ := step h
    exact ⟨[], f, there, leads_concat_iff.mpr ⟨a, rfl, hf, ht⟩, hid⟩
  | tail _ h ih =>
    obtain ⟨fs, f, mid, hleads, rfl⟩ := ih
    obtain ⟨g, there, hg, ht, hid⟩ := step h
    exact ⟨fs ++ [f], g, there, leads_concat_iff.mpr ⟨mid, hleads, hg, ht⟩, hid⟩

theorem Reachable.resolve_name (hs : s.Reachable) (ha : a ∈ s.sources) (path : Path) :
    s.resolve a.name path = s.resolveFrom a path := by
  rw [resolve, hs.sourceNamed?_of_mem ha]

/-- A path joins a source to another just if some edges lead there. -/
theorem Reachable.joinsTo_iff (hs : s.Reachable) (ha : a ∈ s.sources) (hb : b ∈ s.sources) :
    s.JoinsTo a b ↔ TransGen s.graph.Joined a.id b.id := by
  have hresolve := hs.resolve_name ha
  constructor
  · rintro ⟨path, r, hr, ht⟩
    obtain ⟨hleads, hfield⟩ := resolveFrom_leads (hresolve path ▸ hr)
    exact .tail' hleads.reflTransGen
      (graph_joined.mpr ⟨r.field, fieldNamed?_mem hfield, (fieldNamed?_owner hfield).1, b, ht, rfl⟩)
  · intro h
    obtain ⟨fs, f, there, hleads, hid⟩ := hs.leads_of_transGen h
    obtain ⟨mid, hfs, hf, ht⟩ := leads_concat_iff.mp hleads
    obtain rfl := hs.coherent.source_ext (target?_mem ht) hb hid
    exact ⟨_, _, (hresolve _).trans (hfs.resolveFrom hf), ht⟩

theorem Reachable.nodeName_id (hs : s.Reachable) (ha : a ∈ s.sources) :
    a.id < s.graph.nodes.length ∧ s.graph.nodeName a.id = a.name := by
  have hlength : s.graph.nodes.length = s.sources.length := List.length_map _
  have hfound : s.sources[a.id]? = some a := hs.coherent.source?_id ha
  exact ⟨hlength ▸ hs.coherent.lt_of_mem ha, by simp [JoinGraph.nodeName, graph, hfound]⟩

/-- The joins of a source are the paths of one segment to a join, with the names of their targets. -/
theorem Reachable.mem_joinsFrom (hs : s.Reachable) (ha : a ∈ s.sources) {name there : String} :
    (name, there) ∈ s.graph.joinsFrom a.id ↔
      ∃ f target, s.resolve a.name ⟨[name]⟩ = .ok ⟨[], a, f⟩ ∧ s.target? f = some target ∧
        target.name = there := by
  simp only [JoinGraph.joinsFrom, List.mem_map, List.mem_filter, beq_iff_eq, Prod.mk.injEq,
    hs.resolve_name ha]
  constructor
  · rintro ⟨e, ⟨he, hsource⟩, rfl, rfl⟩
    obtain ⟨f, hf, he⟩ := List.mem_filterMap.mp he
    obtain ⟨target, ht, hdraws⟩ := edge?_eq_some he
    have hof : f ∈ s.fieldsOf a.id := List.mem_filter.mpr ⟨hf, by simp [← hdraws.source, hsource]⟩
    rw [hdraws.name, hdraws.target, (hs.nodeName_id (target?_mem ht)).2]
    exact ⟨f, target, resolveFrom_field (hs.fieldNamed?_of_mem hof), ht, rfl⟩
  · rintro ⟨f, target, hr, ht, rfl⟩
    obtain ⟨e, he, hdraws⟩ := edge?_of_target ht
    have hfield : s.fieldNamed? a.id f.name = some f := (resolveFrom_leads hr).2
    have hname : f.name = name := by simpa [eq_comm] using resolveFrom_names hr
    refine ⟨e, ⟨List.mem_filterMap.mpr ⟨f, fieldNamed?_mem hfield, he⟩, ?_⟩, ?_, ?_⟩
    · exact hdraws.source.trans (fieldNamed?_owner hfield).1
    · exact hdraws.name.trans hname
    · rw [hdraws.target, (hs.nodeName_id (target?_mem ht)).2]

/-- Two sources are in one group just if paths lead from each to the other. -/
theorem Reachable.mem_group_iff (hs : s.Reachable) (ha : a ∈ s.sources) (hb : b ∈ s.sources) :
    (∃ group ∈ s.graph.cycleGroups, a.name ∈ group ∧ b.name ∈ group) ↔
      s.JoinsTo a b ∧ s.JoinsTo b a := by
  obtain ⟨hlta, hnamea⟩ := hs.nodeName_id ha
  obtain ⟨hltb, hnameb⟩ := hs.nodeName_id hb
  rw [← hnamea, ← hnameb, JoinGraph.mem_group_iff hs.graph_coherent hlta hltb, hs.joinsTo_iff ha hb,
    hs.joinsTo_iff hb ha]
  rfl

/-- **The graph agrees with the paths.** Each join is drawn as an edge or as dangling; a source is in a
group just if a path leads back to it, two sources are in one just if paths lead from each to the other,
and this is so whatever order the components came in. No name is in two groups, the names in a group and the
groups are in order, and there is a group just if the graph is cyclic. The joins of a source are the paths of
one segment to a join. -/
theorem Reachable.graph_agrees (hs : s.Reachable) {components : List (List SourceId)}
    (hc : s.graph.Components components) :
    s.Drawn ∧ s.graph.groupsOf components = s.graph.cycleGroups ∧
    (∀ a ∈ s.sources, (∃ group ∈ s.graph.cycleGroups, a.name ∈ group) ↔ s.JoinsTo a a) ∧
    (∀ a ∈ s.sources, ∀ b ∈ s.sources, a ≠ b →
      ((∃ group ∈ s.graph.cycleGroups, a.name ∈ group ∧ b.name ∈ group) ↔
        s.JoinsTo a b ∧ s.JoinsTo b a)) ∧
    s.graph.cycleGroups.Pairwise List.Disjoint ∧
    (∀ group ∈ s.graph.cycleGroups,
      group.Pairwise (· < ·) ∧ ∀ name ∈ group, ∃ a ∈ s.sources, a.name = name) ∧
    s.graph.cycleGroups.Pairwise (· < ·) ∧
    (s.graph.isCyclic = true ↔ ∃ i, TransGen s.graph.Joined i i) ∧
    (s.graph.isCyclic = true ↔ s.graph.cycleGroups ≠ []) ∧
    ∀ a ∈ s.sources, ∀ name there, (name, there) ∈ s.graph.joinsFrom a.id ↔
      ∃ f target, s.resolve a.name ⟨[name]⟩ = .ok ⟨[], a, f⟩ ∧ s.target? f = some target ∧
        target.name = there := by
  have hg := hs.graph_coherent
  refine ⟨hs.drawn, hc.groupsOf_eq_cycleGroups hg, fun a ha => ?_, fun a ha b hb _ => hs.mem_group_iff ha hb,
    JoinGraph.cycleGroups_disjoint hg, fun group hgroup => ?_, s.graph.cycleGroups_pairwise_lt,
    JoinGraph.isCyclic_iff hg, JoinGraph.isCyclic_iff_cycleGroups hg, fun a ha _ _ => hs.mem_joinsFrom ha⟩
  · simpa only [and_self] using hs.mem_group_iff ha ha
  · obtain ⟨hsorted, hnames⟩ := JoinGraph.cycleGroups_sorted hg hgroup
    exact ⟨hsorted, fun name hname => List.mem_map.mp (hnames name hname)⟩

/-- The shop with sums of spending that are joined to equal ones, and a join of the customers that leads
nowhere. -/
def crossed : Store :=
  [.addJoinField "spending" "equals" "spending" .many (.equal ⟨["total"]⟩ ⟨["equals", "total"]⟩),
    .addJoinField "customers" "tier" "tiers" .one (.equal ⟨["id"]⟩ ⟨["tier", "customer_id"]⟩)].foldl
    attempt shop

/-- The customers and their orders are in one group, and the sums of spending in one of their own. The
customers have no join to the tiers, which are not defined. -/
theorem graph_agrees_crossed :
    let customers : Source := ⟨0, "customers", some "id", none⟩
    let orders : Source := ⟨1, "orders", some "id", none⟩
    crossed.Reachable ∧ crossed.graph.Components [[2], [1, 0]] ∧
    crossed.graph.groupsOf [[2], [1, 0]] = crossed.graph.cycleGroups ∧
    (∃ group ∈ crossed.graph.cycleGroups, "customers" ∈ group ∧ "orders" ∈ group) ∧
    crossed.JoinsTo customers orders ∧ crossed.JoinsTo orders customers ∧
    (∃ group ∈ crossed.graph.cycleGroups, "spending" ∈ group) ∧
    ("orders", "orders") ∈ crossed.graph.joinsFrom customers.id ∧
    ∀ there, ("tier", there) ∉ crossed.graph.joinsFrom customers.id := by
  intro customers orders
  have hs : crossed.Reachable := shop_reachable.attempts _
  have hc : crossed.graph.Components [[2], [1, 0]] :=
    .of_reaches hs.graph_coherent (by decide) (by decide) (by decide)
  have mem {x : Source} (i : Nat) (h : crossed.sources[i]? = some x) : x ∈ crossed.sources :=
    List.mem_of_getElem? h
  have hjoins : crossed.JoinsTo customers orders ∧ crossed.JoinsTo orders customers :=
    ⟨⟨⟨["orders"]⟩, _, rfl, rfl⟩, ⟨⟨["customer"]⟩, _, rfl, rfl⟩⟩
  have htier : (crossed.resolve "customers" ⟨["tier"]⟩).map (crossed.target? ·.field) = .ok none := rfl
  obtain ⟨-, hgroups, hself, htwo, -, -, -, -, -, hfrom⟩ := hs.graph_agrees hc
  refine ⟨hs, hc, hgroups, ?_, hjoins.1, hjoins.2, ?_, ?_, fun there hthere => ?_⟩
  · exact (htwo customers (mem 0 rfl) orders (mem 1 rfl) (by simp [customers, orders])).mpr hjoins
  · exact (hself _ (mem 2 rfl)).mpr ⟨⟨["equals", "equals"]⟩, _, rfl, rfl⟩
  · exact (hfrom customers (mem 0 rfl) _ _).mpr ⟨_, orders, rfl, rfl, rfl⟩
  · obtain ⟨f, target, hr, ht, -⟩ := (hfrom customers (mem 0 rfl) _ _).mp hthere
    rw [hr] at htier
    cases htier.symm.trans (congrArg Except.ok ht)

end Joinery.Store
