/-
The groups of sources that can reach each other.

Two sources are in one group exactly if each reaches the other
(`mem_group_iff`); so no source is in two groups. A group lists the names of its
sources in order, and the groups are in order by their names. They are those of
the strongly connected components that hold a cycle, in whatever order the
components are given (`groupsOf_eq_cycleGroups`).
-/
import Joinery.Proofs.Graph.Reach
import Mathlib.Data.List.Lex
import Mathlib.Data.List.Sort
import Mathlib.Data.String.Basic

namespace Joinery

section

variable {α : Type} [LinearOrder α] {xs ys : List α}

theorem mergeSort_congr (h : xs.Perm ys) :
    (xs.mergeSort fun a b => decide (a ≤ b)) = ys.mergeSort fun a b => decide (a ≤ b) :=
  List.Perm.eq_of_pairwise (fun _ _ _ _ => le_antisymm) (List.pairwise_mergeSort' (· ≤ ·) xs)
    (List.pairwise_mergeSort' (· ≤ ·) ys)
    ((List.mergeSort_perm xs _).trans (h.trans (List.mergeSort_perm ys _).symm))

theorem mergeSort_pairwise_lt (h : xs.Nodup) :
    (xs.mergeSort fun a b => decide (a ≤ b)).Pairwise (· < ·) :=
  (List.pairwise_mergeSort' (· ≤ ·) xs).imp₂ (fun _ _ => lt_of_le_of_ne)
    ((List.mergeSort_perm xs _).nodup_iff.mpr h)

end

namespace JoinGraph

open Relation

variable {g : JoinGraph} {a b c : SourceId} {ids ids' : List SourceId} {group : List String}

/-! ## Names -/

theorem Coherent.nodeName_inj (hg : g.Coherent) (ha : a < g.nodes.length) (hb : b < g.nodes.length)
    (h : g.nodeName a = g.nodeName b) : a = b := by
  simp only [nodeName, List.getElem?_eq_getElem ha, List.getElem?_eq_getElem hb, Option.getD_some] at h
  exact hg.nodes.getElem_inj_iff.mp h

/-- The names of some sources, in order. -/
def names (g : JoinGraph) (ids : List SourceId) : List String := (ids.map g.nodeName).mergeSort

theorem mem_names {name : String} : name ∈ g.names ids ↔ ∃ a ∈ ids, g.nodeName a = name := by
  simp [names]

theorem names_congr (h : ids.Perm ids') : g.names ids = g.names ids' := mergeSort_congr (h.map _)

theorem names_pairwise (hg : g.Coherent) (hids : ids.Nodup) (hlt : ∀ a ∈ ids, a < g.nodes.length) :
    (g.names ids).Pairwise (· < ·) :=
  mergeSort_pairwise_lt (hids.map_on fun a ha b hb => hg.nodeName_inj (hlt a ha) (hlt b hb))

/-! ## Groups -/

/-- Each source reaches the other. -/
def Linked (g : JoinGraph) (a b : SourceId) : Prop := TransGen g.Joined a b ∧ TransGen g.Joined b a

theorem Linked.symm (h : g.Linked a b) : g.Linked b a := ⟨h.2, h.1⟩

theorem Linked.trans (hab : g.Linked a b) (hbc : g.Linked b c) : g.Linked a c :=
  ⟨hab.1.trans hbc.1, hbc.2.trans hab.2⟩

/-- The sources that a source can reach and be reached from. -/
def linked (g : JoinGraph) (a : SourceId) : List SourceId :=
  let back := g.reversed.reachable a
  (g.reachable a).filter fun b => back.contains b

theorem mem_linked (hg : g.Coherent) : b ∈ g.linked a ↔ g.Linked a b := by
  simp [linked, Linked, mem_reachable hg, mem_reversed_reachable hg]

theorem linked_nodup (g : JoinGraph) (a : SourceId) : (g.linked a).Nodup :=
  (reachable_nodup g a).filter _

theorem groupOf_eq (g : JoinGraph) (a : SourceId) : g.groupOf a = g.names (g.linked a) := rfl

theorem groupOf_congr (hg : g.Coherent) (h : g.Linked a b) : g.groupOf a = g.groupOf b := by
  refine names_congr ((List.perm_ext_iff_of_nodup (linked_nodup g a) (linked_nodup g b)).mpr fun c => ?_)
  rw [mem_linked hg, mem_linked hg]
  exact ⟨h.symm.trans, h.trans⟩

theorem mem_groupOf (hg : g.Coherent) (hb : b < g.nodes.length) :
    g.nodeName b ∈ g.groupOf a ↔ g.Linked a b := by
  rw [groupOf_eq, mem_names]
  constructor
  · rintro ⟨c, hc, hname⟩
    have hlinked := (mem_linked hg).mp hc
    exact hg.nodeName_inj (hg.transGen_lt hlinked.1).2 hb hname ▸ hlinked
  · exact fun h => ⟨b, (mem_linked hg).mpr h, rfl⟩

theorem mem_cycleGroups (hg : g.Coherent) :
    group ∈ g.cycleGroups ↔ ∃ a, TransGen g.Joined a a ∧ g.groupOf a = group := by
  simp [cycleGroups, mem_onCycle hg]

/-- Two sources are in one group just if each reaches the other. -/
theorem mem_group_iff (hg : g.Coherent) (ha : a < g.nodes.length) (hb : b < g.nodes.length) :
    (∃ group ∈ g.cycleGroups, g.nodeName a ∈ group ∧ g.nodeName b ∈ group) ↔ g.Linked a b := by
  constructor
  · rintro ⟨group, hgroup, hina, hinb⟩
    obtain ⟨c, -, rfl⟩ := (mem_cycleGroups hg).mp hgroup
    exact ((mem_groupOf hg ha).mp hina).symm.trans ((mem_groupOf hg hb).mp hinb)
  · intro h
    have hcycle : g.Linked a a := h.trans h.symm
    exact ⟨g.groupOf a, (mem_cycleGroups hg).mpr ⟨a, hcycle.1, rfl⟩, (mem_groupOf hg ha).mpr hcycle,
      (mem_groupOf hg hb).mpr h⟩

/-- A group lists names of sources, each once and in order. -/
theorem cycleGroups_sorted (hg : g.Coherent) (h : group ∈ g.cycleGroups) :
    group.Pairwise (· < ·) ∧ ∀ name ∈ group, name ∈ g.nodes := by
  obtain ⟨a, -, rfl⟩ := (mem_cycleGroups hg).mp h
  have hlt : ∀ b ∈ g.linked a, b < g.nodes.length := fun b hb =>
    (hg.transGen_lt ((mem_linked hg).mp hb).1).2
  refine ⟨names_pairwise hg (linked_nodup g a) hlt, fun name hname => ?_⟩
  obtain ⟨b, hb, rfl⟩ := mem_names.mp hname
  rw [nodeName, List.getElem?_eq_getElem (hlt b hb)]
  exact List.getElem_mem (hlt b hb)

theorem groupLe_iff : ∀ {as bs : List String}, groupLe as bs = true ↔ as < bs ∨ as = bs
  | [], [] => by simp [groupLe]
  | [], b :: bs => by simp [groupLe]
  | a :: as, [] => by simp [groupLe]
  | a :: as, b :: bs => by
    rw [groupLe, List.cons_lt_cons_iff, List.cons.injEq, Bool.or_eq_true, Bool.and_eq_true, groupLe_iff,
      decide_eq_true_eq, beq_iff_eq, and_or_left, or_assoc]

theorem groupLe_eq : groupLe = fun as bs => decide (as ≤ bs) := by
  funext as bs
  rw [Bool.eq_iff_iff, groupLe_iff, decide_eq_true_eq]
  exact le_iff_lt_or_eq.symm

theorem cycleGroups_pairwise_lt (g : JoinGraph) : g.cycleGroups.Pairwise (· < ·) := by
  rw [cycleGroups, groupLe_eq]
  exact mergeSort_pairwise_lt (nodup_eraseDups _)

theorem cycleGroups_disjoint (hg : g.Coherent) : g.cycleGroups.Pairwise List.Disjoint := by
  refine (g.cycleGroups_pairwise_lt).imp_of_mem fun hgroup hgroup' hlt name hname hname' => hlt.ne ?_
  obtain ⟨a, -, rfl⟩ := (mem_cycleGroups hg).mp hgroup
  obtain ⟨b, -, rfl⟩ := (mem_cycleGroups hg).mp hgroup'
  obtain ⟨c, hc, rfl⟩ := mem_names.mp hname
  have hac := (mem_linked hg).mp hc
  have hbc := (mem_groupOf hg (hg.transGen_lt hac.1).2).mp hname'
  exact groupOf_congr hg (hac.trans hbc.symm)

theorem isCyclic_iff_cycleGroups (hg : g.Coherent) : g.isCyclic = true ↔ g.cycleGroups ≠ [] := by
  rw [isCyclic_iff hg]
  constructor
  · rintro ⟨a, ha⟩
    exact List.ne_nil_of_mem ((mem_cycleGroups hg).mpr ⟨a, ha, rfl⟩)
  · intro hne
    obtain ⟨group, hgroup⟩ := List.exists_mem_of_ne_nil _ hne
    obtain ⟨a, ha, -⟩ := (mem_cycleGroups hg).mp hgroup
    exact ⟨a, ha⟩

/-! ## Components -/

/-- The strongly connected components of a graph, in any order: every source is in one of them, and those in
one with it are the sources that it can reach and be reached from, by any number of joins. -/
structure Components (g : JoinGraph) (components : List (List SourceId)) : Prop where
  ne_nil : ∀ ids ∈ components, ids ≠ []
  perm : components.flatten.Perm (List.range g.nodes.length)
  strong : ∀ ids ∈ components, ∀ a ∈ ids, ∀ b,
    b ∈ ids ↔ ReflTransGen g.Joined a b ∧ ReflTransGen g.Joined b a

/-- Is there a cycle in a component? One of several sources has one, one of a single source if that is
joined to itself. -/
def hasCycle (g : JoinGraph) : List SourceId → Bool
  | [] => false
  | [a] => g.edges.any fun e => e.source == a && e.target == a
  | _ :: _ :: _ => true

/-- The names of the components with a cycle, sorted. -/
def groupsOf (g : JoinGraph) (components : List (List SourceId)) : List (List String) :=
  ((components.filter g.hasCycle).map g.names).mergeSort groupLe

namespace Components

variable {components : List (List SourceId)}

theorem flatten_nodup (h : g.Components components) :
    (∀ ids ∈ components, ids.Nodup) ∧ components.Pairwise List.Disjoint :=
  List.nodup_flatten.mp (h.perm.nodup_iff.mpr List.nodup_range)

theorem mem_iff (h : g.Components components) : (∃ ids ∈ components, a ∈ ids) ↔ a < g.nodes.length := by
  rw [← List.mem_flatten, h.perm.mem_iff, List.mem_range]

theorem eq_of_mem (h : g.Components components) (hids : ids ∈ components) (hids' : ids' ∈ components)
    (ha : a ∈ ids) (ha' : a ∈ ids') : ids = ids' := by
  have : Std.Symm (@List.Disjoint SourceId) := ⟨fun _ _ => List.disjoint_symm⟩
  by_contra hne
  exact h.flatten_nodup.2.forall hids hids' hne ha ha'

theorem components_nodup (h : g.Components components) : components.Nodup := by
  refine h.flatten_nodup.2.imp_of_mem fun hids _ hdisjoint heq => ?_
  obtain ⟨a, ha⟩ := List.exists_mem_of_ne_nil _ (h.ne_nil _ hids)
  exact hdisjoint ha (heq ▸ ha)

theorem hasCycle_iff (h : g.Components components) (hids : ids ∈ components) :
    g.hasCycle ids = true ↔ ∃ a ∈ ids, TransGen g.Joined a a := by
  match ids, hids with
  | [], _ => simp [hasCycle]
  | [a], hids =>
    have hself : g.hasCycle [a] = true ↔ g.Joined a a := by simp [hasCycle, Joined]
    rw [hself]
    constructor
    · exact fun haa => ⟨a, List.mem_singleton_self a, .single haa⟩
    · rintro ⟨a', ha', hcycle⟩
      obtain rfl : a' = a := List.mem_singleton.mp ha'
      -- the first source on the cycle is in the component, so it is the only one of it
      obtain ⟨b, hab, hba⟩ := TransGen.head'_iff.mp hcycle
      have hb := (h.strong _ hids a' ha' b).mpr ⟨.single hab, hba⟩
      exact List.mem_singleton.mp hb ▸ hab
  | a :: b :: ids, hids =>
    have hne : b ≠ a := by
      rintro rfl
      exact (List.nodup_cons.mp (h.flatten_nodup.1 _ hids)).1 List.mem_cons_self
    obtain ⟨hab, hba⟩ := (h.strong _ hids a List.mem_cons_self b).mp (by simp)
    have hab := (reflTransGen_iff_eq_or_transGen.mp hab).resolve_left hne
    have hba := (reflTransGen_iff_eq_or_transGen.mp hba).resolve_left hne.symm
    simp only [hasCycle, true_iff]
    exact ⟨a, List.mem_cons_self, hab.trans hba⟩

/-- The component of a source on a cycle holds the sources of its group. -/
theorem names_eq_groupOf (h : g.Components components) (hg : g.Coherent) (hids : ids ∈ components)
    (ha : a ∈ ids) (hcycle : TransGen g.Joined a a) : g.names ids = g.groupOf a := by
  have hnodup := h.flatten_nodup.1 ids hids
  refine names_congr ((List.perm_ext_iff_of_nodup hnodup (linked_nodup g a)).mpr fun b => ?_)
  rw [mem_linked hg, h.strong ids hids a ha, reflTransGen_iff_eq_or_transGen,
    reflTransGen_iff_eq_or_transGen]
  constructor
  · rintro ⟨rfl | hab, hback⟩
    · exact ⟨hcycle, hcycle⟩
    · rcases hback with rfl | hba
      · exact ⟨hcycle, hcycle⟩
      · exact ⟨hab, hba⟩
  · exact fun hab => ⟨.inr hab.1, .inr hab.2⟩

theorem names_inj (h : g.Components components) (hg : g.Coherent) (hids : ids ∈ components)
    (hids' : ids' ∈ components) (hnames : g.names ids = g.names ids') : ids = ids' := by
  obtain ⟨a, ha⟩ := List.exists_mem_of_ne_nil _ (h.ne_nil _ hids)
  obtain ⟨b, hb, hname⟩ := mem_names.mp (hnames ▸ mem_names.mpr ⟨a, ha, rfl⟩)
  obtain rfl := hg.nodeName_inj (h.mem_iff.mp ⟨ids', hids', hb⟩) (h.mem_iff.mp ⟨ids, hids, ha⟩) hname
  exact h.eq_of_mem hids hids' ha hb

/-- Components may be checked against what is reachable. -/
theorem of_reaches (hg : g.Coherent) (hne : ∀ ids ∈ components, ids ≠ [])
    (hperm : components.flatten.Perm (List.range g.nodes.length))
    (hstrong : ∀ ids ∈ components, ∀ a ∈ ids, ∀ b ∈ components.flatten,
      b ∈ ids ↔ b = a ∨ g.reaches a b = true ∧ g.reaches b a = true) : g.Components components := by
  have hreaches (a b : SourceId) : g.reaches a b = true ↔ TransGen g.Joined a b := by
    rw [reaches, List.contains_eq_mem, decide_eq_true_eq, mem_reachable hg]
  simp only [hreaches] at hstrong
  refine ⟨hne, hperm, fun ids hids a ha b => ?_⟩
  constructor
  · intro hb
    rcases (hstrong ids hids a ha b (List.mem_flatten.mpr ⟨ids, hids, hb⟩)).mp hb with rfl | ⟨hab, hba⟩
    · exact ⟨.refl, .refl⟩
    · exact ⟨hab.to_reflTransGen, hba.to_reflTransGen⟩
  · rintro ⟨hab, hba⟩
    rcases reflTransGen_iff_eq_or_transGen.mp hab with rfl | hab
    · exact ha
    · have hb : b ∈ components.flatten := hperm.mem_iff.mpr (List.mem_range.mpr (hg.transGen_lt hab).2)
      refine (hstrong ids hids a ha b hb).mpr ?_
      exact (reflTransGen_iff_eq_or_transGen.mp hba).imp Eq.symm fun hba => ⟨hab, hba⟩

/-- The groups are the components with a cycle. -/
theorem groupsOf_eq_cycleGroups (h : g.Components components) (hg : g.Coherent) :
    g.groupsOf components = g.cycleGroups := by
  have hnodup : ((components.filter g.hasCycle).map g.names).Nodup :=
    (h.components_nodup.filter _).map_on fun ids hids ids' hids' =>
      h.names_inj hg (List.mem_filter.mp hids).1 (List.mem_filter.mp hids').1
  have hperm : ((components.filter g.hasCycle).map g.names).Perm (g.onCycle.map g.groupOf).eraseDups := by
    refine (List.perm_ext_iff_of_nodup hnodup (nodup_eraseDups _)).mpr fun group => ?_
    rw [List.mem_eraseDups, List.mem_map, List.mem_map]
    constructor
    · rintro ⟨ids, hids, rfl⟩
      obtain ⟨hids, hcycle⟩ := List.mem_filter.mp hids
      obtain ⟨a, ha, hcycle⟩ := (h.hasCycle_iff hids).mp hcycle
      exact ⟨a, (mem_onCycle hg).mpr hcycle, (h.names_eq_groupOf hg hids ha hcycle).symm⟩
    · rintro ⟨a, ha, rfl⟩
      have hcycle := (mem_onCycle hg).mp ha
      obtain ⟨ids, hids, ha⟩ := h.mem_iff.mpr (hg.transGen_lt hcycle).1
      exact ⟨ids, List.mem_filter.mpr ⟨hids, (h.hasCycle_iff hids).mpr ⟨a, ha, hcycle⟩⟩,
        h.names_eq_groupOf hg hids ha hcycle⟩
  rw [groupsOf, cycleGroups, groupLe_eq]
  exact mergeSort_congr hperm

end Components

end JoinGraph

end Joinery
