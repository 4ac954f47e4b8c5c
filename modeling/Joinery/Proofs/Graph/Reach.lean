/-
What a join graph finds by spreading over its joins.

A round finds the sources that one join leads to from those that were found
last. What is found is reached by joins (`spread_sound`); as the sources are
finitely many and found once, there is nothing left to find after as many rounds
as there are sources (`spread_closed`). So `reachable` finds exactly the sources
that one or more joins lead to (`mem_reachable`).
-/
import Joinery.Graph
import Joinery.Proofs.Relation.Repeats
import Mathlib.Data.List.Perm.Subperm
import Mathlib.Data.List.Range
import Mathlib.Logic.Relation

namespace Joinery.JoinGraph

open Relation

variable {g : JoinGraph} {a b : SourceId} {seen last : List SourceId}

/-- Some join leads from one source to another. -/
def Joined (g : JoinGraph) (a b : SourceId) : Prop := ∃ e ∈ g.edges, e.source = a ∧ e.target = b

/-- The names are distinct, and the joins are between sources of the graph. -/
structure Coherent (g : JoinGraph) : Prop where
  nodes : g.nodes.Nodup
  edges : ∀ e ∈ g.edges, e.source < g.nodes.length ∧ e.target < g.nodes.length

theorem Coherent.joined_lt (hg : g.Coherent) (h : g.Joined a b) :
    a < g.nodes.length ∧ b < g.nodes.length := by
  obtain ⟨e, he, rfl, rfl⟩ := h
  exact hg.edges e he

theorem Coherent.transGen_lt (hg : g.Coherent) (h : TransGen g.Joined a b) :
    a < g.nodes.length ∧ b < g.nodes.length := by
  obtain ⟨c, hac, -⟩ := TransGen.head'_iff.mp h
  obtain ⟨d, -, hdb⟩ := TransGen.tail'_iff.mp h
  exact ⟨(hg.joined_lt hac).1, (hg.joined_lt hdb).2⟩

theorem mem_successors : b ∈ g.successors a ↔ g.Joined a b := by
  simp [successors, Joined, and_assoc]

/-! ## Rounds -/

/-- What the next round finds. -/
def next (g : JoinGraph) (seen last : List SourceId) : List SourceId :=
  (last.flatMap g.successors).eraseDups.filter fun id => !seen.contains id

theorem mem_next : b ∈ g.next seen last ↔ (∃ a ∈ last, g.Joined a b) ∧ b ∉ seen := by
  simp [next, mem_successors]

/-- A round finds nothing twice, and nothing that was found before. -/
theorem nodup_append_next (hseen : seen.Nodup) : (seen ++ g.next seen last).Nodup :=
  List.nodup_append.mpr ⟨hseen, (nodup_eraseDups _).filter _,
    fun _ ha _ hb hab => (mem_next.mp hb).2 (hab ▸ ha)⟩

theorem spread_succ (rounds : Nat) : g.spread (rounds + 1) seen last =
    g.spread rounds (seen ++ g.next seen last) (g.next seen last) := rfl

/-- A round that finds nothing is the last. -/
theorem spread_nil (seen : List SourceId) : ∀ rounds : Nat, g.spread rounds seen [] = seen
  | 0 => rfl
  | rounds + 1 => by
    have hnext : g.next seen [] = [] := rfl
    rw [spread_succ, hnext, List.append_nil, spread_nil seen rounds]

theorem subset_spread {rounds : Nat} : seen ⊆ g.spread rounds seen last := by
  induction rounds generalizing seen last with
  | zero => exact List.Subset.refl seen
  | succ rounds ih => exact List.Subset.trans (List.subset_append_left seen _) ih

theorem spread_nodup {rounds : Nat} (hseen : seen.Nodup) : (g.spread rounds seen last).Nodup := by
  induction rounds generalizing seen last with
  | zero => exact hseen
  | succ rounds ih => exact ih (nodup_append_next hseen)

/-- What holds of the sources found so far, and is handed on by joins, holds of all that are found. -/
theorem spread_sound {P : SourceId → Prop} (hP : ∀ a b, P a → g.Joined a b → P b) {rounds : Nat}
    (hseen : ∀ a ∈ seen, P a) (hlast : ∀ a ∈ last, P a) : ∀ a ∈ g.spread rounds seen last, P a := by
  induction rounds generalizing seen last with
  | zero => exact hseen
  | succ rounds ih =>
    have hnext : ∀ b ∈ g.next seen last, P b := by
      intro b hb
      obtain ⟨⟨a, ha, hab⟩, -⟩ := mem_next.mp hb
      exact hP a b (hlast a ha) hab
    exact ih (fun a ha => (List.mem_append.mp ha).elim (hseen a) (hnext a)) hnext

/-- After enough rounds the sources that were found are closed under joins. Before each round they are,
but for the joins of those that were found last. -/
theorem spread_closed (hg : g.Coherent) {rounds : Nat} (hseen : seen.Nodup)
    (hlt : ∀ a ∈ seen, a < g.nodes.length)
    (hclosed : ∀ a ∈ seen, a ∉ last → ∀ b, g.Joined a b → b ∈ seen)
    (hrounds : g.nodes.length ≤ rounds + seen.length) :
    ∀ a ∈ g.spread rounds seen last, ∀ b, g.Joined a b → b ∈ g.spread rounds seen last := by
  induction rounds generalizing seen last with
  | zero =>
    -- every source has been found
    have hsub : seen ⊆ List.range g.nodes.length := fun a ha => List.mem_range.mpr (hlt a ha)
    have hperm := (hseen.subperm hsub).perm_of_length_le (by simpa using hrounds)
    intro a _ b hab
    exact hperm.mem_iff.mpr (List.mem_range.mpr (hg.joined_lt hab).2)
  | succ rounds ih =>
    have hfound : ∀ a ∈ seen, ∀ b, g.Joined a b → b ∈ seen ++ g.next seen last := by
      intro a ha b hab
      by_cases hb : b ∈ seen
      · exact List.mem_append_left _ hb
      · have hlast : a ∈ last := by
          by_contra hold
          exact hb (hclosed a ha hold b hab)
        exact List.mem_append_right _ (mem_next.mpr ⟨⟨a, hlast, hab⟩, hb⟩)
    rw [spread_succ]
    by_cases hnext : g.next seen last = []
    · rw [hnext, List.append_nil] at hfound
      rwa [hnext, List.append_nil, spread_nil]
    · refine ih (nodup_append_next hseen) (fun b hb => ?_) (fun a ha hold b hab => ?_) ?_
      · rcases List.mem_append.mp hb with hb | hb
        · exact hlt b hb
        · obtain ⟨⟨a, -, hab⟩, -⟩ := mem_next.mp hb
          exact (hg.joined_lt hab).2
      · exact hfound a ((List.mem_append.mp ha).resolve_right hold) b hab
      · have hpos := List.length_pos_iff.mpr hnext
        rw [List.length_append]
        omega

/-! ## Reaching -/

theorem reachable_nodup (g : JoinGraph) (a : SourceId) : (g.reachable a).Nodup :=
  spread_nodup (nodup_eraseDups _)

/-- The sources that are found are those that one or more joins lead to. -/
theorem mem_reachable (hg : g.Coherent) : b ∈ g.reachable a ↔ TransGen g.Joined a b := by
  have hfirst : ∀ c, c ∈ (g.successors a).eraseDups ↔ g.Joined a c := fun c =>
    List.mem_eraseDups.trans mem_successors
  have hsingle : ∀ c ∈ (g.successors a).eraseDups, TransGen g.Joined a c := fun c hc =>
    .single ((hfirst c).mp hc)
  constructor
  · exact spread_sound (fun _ _ => .tail) hsingle hsingle b
  · intro h
    induction h with
    | single hab => exact subset_spread ((hfirst _).mpr hab)
    | tail _ hbc ih =>
      exact spread_closed hg (nodup_eraseDups _) (fun c hc => (hg.joined_lt ((hfirst c).mp hc)).2)
        (fun c hc hnot => absurd hc hnot) (Nat.le_add_right _ _) _ ih _ hbc

theorem reversed_joined : g.reversed.Joined a b ↔ g.Joined b a := by
  simp [Joined, reversed, and_comm]

theorem Coherent.reversed (hg : g.Coherent) : g.reversed.Coherent := by
  refine ⟨hg.nodes, fun e he => ?_⟩
  obtain ⟨e, hmem, rfl⟩ := List.mem_map.mp he
  exact (hg.edges e hmem).symm

theorem mem_reversed_reachable (hg : g.Coherent) :
    b ∈ g.reversed.reachable a ↔ TransGen g.Joined b a := by
  have hswap : g.reversed.Joined = Function.swap g.Joined := by
    funext a b
    exact propext reversed_joined
  rw [mem_reachable hg.reversed, hswap, transGen_swap]

theorem mem_onCycle (hg : g.Coherent) : a ∈ g.onCycle ↔ TransGen g.Joined a a := by
  have hlt (h : TransGen g.Joined a a) := (hg.transGen_lt h).1
  simpa [onCycle, reaches, mem_reachable hg] using hlt

theorem isCyclic_iff (hg : g.Coherent) : g.isCyclic = true ↔ ∃ a, TransGen g.Joined a a := by
  rw [isCyclic, Bool.not_eq_true', List.isEmpty_eq_false_iff_exists_mem]
  exact exists_congr fun a => mem_onCycle hg

end Joinery.JoinGraph
