/-
How deep plans are nested, and induction along it.
-/
import Joinery.Plan
import Mathlib.Order.Basic

namespace Joinery

namespace Plan

mutual
/-- How deep plans are nested: not at all in a plan that has no nested ones. -/
def depth : Plan → Nat
  | ⟨_, _, _, _, _, subPlans⟩ => depthBelow subPlans

/-- How deep nested plans go, themselves counted. -/
def depthBelow : List (String × Plan) → Nat
  | [] => 0
  | (_, p) :: ps => max (depth p + 1) (depthBelow ps)
end

theorem depthBelow_le_iff {n : Nat} : ∀ {ps : List (String × Plan)},
    depthBelow ps ≤ n ↔ ∀ e ∈ ps, e.2.depth < n
  | [] => by simp [depthBelow]
  | (_, p) :: ps => by
    simp only [depthBelow, Nat.max_le, depthBelow_le_iff, List.forall_mem_cons, Nat.succ_le_iff]

theorem depth_le_iff {p : Plan} {n : Nat} : p.depth ≤ n ↔ ∀ e ∈ p.subPlans, e.2.depth < n := by
  cases p
  exact depthBelow_le_iff

/-- What holds of a plan if it holds of the plans nested in it holds of every plan. -/
theorem nested_induction {P : Plan → Prop} (h : ∀ p, (∀ e ∈ p.subPlans, P e.2) → P p) (p : Plan) :
    P p :=
  h p fun e _ => nested_induction h e.2
termination_by p.depth
decreasing_by exact depth_le_iff.mp (Nat.le_refl _) e ‹_›

end Plan

end Joinery
