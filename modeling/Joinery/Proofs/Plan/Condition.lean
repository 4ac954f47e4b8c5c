/-
Bound conditions.

Binding a condition looks at the two relations only to put them into the
columns, so it can be done with any two relations in their place
(`Store.bind_sides`), and it fails or succeeds for all of them alike.
-/
import Joinery.Plan.JoinSet
import Joinery.Proofs.Outcome

namespace Joinery

namespace BoundCondition

variable (σ : Slot → Slot)

/-- A column at another slot. -/
def relabelColumn (c : Column) : Column := ⟨σ c.slot, c.field⟩

mutual
/-- The condition with other relations in its columns. -/
def relabel : BoundCondition → BoundCondition
  | .equal left right => .equal (relabelColumn σ left) (relabelColumn σ right)
  | .all kids => .all (relabelAll kids)

/-- Conditions with their columns at other slots. -/
def relabelAll : List BoundCondition → List BoundCondition
  | [] => []
  | c :: cs => relabel c :: relabelAll cs
end

mutual
theorem equalities_relabel : ∀ c : BoundCondition, (c.relabel σ).equalities =
    c.equalities.map fun (left, right) => (relabelColumn σ left, relabelColumn σ right)
  | .equal _ _ => rfl
  | .all kids => allEqualities_relabel kids

theorem allEqualities_relabel : ∀ cs : List BoundCondition, allEqualities (relabelAll σ cs) =
    (allEqualities cs).map fun (left, right) => (relabelColumn σ left, relabelColumn σ right)
  | [] => rfl
  | c :: cs => by
    rw [relabelAll, allEqualities, equalities_relabel c, allEqualities_relabel cs, allEqualities,
      List.map_append]
end

end BoundCondition

namespace Store

variable (s : Store) (f : Field)

/-- The base and the first join in the place of two relations. -/
def sides (parent own : Slot) : Slot → Slot
  | .root => parent
  | .join _ => own

theorem side_sides (reference : Path) (parent own : Slot) :
    s.side f reference parent own =
      (s.side f reference .root (.join 0)).map fun (source, slot, name) =>
        (source, sides parent own slot, name) := by
  unfold side
  split
  · rfl
  · split
    · split <;> rfl
    · rfl
  · rfl

theorem bindReference_sides (reference : Path) (parent own : Slot) :
    s.bindReference f parent own reference =
      (s.bindReference f .root (.join 0) reference).map
        (BoundCondition.relabelColumn (sides parent own)) := by
  unfold bindReference
  rw [side_sides s f reference parent own]
  cases s.side f reference .root (.join 0) with
  | error e => rfl
  | ok out =>
    simp only [Bind.bind, Except.bind, Except.map, pure, Except.pure]
    split
    · rfl
    · split <;> rfl

mutual
theorem bind_sides (parent own : Slot) : ∀ on : Condition,
    s.bind f parent own on =
      (s.bind f .root (.join 0) on).map (BoundCondition.relabel (sides parent own))
  | .equal left right => by
    unfold bind
    rw [bindReference_sides s f left parent own, bindReference_sides s f right parent own]
    cases s.bindReference f .root (.join 0) left with
    | error e => rfl
    | ok l => cases s.bindReference f .root (.join 0) right <;> rfl
  | .all kids => by
    unfold bind
    rw [bindAll_sides parent own kids]
    cases s.bindAll f .root (.join 0) kids <;> rfl

theorem bindAll_sides (parent own : Slot) : ∀ kids : List Condition,
    s.bindAll f parent own kids =
      (s.bindAll f .root (.join 0) kids).map (BoundCondition.relabelAll (sides parent own))
  | [] => rfl
  | on :: kids => by
    unfold bindAll
    rw [bind_sides parent own on, bindAll_sides parent own kids]
    cases s.bind f .root (.join 0) on with
    | error e => rfl
    | ok kid => cases s.bindAll f .root (.join 0) kids <;> rfl
end

end Store

end Joinery
