/-
Plans that are one but for the numbers of their fields.

The numbers say which fields of a store a plan was made from. They are not part
of what a plan does: plans that differ in them alone explain themselves in the
same words (`Plan.Same.explain`) and run to the same outcome (`Plan.Same.run`).
-/
import Joinery.Proofs.Relation.Evaluate

namespace Joinery

variable (R : FieldId → FieldId → Prop)

/-- Joins that are one but for the numbers of their fields, which are related. -/
def PlannedJoin.Same (j k : PlannedJoin) : Prop := R j.field k.field ∧ k = { j with field := k.field }

/-- Grouping keys that differ at most in the number of their field, by related ones. -/
def GroupingKey.Same (a b : GroupingKey) : Prop := R a.field b.field ∧ b = { a with field := b.field }

/-- Aggregates that differ at most in the number of what defines them, by related ones. -/
def PlannedAggregate.Same (a b : PlannedAggregate) : Prop :=
  Option.Rel R a.definedBy b.definedBy ∧ b = { a with definedBy := b.definedBy }

namespace Plan

mutual
/-- Plans that are one but for the numbers of fields, which are related, also in the nested plans. -/
def Same : Plan → Plan → Prop
  | ⟨source, base, joins, groupBy, aggregates, subPlans⟩,
    ⟨source', base', joins', groupBy', aggregates', subPlans'⟩ =>
    source = source' ∧ base = base' ∧ List.Forall₂ (PlannedJoin.Same R) joins joins' ∧
      List.Forall₂ (GroupingKey.Same R) groupBy groupBy' ∧
      List.Forall₂ (PlannedAggregate.Same R) aggregates aggregates' ∧ SameAll subPlans subPlans'

/-- Nested plans of the same sources that are the same, one by one. -/
def SameAll : List (String × Plan) → List (String × Plan) → Prop
  | [], [] => True
  | (source, p) :: ps, (source', q) :: qs => source = source' ∧ Same p q ∧ SameAll ps qs
  | _, _ => False
end

variable {R}

theorem sameAll_of_forall₂ {ps qs : List (String × Plan)}
    (h : List.Forall₂ (fun e f => e.1 = f.1 ∧ Same R e.2 f.2) ps qs) : SameAll R ps qs := by
  induction h with
  | nil => trivial
  | cons he _ ih => exact ⟨he.1, he.2, ih⟩

/-! ## Explaining -/

/-- Two plans whose relations have the same names. -/
def SameSlots (p q : Plan) : Prop := ∀ slot, p.slotName slot = q.slotName slot

theorem SameSlots.of_joins {p q : Plan} (hs : p.source = q.source)
    (hj : List.Forall₂ (PlannedJoin.Same R) p.joins q.joins) : SameSlots p q
  | .root => hs
  | .join i => by
    have hlabels : p.joins.map (·.label) = q.joins.map (·.label) :=
      forall₂_map_eq (fun j k hjk => by rw [hjk.2]) hj
    have hi := congrArg (·[i]?) hlabels
    simp only [List.getElem?_map] at hi
    rw [slotName, slotName, hi]

namespace SameSlots

variable {p q : Plan}

theorem columnText (h : SameSlots p q) (c : Column) : p.columnText c = q.columnText c := by
  rw [Plan.columnText, Plan.columnText, h c.slot]

mutual
theorem conditionText (h : SameSlots p q) : ∀ c : BoundCondition,
    p.conditionText c = q.conditionText c
  | .equal left right => by
    rw [Plan.conditionText, Plan.conditionText, h.columnText, h.columnText]
  | .all kids => by
    rw [Plan.conditionText, Plan.conditionText, h.conditionTexts kids]

theorem conditionTexts (h : SameSlots p q) : ∀ cs : List BoundCondition,
    p.conditionTexts cs = q.conditionTexts cs
  | [] => by rw [Plan.conditionTexts, Plan.conditionTexts]
  | c :: cs => by
    rw [Plan.conditionTexts, Plan.conditionTexts, h.conditionText c, h.conditionTexts cs]
end

theorem joinLine (h : SameSlots p q) {j k : PlannedJoin} (hjk : j.Same R k) :
    p.joinLine j = q.joinLine k := by
  rw [hjk.2]
  unfold Plan.joinLine
  rw [h.conditionText]

theorem keyLine (h : SameSlots p q) {a b : GroupingKey} (hab : a.Same R b) :
    p.keyLine a = q.keyLine b := by
  rw [hab.2]
  simp only [Plan.keyLine, h.columnText]

theorem aggregateLine (h : SameSlots p q) {a b : PlannedAggregate} (hab : a.Same R b) :
    p.aggregateLine a = q.aggregateLine b := by
  rw [hab.2]
  unfold Plan.aggregateLine
  cases a.target with
  | rows slot => simp only [h slot]
  | column c => simp only [h.columnText]

theorem ownLines (h : SameSlots p q) (hb : p.base = q.base)
    (hj : List.Forall₂ (PlannedJoin.Same R) p.joins q.joins)
    (hk : List.Forall₂ (GroupingKey.Same R) p.groupBy q.groupBy)
    (ha : List.Forall₂ (PlannedAggregate.Same R) p.aggregates q.aggregates) :
    p.ownLines = q.ownLines := by
  have hjoins : p.joins.map p.joinLine = q.joins.map q.joinLine :=
    forall₂_map_eq (fun _ _ hjk => h.joinLine hjk) hj
  have hkeys : p.groupBy.map p.keyLine = q.groupBy.map q.keyLine :=
    forall₂_map_eq (fun _ _ hab => h.keyLine hab) hk
  have haggregates : p.aggregates.map p.aggregateLine = q.aggregates.map q.aggregateLine :=
    forall₂_map_eq (fun _ _ hab => h.aggregateLine hab) ha
  rw [Plan.ownLines, Plan.ownLines, hb, hjoins, hkeys, haggregates]

end SameSlots

mutual
theorem Same.lines : ∀ {p q : Plan}, Same R p q → p.lines = q.lines
  | ⟨source, base, joins, groupBy, aggregates, subPlans⟩,
    ⟨_, _, joins', groupBy', aggregates', subPlans'⟩, h => by
    obtain ⟨rfl, rfl, hj, hk, ha, hs⟩ := h
    rw [Plan.lines, Plan.lines, SameAll.nestedLines hs 0]
    have hslots : SameSlots ⟨source, base, joins, groupBy, aggregates, []⟩
        ⟨source, base, joins', groupBy', aggregates', []⟩ := .of_joins rfl hj
    rw [hslots.ownLines rfl hj hk ha]

theorem SameAll.nestedLines : ∀ {ps qs : List (String × Plan)}, SameAll R ps qs → ∀ position : Nat,
    Plan.nestedLines position ps = Plan.nestedLines position qs
  | [], [], _, _ => rfl
  | (source, p) :: ps, (_, q) :: qs, h, position => by
    obtain ⟨rfl, hp, hs⟩ := h
    rw [Plan.nestedLines, Plan.nestedLines, Same.lines hp, SameAll.nestedLines hs (position + 1)]
end

theorem Same.explain {p q : Plan} (h : Same R p q) : p.explain = q.explain := by
  rw [Plan.explain, Plan.explain, h.lines]

/-! ## Running -/

theorem Same.evaluate {source : String} {base : Base} {joins joins' : List PlannedJoin}
    {groupBy groupBy' : List GroupingKey} {aggregates aggregates' : List PlannedAggregate}
    (hj : List.Forall₂ (PlannedJoin.Same R) joins joins')
    (hk : List.Forall₂ (GroupingKey.Same R) groupBy groupBy')
    (ha : List.Forall₂ (PlannedAggregate.Same R) aggregates aggregates') (tables : Tables)
    (derived : List Relation) :
    Engine.evaluate tables derived ⟨source, base, joins, groupBy, aggregates, []⟩ =
      Engine.evaluate tables derived ⟨source, base, joins', groupBy', aggregates', []⟩ := by
  have htargets : joins.mapM (Engine.joinRelation tables derived) =
      joins'.mapM (Engine.joinRelation tables derived) :=
    mapM_congr_forall₂ (fun j k hjk => by rw [hjk.2]; rfl) hj
  have halike : List.Forall₂ Engine.JoinsAlike joins joins' :=
    hj.imp fun j k hjk => by rw [hjk.2]; exact ⟨rfl, rfl⟩
  have hkeys (relations : List Relation) :
      groupBy.mapM (fun key => Engine.bind relations key.column) =
        groupBy'.mapM fun key => Engine.bind relations key.column :=
    mapM_congr_forall₂ (fun a b hab => by rw [hab.2]) hk
  have hinputs (relations : List Relation) :
      aggregates.mapM (fun a => do return (a.op, ← Engine.bindTarget relations a.target)) =
        aggregates'.mapM fun a => do return (a.op, ← Engine.bindTarget relations a.target) :=
    mapM_congr_forall₂ (fun a b hab => by rw [hab.2]) ha
  have hkeyNames : groupBy.map (·.name) = groupBy'.map (·.name) :=
    forall₂_map_eq (fun a b hab => by rw [hab.2]) hk
  have haggregateNames : aggregates.map (·.name) = aggregates'.map (·.name) :=
    forall₂_map_eq (fun a b hab => by rw [hab.2]) ha
  simp only [Engine.evaluate, htargets, Engine.joinRows_congr halike, hkeys, hinputs, outputColumns,
    hkeyNames, haggregateNames]

mutual
theorem Same.run : ∀ {p q : Plan}, Same R p q → ∀ tables : Tables,
    Engine.run tables p = Engine.run tables q
  | ⟨source, base, joins, groupBy, aggregates, subPlans⟩,
    ⟨_, _, joins', groupBy', aggregates', subPlans'⟩, h, tables => by
    obtain ⟨rfl, rfl, hj, hk, ha, hs⟩ := h
    simp only [Engine.run, SameAll.runAll hs tables, Same.evaluate hj hk ha]

theorem SameAll.runAll : ∀ {ps qs : List (String × Plan)}, SameAll R ps qs → ∀ tables : Tables,
    Engine.runAll tables ps = Engine.runAll tables qs
  | [], [], _, _ => rfl
  | (source, p) :: ps, (_, q) :: qs, h, tables => by
    obtain ⟨rfl, hp, hs⟩ := h
    simp only [Engine.runAll, Same.run hp tables, SameAll.runAll hs tables]
end

end Plan

end Joinery
