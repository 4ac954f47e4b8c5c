/-
Two stores of sources and fields that are paired.

Paired sources have one name, and paired fields one name and one kind; the
numbers may differ, and so may the queries of the sources. Resolving a path,
binding a condition and finding what an item asks for go alike in both stores:
they fail with one error, or succeed with fields that are paired.
-/
import Joinery.Proofs.Outcome
import Joinery.Plan.Compile

namespace Joinery

namespace Store

/-- The sources of two numbers have one name, and under each name fields that are paired. -/
structure SameFields (s t : Store) (F : Field → Field → Prop) (i j : SourceId) : Prop where
  name : s.sourceName i = t.sourceName j
  field : ∀ name, Option.Rel F (s.fieldNamed? i name) (t.fieldNamed? j name)

/-- Two stores whose sources are paired by name, and the fields of these by name. Paired sources and
paired fields look the same, but for their numbers and for the queries. -/
structure Paired (s t : Store) (S : Source → Source → Prop) (F : Field → Field → Prop) : Prop where
  named : ∀ name, Option.Rel S (s.sourceNamed? name) (t.sourceNamed? name)
  name : ∀ {x y}, S x y → x.name = y.name
  primaryKey : ∀ {x y}, S x y → x.primaryKey = y.primaryKey
  fields : ∀ {x y}, S x y → SameFields s t F x.id y.id
  fieldName : ∀ {f g}, F f g → f.name = g.name
  kind : ∀ {f g}, F f g → f.kind = g.kind
  owner : ∀ {f g}, F f g → SameFields s t F f.owner g.owner

/-- Paths that resolve alike. -/
structure SameEnd (S : Source → Source → Prop) (F : Field → Field → Prop) (r r' : Resolved) :
    Prop where
  joins : List.Forall₂ F r.joins r'.joins
  field : F r.field r'.field
  source : S r.source r'.source

/-- Ends of keys that correspond. -/
structure SameKeyEnd (S : Source → Source → Prop) (F : Field → Field → Prop) (e e' : KeyEnd) :
    Prop where
  chain : List.Forall₂ F e.chain e'.chain
  field : F e.field e'.field
  source : S e.source e'.source

/-- The numbers of two fields that are paired. -/
def SameId (F : Field → Field → Prop) (a b : FieldId) : Prop := ∃ f g, F f g ∧ f.id = a ∧ g.id = b

/-- Ends of aggregates that correspond. -/
structure SameAggregateEnd (F : Field → Field → Prop) (e e' : AggregateEnd) : Prop where
  op : e.op = e'.op
  chain : List.Forall₂ F e.chain e'.chain
  column : e.column = e'.column
  definedBy : Option.Rel (SameId F) e.definedBy e'.definedBy

namespace Paired

variable {s t : Store} {S : Source → Source → Prop} {F : Field → Field → Prop} {x y : Source}
  {f g : Field}

theorem qualifiedName (h : Paired s t S F) (hf : F f g) : s.qualifiedName f = t.qualifiedName g := by
  rw [Store.qualifiedName, Store.qualifiedName, (h.owner hf).name, h.fieldName hf]

theorem target? (h : Paired s t S F) (hf : F f g) : Option.Rel S (s.target? f) (t.target? g) := by
  unfold Store.target?
  rw [h.kind hf]
  cases g.kind.join? with
  | none => exact .none
  | some join => exact h.named join.target

/-! ## Paths -/

theorem lookup (h : Paired s t S F) (hxy : S x y) (segment : String) (position : Nat) :
    Agree F (s.lookup x segment position) (t.lookup y segment position) := by
  unfold Store.lookup
  rw [h.name hxy]
  obtain ⟨hf, hg⟩ | ⟨f, g, hf, hg, hfg⟩ := optionRel_cases ((h.fields hxy).field segment)
  · simp only [hf, hg]
    exact .error _
  · simp only [hf, hg]
    exact .ok hfg

theorem follow (h : Paired s t S F) (hxy : S x y) (hfg : F f g) :
    Agree S (s.follow x f) (t.follow y g) := by
  unfold Store.follow
  rw [h.name hxy, h.fieldName hfg, h.kind hfg, h.qualifiedName hfg]
  cases g.kind.join? with
  | none => exact .error _
  | some join =>
    obtain ⟨hs, ht⟩ | ⟨x', y', hs, ht, hxy'⟩ := optionRel_cases (h.named join.target)
    · simp only [hs, ht]
      exact .error _
    · simp only [hs, ht]
      exact .ok hxy'

theorem walk (h : Paired s t S F) : ∀ (segments : List String) {x y : Source} (position : Nat),
    S x y → Agree (SameEnd S F) (s.walk x position segments) (t.walk y position segments)
  | [], _, _, _, _ => .error _
  | [final], _, _, position, hxy => by
    simp only [Store.walk]
    exact (h.lookup hxy final position).bind fun f g hfg => .ok ⟨.nil, hfg, hxy⟩
  | segment :: next :: rest, _, _, position, hxy => by
    simp only [Store.walk]
    refine (h.lookup hxy segment position).bind fun f g hfg => ?_
    refine (h.follow hxy hfg).bind fun x' y' hxy' => ?_
    refine (h.walk (next :: rest) (position + 1) hxy').bind fun r r' hr => ?_
    exact .ok ⟨.cons hfg hr.joins, hr.field, hr.source⟩

theorem isQualified (h : Paired s t S F) (hxy : S x y) : ∀ segments : List String,
    s.isQualified x segments = t.isQualified y segments
  | [] | [_] => rfl
  | first :: _ :: _ => by
    simp only [Store.isQualified]
    rw [h.name hxy]
    obtain ⟨hf, hg⟩ | ⟨f, g, hf, hg, _⟩ := optionRel_cases ((h.fields hxy).field first)
    · rw [hf, hg]
    · rw [hf, hg, Option.isNone_some, Option.isNone_some]

theorem resolveFrom (h : Paired s t S F) (hxy : S x y) (path : Path) :
    Agree (SameEnd S F) (s.resolveFrom x path) (t.resolveFrom y path) := by
  unfold Store.resolveFrom
  rw [h.isQualified hxy]
  split
  · exact h.walk _ 1 hxy
  · exact h.walk _ 0 hxy

theorem resolveRequested (h : Paired s t S F) (hxy : S x y) (path : Path) :
    Agree (SameEnd S F) (s.resolveRequested x path) (t.resolveRequested y path) :=
  (h.resolveFrom hxy path).mapError

/-! ## Conditions -/

/-- Sides in the same relation, with fields that are paired. -/
def SameSide (s t : Store) (F : Field → Field → Prop) (a b : SourceId × Slot × String) : Prop :=
  SameFields s t F a.1 b.1 ∧ a.2 = b.2

theorem side (h : Paired s t S F) (hfg : F f g) (reference : Path) (parent own : Slot) :
    Agree (SameSide s t F) (s.side f reference parent own) (t.side g reference parent own) := by
  unfold Store.side
  rw [h.qualifiedName hfg, h.fieldName hfg]
  split
  · exact .ok ⟨h.owner hfg, rfl⟩
  · split
    · obtain ⟨hs, ht⟩ | ⟨x, y, hs, ht, hxy⟩ := optionRel_cases (h.target? hfg)
      · simp only [hs, ht]
        exact .error _
      · simp only [hs, ht]
        exact .ok ⟨h.fields hxy, rfl⟩
    · exact .error _
  · exact .error _

theorem bindReference (h : Paired s t S F) (hfg : F f g) (parent own : Slot) (reference : Path) :
    Agree Eq (s.bindReference f parent own reference) (t.bindReference g parent own reference) := by
  unfold Store.bindReference
  refine (h.side hfg reference parent own).bind ?_
  rintro ⟨i, slot, name⟩ ⟨j, _⟩ ⟨hij, rfl⟩
  simp only [h.qualifiedName hfg, hij.name]
  obtain ⟨hf, hg⟩ | ⟨f', g', hf, hg, hfg'⟩ := optionRel_cases (hij.field name)
  · simp only [hf, hg]
    exact .error _
  · simp only [hf, hg, h.kind hfg']
    exact .refl _

mutual
theorem bind (h : Paired s t S F) (hfg : F f g) (parent own : Slot) : ∀ on : Condition,
    Agree Eq (s.bind f parent own on) (t.bind g parent own on)
  | .equal left right => by
    simp only [Store.bind]
    refine (h.bindReference hfg parent own left).bind ?_
    rintro l _ rfl
    refine (h.bindReference hfg parent own right).bind ?_
    rintro r _ rfl
    exact .ok rfl
  | .all kids => by
    simp only [Store.bind]
    refine (h.bindAll hfg parent own kids).bind ?_
    rintro bs _ rfl
    exact .ok rfl

theorem bindAll (h : Paired s t S F) (hfg : F f g) (parent own : Slot) : ∀ kids : List Condition,
    Agree Eq (s.bindAll f parent own kids) (t.bindAll g parent own kids)
  | [] => .ok rfl
  | on :: kids => by
    simp only [Store.bindAll]
    refine (h.bind hfg parent own on).bind ?_
    rintro b _ rfl
    refine (h.bindAll hfg parent own kids).bind ?_
    rintro bs _ rfl
    exact .ok rfl
end

/-! ## Ends -/

theorem danglingEnd (h : Paired s t S F) (hfg : F f g) (path : Path) (join : Join) :
    s.danglingEnd path f join = t.danglingEnd path g join := by
  rw [Store.danglingEnd, Store.danglingEnd, h.qualifiedName hfg]

theorem keyEnd (h : Paired s t S F) (path : Path) {r r' : Resolved} (hr : SameEnd S F r r') :
    Agree (SameKeyEnd S F) (s.keyEnd path r) (t.keyEnd path r') := by
  unfold Store.keyEnd
  rw [h.kind hr.field, h.qualifiedName hr.field]
  cases r'.field.kind with
  | scalar => exact .ok ⟨hr.joins, hr.field, hr.source⟩
  | aggregate _ => exact .error _
  | join join =>
    obtain ⟨hs, ht⟩ | ⟨x, y, hs, ht, hxy⟩ := optionRel_cases (h.named join.target)
    · simp only [hs, ht, h.danglingEnd hr.field]
      exact .error _
    simp only [hs, ht]
    have hkey : Option.Rel F (x.primaryKey.bind (s.fieldNamed? x.id))
        (y.primaryKey.bind (t.fieldNamed? y.id)) := by
      rw [h.primaryKey hxy]
      cases y.primaryKey with
      | none => exact .none
      | some key => exact (h.fields hxy).field key
    obtain ⟨hs, ht⟩ | ⟨f, g, hs, ht, hfg⟩ := optionRel_cases hkey
    · simp only [hs, ht, h.name hxy]
      exact .error _
    · simp only [hs, ht]
      exact .ok ⟨List.rel_append hr.joins (.cons hr.field .nil), hfg, hxy⟩

theorem appliedEnd (h : Paired s t S F) (request : AggregateRequest) (path : Path) (op : Operator)
    {joins joins' : List Field} (hjoins : List.Forall₂ F joins joins') (hfg : F f g) :
    Agree (SameAggregateEnd F) (s.appliedEnd request path op joins f)
      (t.appliedEnd request path op joins' g) := by
  unfold Store.appliedEnd
  rw [h.kind hfg, h.fieldName hfg, h.qualifiedName hfg]
  cases g.kind with
  | scalar => exact .ok ⟨rfl, hjoins, rfl, .none⟩
  | aggregate _ => exact .error _
  | join join =>
    simp only [h.danglingEnd hfg]
    split
    · obtain ⟨hs, ht⟩ | ⟨x, y, hs, ht, _⟩ := optionRel_cases (h.target? hfg)
      · simp only [hs, ht]
        exact .error _
      · simp only [hs, ht]
        exact .ok ⟨rfl, List.rel_append hjoins (.cons hfg .nil), rfl, .none⟩
    · exact .error _

theorem rowsEnd (request : AggregateRequest) (op : Operator) {joins joins' : List Field}
    (hjoins : List.Forall₂ F joins joins') :
    Agree (SameAggregateEnd F) (Store.rowsEnd request op joins) (Store.rowsEnd request op joins') := by
  unfold Store.rowsEnd
  split
  · exact .ok ⟨rfl, hjoins, rfl, .none⟩
  · exact .error _

theorem definedEnd (h : Paired s t S F) (request : AggregateRequest) (path : Path) {r r' : Resolved}
    (hr : SameEnd S F r r') :
    Agree (SameAggregateEnd F) (s.definedEnd request path r) (t.definedEnd request path r') := by
  unfold Store.definedEnd
  rw [h.kind hr.field, h.qualifiedName hr.field]
  have hid : SameId F r.field.id r'.field.id := ⟨_, _, hr.field, rfl, rfl⟩
  cases r'.field.kind.aggregate? with
  | none => exact .error _
  | some definition =>
    simp only
    cases definition.path with
    | none =>
      refine (rowsEnd request definition.op hr.joins).bind fun e e' he => ?_
      exact .ok ⟨he.op, he.chain, he.column, .some hid⟩
    | some inner =>
      simp only
      refine (h.resolveFrom hr.source inner).mapError.bind fun i i' hi => ?_
      refine (h.appliedEnd request path definition.op (List.rel_append hr.joins hi.joins)
        hi.field).bind fun e e' he => ?_
      exact .ok ⟨he.op, he.chain, he.column, .some hid⟩

theorem aggregateEnd (h : Paired s t S F) (hxy : S x y) (request : AggregateRequest) :
    Agree (SameAggregateEnd F) (s.aggregateEnd x request) (t.aggregateEnd y request) := by
  unfold Store.aggregateEnd
  cases request.op with
  | none =>
    cases request.path with
    | none => exact .error _
    | some path =>
      exact (h.resolveRequested hxy path).bind fun r r' hr => h.definedEnd request path hr
  | some op =>
    cases request.path with
    | none => exact rowsEnd request op .nil
    | some path =>
      exact (h.resolveRequested hxy path).bind fun r r' hr =>
        h.appliedEnd request path op hr.joins hr.field

end Paired

end Store

end Joinery
