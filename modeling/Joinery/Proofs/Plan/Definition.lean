/-
Aggregates that a field defines.

A path that ends at such a field asks for what its definition asks for, behind the front of the path:
for the path of the definition, or else for the rows where the front leads (`Aggregate.writtenOut`).
Both come to one end (`aggregateEnd_writtenOut`), so either request can stand for the other.
-/
import Joinery.Proofs.Composition
import Joinery.Proofs.Plan.Substitution

namespace Joinery

/-- The request that a definition stands for behind the front of a path, which goes over some joins. -/
def Aggregate.writtenOut (definition : Aggregate) (front : Path) (joins : List Field)
    (name : Option String) : AggregateRequest :=
  match definition.path with
  | some inner => ⟨name, some definition.op, some (front ++ inner)⟩
  | none => ⟨name, some definition.op, if joins.isEmpty then none else some front⟩

/-- The aggregate of a field that defines it, and the same as that of a request, which does without the
field. -/
def PlannedAggregate.WritesOut (field : FieldId) (request : AggregateRequest) (a b : PlannedAggregate) :
    Prop :=
  a.definedBy = some field ∧
    b = { a with name := request.outputName, path := request.path, definedBy := none }

namespace Store

variable {s : Store} {derive : Derive} {start there : Source} {r : Resolved} {op : Operator}
  {request request' : AggregateRequest} {path path' : Path}

/-! ## Ends -/

/-- What an operator is applied to is a matter of the operator and the field. -/
theorem appliedEnd_parallel (joins : List Field) (f : Field) :
    Parallel (fun e e' => e = e' ∧ e.definedBy = none)
      (s.appliedEnd request path op joins f) (s.appliedEnd request' path' op joins f) := by
  unfold appliedEnd
  cases f.kind with
  | scalar => exact .ok ⟨rfl, rfl⟩
  | aggregate definition => exact .error _ _
  | join join =>
    by_cases hop : op = .count
    · simp only [hop, if_true]
      cases s.target? f with
      | none => exact .error _ _
      | some target => exact .ok ⟨rfl, rfl⟩
    · simp only [hop, if_false]
      exact .error _ _

theorem rowsEnd_parallel {joins : List Field} :
    Parallel (fun e e' => e = e' ∧ e.definedBy = none)
      (rowsEnd request op joins) (rowsEnd request' op joins) := by
  unfold rowsEnd
  cases op.allowsNoArgument with
  | true => exact .ok ⟨rfl, rfl⟩
  | false => exact .error _ _

/-- The rows behind some joins are those that the last of them is counted by. -/
theorem rowsEnd_counted {f : Field} (ht : s.target? f = some there) (joins : List Field) :
    Parallel (fun e e' => e = e' ∧ e.definedBy = none)
      (rowsEnd request op (joins ++ [f])) (s.appliedEnd request' path op joins f) := by
  obtain ⟨join, hkind, -⟩ := target?_eq_some ht
  by_cases hop : op = .count
  · simp only [rowsEnd, appliedEnd, hkind, ht, hop, Operator.allowsNoArgument, beq_self_eq_true, if_true]
    exact .ok ⟨rfl, rfl⟩
  · simp only [rowsEnd, appliedEnd, hkind, hop, Operator.allowsNoArgument, beq_iff_eq, if_false]
    exact .error _ _

theorem Over.resolveFrom_last {front : List String} {joins : List Field} {f : Field}
    (h : s.Over start front (joins ++ [f]) there) :
    ∃ here, s.resolveFrom start ⟨front⟩ = .ok ⟨joins, here, f⟩ ∧ s.target? f = some there := by
  obtain ⟨here, hleads, hf, ht⟩ := leads_concat_iff.mp h.leads
  obtain ⟨first, rfl, hover⟩ : ∃ first, front = first ++ [f.name] ∧ s.Over start first joins here := by
    rcases h.names with rfl | ⟨rfl, hnone⟩
    · exact ⟨_, List.map_append, hleads, .inl rfl⟩
    · exact ⟨start.name :: joins.map (·.name), by simp, hleads, .inr ⟨rfl, hnone⟩⟩
  refine ⟨here, ?_, ht⟩
  have happend := hover.resolveFrom_append (q := ⟨[f.name]⟩) (.inr (.inl rfl))
  rw [resolveFrom_field hf] at happend
  simpa [onward, Except.map, Except.mapError, Resolved.behind] using happend

theorem aggregateEnd_bare (h : s.resolveFrom start path = .ok r) (name : Option String) :
    s.aggregateEnd start ⟨name, none, some path⟩ = s.definedEnd ⟨name, none, some path⟩ path r := by
  have hr : s.resolveRequested start path = .ok r := mapError_eq_ok_iff.mpr h
  simp only [aggregateEnd, hr]
  rfl

theorem aggregateEnd_applied (h : s.resolveFrom start path = .ok r) (name : Option String)
    (op : Operator) : s.aggregateEnd start ⟨name, some op, some path⟩ =
      s.appliedEnd ⟨name, some op, some path⟩ path op r.joins r.field := by
  have hr : s.resolveRequested start path = .ok r := mapError_eq_ok_iff.mpr h
  simp only [aggregateEnd, hr]
  rfl

theorem marked_parallel {x y : Except CompileError AggregateEnd} (field : FieldId)
    (h : Parallel (fun e e' => e = e' ∧ e.definedBy = none) x y) :
    Parallel (fun e e' => e = { e' with definedBy := some field } ∧ e'.definedBy = none)
      (x >>= fun e => pure { e with definedBy := some field }) y := by
  cases h with
  | error e e' => exact .error e e'
  | ok h =>
    obtain ⟨rfl, hnone⟩ := h
    exact .ok ⟨rfl, hnone⟩

/-- A definition that is written out comes to the end that its field stands for. -/
theorem aggregateEnd_writtenOut {front : Path} {last : String} {definition : Aggregate}
    (h : s.resolveFrom start (front ++ ⟨[last]⟩) = .ok r) (hd : r.field.kind = .aggregate definition)
    (hinner : ∀ inner, definition.path = some inner → front.segments = [] ∨ s.Plain r.source inner)
    (name name' : Option String) :
    Parallel (fun e e' => e = { e' with definedBy := some r.field.id } ∧ e'.definedBy = none)
      (s.aggregateEnd start ⟨name, none, some (front ++ ⟨[last]⟩)⟩)
      (s.aggregateEnd start (definition.writtenOut front r.joins name')) := by
  have hover : s.Over start front.segments r.joins r.source := over_of_resolveFrom h
  rw [aggregateEnd_bare h name, definedEnd]
  simp only [hd, FieldKind.aggregate?, Aggregate.writtenOut]
  cases hpath : definition.path with
  | some inner =>
    have hbehind : s.resolveFrom start (front ++ inner) = _ := hover.resolveFrom_append (hinner inner hpath)
    dsimp only
    cases hi : s.resolveFrom r.source inner with
    | ok i =>
      rw [hi] at hbehind
      rw [aggregateEnd_applied hbehind]
      exact marked_parallel r.field.id (appliedEnd_parallel (r.joins ++ i.joins) i.field)
    | error e =>
      rw [hi] at hbehind
      simp only [aggregateEnd, resolveRequested, hbehind]
      exact .error _ _
  | none =>
    -- Without joins the rows are those of the start; otherwise the last join leads to them.
    rcases List.eq_nil_or_concat r.joins with hnil | ⟨joins, f, hjoins⟩
    · simp only [hnil, List.isEmpty_nil, if_true, aggregateEnd]
      exact marked_parallel r.field.id rowsEnd_parallel
    · rw [List.concat_eq_append] at hjoins
      rw [hjoins] at hover ⊢
      obtain ⟨here, hfront, ht⟩ := hover.resolveFrom_last
      rw [if_neg (by simp), aggregateEnd_applied hfront]
      exact marked_parallel r.field.id (rowsEnd_counted ht joins)

/-- Requests that come to one end are planned alike, but for the mark of the field. -/
theorem addAggregate_parallel {field : FieldId}
    (h : Parallel (fun e e' => e = { e' with definedBy := some field } ∧ e'.definedBy = none)
      (s.aggregateEnd start request) (s.aggregateEnd start request')) (a : Assembly) :
    Parallel (fun out out' => PlannedAggregate.WritesOut field request' out.1 out'.1 ∧ out.2 = out'.2)
      (s.addAggregate derive start a request) (s.addAggregate derive start a request') := by
  refine h.bind ?_
  rintro _ e - - ⟨rfl, hnone⟩
  refine (Parallel.refl (s.addChain derive a e.chain)).bind ?_
  rintro ⟨slot, b⟩ _ - - rfl
  exact .ok ⟨⟨rfl, by simp only [hnone]⟩, rfl⟩

/-- **A defined aggregate means its definition.** A request for a path that ends at a field which
defines an aggregate, and the request for its definition behind the front of the path, can stand for
each other beside any other items: both fail, or both compile, to plans that differ only in what one
aggregate is called and in the mark of the field, and that give the same rows. -/
theorem defined_aggregate_writes_out {source last : String} {front : Path} {definition : Aggregate}
    {keys : List Path} {before after : List AggregateRequest} {name name' : Option String}
    (hstart : s.sourceNamed? source = some start)
    (h : s.resolveFrom start (front ++ ⟨[last]⟩) = .ok r) (hd : r.field.kind = .aggregate definition)
    (hinner : ∀ inner, definition.path = some inner → front.segments = [] ∨ s.Plain r.source inner)
    (hnames : (Stage.mk keys (before ++ ⟨name, none, some (front ++ ⟨[last]⟩)⟩ :: after)).outputNames.Nodup)
    (hnames' : (Stage.mk keys
      (before ++ definition.writtenOut front r.joins name' :: after)).outputNames.Nodup) :
    Parallel (fun p q =>
        q = { p with aggregates := q.aggregates } ∧
        DifferAt before.length
          (PlannedAggregate.WritesOut r.field.id (definition.writtenOut front r.joins name'))
          p.aggregates q.aggregates ∧
        ∀ tables, (Engine.run tables p).map (·.rows) = (Engine.run tables q).map (·.rows))
      (s.compileRequest ⟨source, keys, before ++ ⟨name, none, some (front ++ ⟨[last]⟩)⟩ :: after⟩)
      (s.compileRequest ⟨source, keys, before ++ definition.writtenOut front r.joins name' :: after⟩) := by
  have hends := aggregateEnd_writtenOut h hd hinner name name'
  refine substitute_aggregate
    (R := PlannedAggregate.WritesOut r.field.id (definition.writtenOut front r.joins name'))
    (fun start' hstart' a => ?_) (fun _ _ hwritten => by rw [hwritten.2]) hnames hnames'
  cases hstart.symm.trans hstart'
  exact addAggregate_parallel hends a

/-- The shop, where the customers define what they have spent, and their own number. -/
def ranked : Store :=
  [.addField "customers" ⟨"turnover", .aggregate ⟨.sum, some ⟨["spending", "total"]⟩⟩⟩,
    .addField "customers" ⟨"number", .aggregate ⟨.count, none⟩⟩].foldl attempt shop

/-- From the orders, behind their name, what the customers have spent is the sum over a source that is
derived, and their number counts the rows of the join to them. -/
theorem defined_aggregate_writes_out_ranked :
    let orders : Source := ⟨1, "orders", some "id", none⟩
    let front : Path := ⟨["orders", "customer"]⟩
    let turnover : AggregateRequest := ⟨none, none, some (front ++ ⟨["turnover"]⟩)⟩
    let total : AggregateRequest := ⟨none, some .sum, some (front ++ ⟨["spending", "total"]⟩)⟩
    let number : AggregateRequest := ⟨none, none, some (front ++ ⟨["number"]⟩)⟩
    let customers : AggregateRequest := ⟨some "customers", some .count, some front⟩
    ∃ r r' p q q', ranked.resolveFrom orders (front ++ ⟨["turnover"]⟩) = .ok r ∧
      r.field.kind = .aggregate ⟨.sum, some ⟨["spending", "total"]⟩⟩ ∧
      ranked.Plain r.source ⟨["spending", "total"]⟩ ∧
      ranked.resolveFrom orders (front ++ ⟨["number"]⟩) = .ok r' ∧
      r'.field.kind = .aggregate ⟨.count, none⟩ ∧
      ranked.compileRequest ⟨"orders", [⟨["id"]⟩], [turnover, number]⟩ = .ok p ∧
      ranked.compileRequest ⟨"orders", [⟨["id"]⟩], [total, number]⟩ = .ok q ∧
      q = { p with aggregates := q.aggregates } ∧
      ranked.compileRequest ⟨"orders", [⟨["id"]⟩], [turnover, customers]⟩ = .ok q' ∧
      q' = { p with aggregates := q'.aggregates } := by
  intro orders front turnover total number customers
  have hstart : ranked.sourceNamed? "orders" = some orders := rfl
  have hturnover : ranked.resolveFrom orders (front ++ ⟨["turnover"]⟩) = .ok _ := rfl
  have hnumber : ranked.resolveFrom orders (front ++ ⟨["number"]⟩) = .ok _ := rfl
  have hplain : ranked.Plain ⟨0, "customers", some "id", none⟩ ⟨["spending", "total"]⟩ :=
    .inr ⟨_, rfl, .inl ⟨_, rfl⟩⟩
  have hnames : (Stage.mk [⟨["id"]⟩] ([] ++ turnover :: [number])).outputNames.Nodup := by decide
  have htotal : (Stage.mk [⟨["id"]⟩] ([] ++ total :: [number])).outputNames.Nodup := by decide
  have hcustomers : (Stage.mk [⟨["id"]⟩] ([turnover] ++ customers :: [])).outputNames.Nodup := by decide
  obtain ⟨p, hp⟩ := exists_ok (x := ranked.compileRequest ⟨"orders", [⟨["id"]⟩], [turnover, number]⟩)
    (by decide +kernel)
  obtain ⟨q, hq, hsame, -⟩ := (defined_aggregate_writes_out hstart hturnover rfl
    (fun _ hinner => .inr (Option.some.inj hinner ▸ hplain)) hnames htotal).left hp
  obtain ⟨q', hq', hsame', -⟩ := (defined_aggregate_writes_out hstart hnumber rfl nofun
    hnames hcustomers).left hp
  exact ⟨_, _, p, q, q', hturnover, rfl, hplain, hnumber, rfl, hp, hq, hsame, hq', hsame'⟩

end Store

end Joinery
