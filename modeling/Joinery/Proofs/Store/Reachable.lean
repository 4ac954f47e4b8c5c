/-
The stores that operations build, and what holds of each of them.

An operation that is refused leaves the store as it is, so the reachable stores
are those that successful operations lead to. A successful operation writes a
source with its fields, or fields of sources that are defined (`perform_cases`).
So in every reachable store the number of a source or of a field is its
position, and the owner of a field is defined (`Reachable.coherent`); a source has
its primary key and its output columns among its fields (`Reachable.furnished`).
-/
import Joinery.Proofs.Outcome
import Joinery.Store

namespace Joinery

/-- A change of a model. -/
inductive Operation where
  | defineSource (name : String) (fields : List FieldDef) (primaryKey : Option String)
  | defineQuerySource (name : String) (query : Query) (primaryKey : Option String)
  | addField (owner : String) (field : FieldDef)
  | addJoinField (owner name target : String) (cardinality : Cardinality) (on : Condition)
  | apply (amendments : List Amendment)

/-- The fields that an operation adds to sources that are defined. -/
def Operation.amendments : Operation → List Amendment
  | .defineSource .. | .defineQuerySource .. => []
  | .addField owner field => [⟨owner, field⟩]
  | .addJoinField owner name target cardinality on =>
    [⟨owner, ⟨name, .join ⟨target, cardinality, on⟩⟩⟩]
  | .apply amendments => amendments

/-- What a field was defined by. -/
def Field.toDef (f : Field) : FieldDef := ⟨f.name, f.kind⟩

namespace Store

/-- The store after an operation. -/
def perform (s : Store) : Operation → Except ModelError Store
  | .defineSource name fields key => (s.defineSource name fields key).map (·.2)
  | .defineQuerySource name query key => (s.defineQuerySource name query key).map (·.2)
  | .addField owner field => (s.addField owner field).map (·.2)
  | .addJoinField owner name target cardinality on =>
    (s.addJoinField owner name target cardinality on).map (·.2)
  | .apply amendments => (s.apply amendments).map (·.2)

/-- The stores that successful operations lead to from the empty one. -/
inductive Reachable : Store → Prop
  | empty : Reachable .empty
  | step {s t : Store} {op : Operation} : Reachable s → s.perform op = .ok t → Reachable t

/-! ## Look-ups -/

theorem sourceNamed?_mem {s : Store} {name : String} {source : Source}
    (h : s.sourceNamed? name = some source) : source ∈ s.sources :=
  List.mem_of_find?_eq_some h

theorem sourceNamed?_name {s : Store} {name : String} {source : Source}
    (h : s.sourceNamed? name = some source) : source.name = name := by
  simpa using List.find?_some h

theorem sourceNamed?_self {s : Store} {name : String} {source : Source}
    (h : s.sourceNamed? name = some source) : s.sourceNamed? source.name = some source :=
  (sourceNamed?_name h).symm ▸ h

theorem fieldNamed?_mem {s : Store} {owner : SourceId} {name : String} {f : Field}
    (h : s.fieldNamed? owner name = some f) : f ∈ s.fields :=
  List.mem_of_find?_eq_some h

theorem fieldNamed?_owner {s : Store} {owner : SourceId} {name : String} {f : Field}
    (h : s.fieldNamed? owner name = some f) : f.owner = owner ∧ f.name = name := by
  simpa using List.find?_some h

theorem fieldNamed?_self {s : Store} {owner : SourceId} {name : String} {f : Field}
    (h : s.fieldNamed? owner name = some f) : s.fieldNamed? owner f.name = some f :=
  (fieldNamed?_owner h).2 ▸ h

/-- Only a join has a target, and it is the source of the name that the join gives. -/
theorem target?_eq_some {s : Store} {f : Field} {target : Source} (h : s.target? f = some target) :
    ∃ join, f.kind = .join join ∧ s.sourceNamed? join.target = some target := by
  obtain ⟨join, hj, ht⟩ := Option.bind_eq_some_iff.mp h
  refine ⟨join, ?_, ht⟩
  cases hk : f.kind <;> simp_all [FieldKind.join?]

/-! ## What an operation writes -/

/-- The store with some fields at the end, each with its owner. -/
def pushAll (s : Store) (fields : List (SourceId × FieldDef)) : Store :=
  fields.foldl (fun t (owner, d) => t.push owner d) s

/-- The store with one more source, which has the next number. -/
def openSource (s : Store) (name : String) (primaryKey : Option String) (query : Option Query) :
    Store :=
  { s with
    sources := s.sources ++ [⟨s.sources.length, name, primaryKey, query⟩]
    revision := s.revision + 1 }

@[simp] theorem pushAll_sources (s : Store) (fields : List (SourceId × FieldDef)) :
    (s.pushAll fields).sources = s.sources := by
  induction fields generalizing s with
  | nil => rfl
  | cons x fields ih => exact (ih (s.push x.1 x.2)).trans rfl

@[simp] theorem pushAll_revision (s : Store) (fields : List (SourceId × FieldDef)) :
    (s.pushAll fields).revision = s.revision := by
  induction fields generalizing s with
  | nil => rfl
  | cons x fields ih => exact (ih (s.push x.1 x.2)).trans rfl

theorem pushAll_owner (s : Store) (owner : SourceId) (fields : List FieldDef) :
    fields.foldl (fun t d => t.push owner d) s = s.pushAll (fields.map fun d => (owner, d)) := by
  simp [pushAll, List.foldl_map]

/-- An amendment that passes the checks names a source that is defined and has no such field, nor
gets one by an amendment before. -/
theorem checkAmendment_eq_ok {s : Store} {pending : List (SourceId × String)} {a : Amendment}
    {owner : SourceId} (h : s.checkAmendment pending a = .ok owner) :
    (∃ source, s.sourceNamed? a.owner = some source ∧ source.id = owner) ∧
      s.fieldNamed? owner a.field.name = none ∧ (owner, a.field.name) ∉ pending := by
  simp only [checkAmendment] at h
  split at h
  · cases h
  next source hs =>
  split at h
  · cases h
  next hfree =>
  cases h
  simp only [Bool.or_eq_true, not_or, Option.not_isSome_iff_eq_none, List.contains_eq_mem,
    decide_eq_true_eq] at hfree
  exact ⟨⟨source, hs, rfl⟩, hfree⟩

theorem checkAll_eq_ok {s : Store} : ∀ {as : List Amendment} {pending : List (SourceId × String)}
    {fields : List (SourceId × FieldDef)}, s.checkAll pending as = .ok fields →
    ∀ x ∈ fields, ∃ a ∈ as, ∃ source, s.sourceNamed? a.owner = some source ∧
      x = (source.id, a.field) ∧ s.fieldNamed? source.id a.field.name = none
  | [], _, _, h => by cases h; simp
  | a :: as, pending, fields, h => by
    simp only [checkAll, bind_eq_ok_iff, pure_eq_ok_iff] at h
    obtain ⟨owner, ho, rest, hrest, rfl⟩ := h
    obtain ⟨⟨source, hs, rfl⟩, hfree, -⟩ := checkAmendment_eq_ok ho
    intro x hx
    rcases List.mem_cons.mp hx with rfl | hx
    · exact ⟨a, by simp, source, hs, rfl, hfree⟩
    · obtain ⟨b, hb, rest⟩ := checkAll_eq_ok hrest x hx
      exact ⟨b, List.mem_cons_of_mem a hb, rest⟩

/-- A definition that passes the checks has a new name, and fields of distinct names. -/
theorem checkSource_eq_ok {s : Store} {name : String} {fields : List String}
    {primaryKey : Option String} (h : s.checkSource name fields primaryKey = .ok ()) :
    s.sourceNamed? name = none ∧ fields.Nodup ∧ ∀ key, primaryKey = some key → key ∈ fields := by
  unfold checkSource at h
  split at h
  · cases h
  next hnew =>
  split at h
  · cases h
  next hdistinct =>
  refine ⟨by simpa using hnew, firstRepeat?_eq_none_iff.mp hdistinct, fun key hkey => ?_⟩
  subst hkey
  by_contra hmissing
  simp [hmissing] at h

/-- A successful definition opens a source of a new name and gives it its fields. -/
theorem addSource_eq_ok {s t : Store} {id : SourceId} {name : String} {fields : List FieldDef}
    {primaryKey : Option String} {query : Option Query}
    (h : s.addSource name fields primaryKey query = .ok (id, t)) :
    s.checkSource name (fields.map (·.name)) primaryKey = .ok () ∧
      t = (s.openSource name primaryKey query).pushAll (fields.map fun d => (s.sources.length, d)) := by
  simp only [addSource, bind_eq_ok_iff, pure_eq_ok_iff, Prod.mk.injEq] at h
  obtain ⟨_, hc, _, rfl⟩ := h
  exact ⟨hc, pushAll_owner _ _ _⟩

theorem addField_eq_ok {s t : Store} {id : FieldId} {owner : String} {field : FieldDef}
    (h : s.addField owner field = .ok (id, t)) :
    ∃ fields, s.checkAll [] [⟨owner, field⟩] = .ok fields ∧
      t = { s.pushAll fields with revision := s.revision + 1 } := by
  simp only [addField, bind_eq_ok_iff, pure_eq_ok_iff, Prod.mk.injEq] at h
  obtain ⟨source, hc, _, rfl⟩ := h
  exact ⟨[(source, field)], by simp [checkAll, hc, bind, Except.bind, pure, Except.pure], rfl⟩

theorem checkAll_length {s : Store} : ∀ {as : List Amendment} {pending : List (SourceId × String)}
    {fields : List (SourceId × FieldDef)}, s.checkAll pending as = .ok fields → fields.length = as.length
  | [], _, _, h => by cases h; rfl
  | a :: as, pending, fields, h => by
    simp only [checkAll, bind_eq_ok_iff, pure_eq_ok_iff] at h
    obtain ⟨owner, _, rest, hrest, rfl⟩ := h
    rw [List.length_cons, List.length_cons, checkAll_length hrest]

/-- An applied batch counts as one revision, unless it is empty. -/
theorem apply_eq_ok {s t : Store} {ids : List FieldId} {amendments : List Amendment}
    (h : s.apply amendments = .ok (ids, t)) : ∃ fields, s.checkAll [] amendments = .ok fields ∧
      t = { s.pushAll fields with revision := s.revision + if amendments = [] then 0 else 1 } := by
  simp only [apply, bind_eq_ok_iff, pure_eq_ok_iff, Prod.mk.injEq] at h
  obtain ⟨fields, hc, _, rfl⟩ := h
  refine ⟨fields, hc, ?_⟩
  have hlength := checkAll_length hc
  cases fields with
  | nil =>
    obtain rfl : amendments = [] := List.eq_nil_of_length_eq_zero hlength.symm
    rfl
  | cons x fields =>
    have hne : amendments ≠ [] := List.length_pos_iff.mp (hlength ▸ Nat.succ_pos _)
    rw [if_neg hne]
    show { s.pushAll (x :: fields) with revision := (s.pushAll (x :: fields)).revision + 1 } = _
    rw [pushAll_revision]

/-- **What a successful operation writes**: a new source with its fields, which are the output columns
of its query if it has one, or fields of sources that are defined. -/
theorem perform_cases {s t : Store} {op : Operation} (h : s.perform op = .ok t) :
    (∃ (name : String) (fields : List FieldDef) (primaryKey : Option String) (query : Option Query),
      s.checkSource name (fields.map (·.name)) primaryKey = .ok () ∧
      (∀ q, query = some q → fields = q.outputNames.map fun n => ⟨n, .scalar⟩) ∧
      t = (s.openSource name primaryKey query).pushAll (fields.map fun d => (s.sources.length, d))) ∨
    (∃ fields : List (SourceId × FieldDef), s.checkAll [] op.amendments = .ok fields ∧
      t = { s.pushAll fields with revision := s.revision + if op.amendments = [] then 0 else 1 }) := by
  cases op with
  | defineSource name fields key =>
    obtain ⟨⟨id, u⟩, hu, rfl⟩ := map_eq_ok_iff.mp h
    obtain ⟨hc, ht⟩ := addSource_eq_ok hu
    exact .inl ⟨name, fields, key, none, hc, nofun, ht⟩
  | defineQuerySource name query key =>
    obtain ⟨⟨id, u⟩, hu, rfl⟩ := map_eq_ok_iff.mp h
    obtain ⟨hc, ht⟩ := addSource_eq_ok hu
    exact .inl ⟨name, _, key, some query, hc, fun _ hq => Option.some.inj hq ▸ rfl, ht⟩
  | addField owner field =>
    obtain ⟨⟨id, u⟩, hu, rfl⟩ := map_eq_ok_iff.mp h
    exact .inr (addField_eq_ok hu)
  | addJoinField owner name target cardinality on =>
    obtain ⟨⟨id, u⟩, hu, rfl⟩ := map_eq_ok_iff.mp h
    exact .inr (addField_eq_ok hu)
  | apply amendments =>
    obtain ⟨⟨ids, u⟩, hu, rfl⟩ := map_eq_ok_iff.mp h
    exact .inr (apply_eq_ok hu)

/-- A successful operation counts as one revision, unless it is an empty batch. -/
theorem perform_revision {s t : Store} {op : Operation} (h : s.perform op = .ok t)
    (hop : op ≠ .apply []) : t.revision = s.revision + 1 := by
  cases op with
  | defineSource | defineQuerySource =>
    obtain ⟨⟨id, u⟩, hu, rfl⟩ := map_eq_ok_iff.mp h
    rw [(addSource_eq_ok hu).2, pushAll_revision]
    rfl
  | addField | addJoinField =>
    obtain ⟨⟨id, u⟩, hu, rfl⟩ := map_eq_ok_iff.mp h
    obtain ⟨fields, -, rfl⟩ := addField_eq_ok hu
    rfl
  | apply amendments =>
    obtain ⟨⟨ids, u⟩, hu, rfl⟩ := map_eq_ok_iff.mp h
    obtain ⟨fields, -, rfl⟩ := apply_eq_ok hu
    have hne : amendments ≠ [] := fun hnil => hop (congrArg Operation.apply hnil)
    rw [if_neg hne]

/-! ## Numbers and owners -/

/-- The number of a source or a field is its position, and the owner of a field is defined. -/
structure Coherent (s : Store) : Prop where
  sourceIds : ∀ (i : Nat) (source : Source), s.sources[i]? = some source → source.id = i
  fieldIds : ∀ (i : Nat) (f : Field), s.fields[i]? = some f → f.id = i
  owners : ∀ f ∈ s.fields, f.owner < s.sources.length

namespace Coherent

variable {s : Store}

theorem lt_of_mem (h : s.Coherent) {source : Source} (hs : source ∈ s.sources) :
    source.id < s.sources.length := by
  obtain ⟨i, hi⟩ := List.mem_iff_getElem?.mp hs
  rw [h.sourceIds i source hi]
  exact (List.getElem?_eq_some_iff.mp hi).1

theorem source?_id (h : s.Coherent) {source : Source} (hs : source ∈ s.sources) :
    s.source? source.id = some source := by
  obtain ⟨i, hi⟩ := List.mem_iff_getElem?.mp hs
  rwa [h.sourceIds i source hi]

theorem field?_id (h : s.Coherent) {f : Field} (hf : f ∈ s.fields) : s.field? f.id = some f := by
  obtain ⟨i, hi⟩ := List.mem_iff_getElem?.mp hf
  rwa [h.fieldIds i f hi]

theorem source_ext (h : s.Coherent) {a b : Source} (ha : a ∈ s.sources) (hb : b ∈ s.sources)
    (hid : a.id = b.id) : a = b :=
  Option.some.inj ((h.source?_id ha).symm.trans (hid ▸ h.source?_id hb))

theorem empty : Coherent .empty := ⟨by simp [Store.empty], by simp [Store.empty], by simp [Store.empty]⟩

theorem push (h : s.Coherent) {owner : SourceId} (ho : owner < s.sources.length) (d : FieldDef) :
    (s.push owner d).Coherent := by
  refine ⟨h.sourceIds, fun i f hi => ?_, fun f hf => ?_⟩
  · rcases getElem?_concat_eq_some hi with hi | ⟨rfl, rfl⟩
    · exact h.fieldIds i f hi
    · rfl
  · simp only [Store.push, List.mem_append, List.mem_singleton] at hf
    rcases hf with hf | rfl
    · exact h.owners f hf
    · exact ho

theorem pushAll (h : s.Coherent) {fields : List (SourceId × FieldDef)}
    (ho : ∀ x ∈ fields, x.1 < s.sources.length) : (s.pushAll fields).Coherent := by
  induction fields generalizing s with
  | nil => exact h
  | cons x fields ih =>
    exact ih (h.push (ho x (by simp)) x.2) fun y hy => ho y (List.mem_cons_of_mem x hy)

theorem openSource (h : s.Coherent) (name : String) (primaryKey : Option String)
    (query : Option Query) : (s.openSource name primaryKey query).Coherent := by
  refine ⟨fun i source hi => ?_, h.fieldIds, fun f hf => ?_⟩
  · rcases getElem?_concat_eq_some hi with hi | ⟨rfl, rfl⟩
    · exact h.sourceIds i source hi
    · rfl
  · simp only [Store.openSource, List.length_append, List.length_singleton]
    exact Nat.lt_succ_of_lt (h.owners f hf)

theorem perform (h : s.Coherent) {t : Store} {op : Operation} (ht : s.perform op = .ok t) :
    t.Coherent := by
  rcases perform_cases ht with ⟨name, fields, key, query, _, -, rfl⟩ | ⟨fields, hc, rfl⟩
  · refine (h.openSource name key query).pushAll fun x hx => ?_
    obtain ⟨d, _, rfl⟩ := List.mem_map.mp hx
    simp [Store.openSource]
  · have hp : (s.pushAll fields).Coherent := by
      refine h.pushAll fun x hx => ?_
      obtain ⟨a, _, source, hs, rfl, _⟩ := checkAll_eq_ok hc x hx
      exact h.lt_of_mem (sourceNamed?_mem hs)
    exact ⟨hp.sourceIds, hp.fieldIds, hp.owners⟩

end Coherent

theorem Reachable.coherent {s : Store} (h : s.Reachable) : s.Coherent := by
  induction h with
  | empty => exact Coherent.empty
  | step _ ht ih => exact ih.perform ht

theorem Reachable.names_nodup {s : Store} (h : s.Reachable) : (s.sources.map (·.name)).Nodup := by
  induction h with
  | empty => exact List.nodup_nil
  | @step s t op _ ht ih =>
    rcases perform_cases ht with ⟨name, fields, key, query, hc, -, rfl⟩ | ⟨fields, _, rfl⟩
    · obtain ⟨hnew, -⟩ := checkSource_eq_ok hc
      rw [pushAll_sources, openSource, List.map_append, List.map_singleton]
      refine List.nodup_append.mpr ⟨ih, by simp, fun n hn m hm => ?_⟩
      obtain ⟨source, hs, rfl⟩ := List.mem_map.mp hn
      have hne := List.find?_eq_none.mp hnew source hs
      rw [List.mem_singleton.mp hm]
      simpa using hne
    · rwa [pushAll_sources]

theorem Reachable.sourceNamed?_of_mem {s : Store} (h : s.Reachable) {source : Source}
    (hs : source ∈ s.sources) : s.sourceNamed? source.name = some source := by
  have hnodup := h.names_nodup
  unfold sourceNamed?
  generalize s.sources = sources at hs hnodup
  induction sources with
  | nil => cases hs
  | cons x rest ih =>
    rw [List.map_cons, List.nodup_cons] at hnodup
    rcases List.mem_cons.mp hs with rfl | hs
    · simp
    · have hne : x.name ≠ source.name := fun he => hnodup.1 (he ▸ List.mem_map_of_mem hs)
      rw [List.find?_cons_of_neg (by simpa using hne)]
      exact ih hs hnodup.2

/-! ## What a source comes with -/

/-- The fields that come in for an owner stand behind those that it has. -/
theorem fieldsOf_pushAll (s : Store) (fields : List (SourceId × FieldDef)) (owner : SourceId) :
    ((s.pushAll fields).fieldsOf owner).map Field.toDef =
      (s.fieldsOf owner).map Field.toDef ++ (fields.filter (·.1 == owner)).map (·.2) := by
  induction fields generalizing s with
  | nil => simp [pushAll]
  | cons x fields ih =>
    refine (ih (s.push x.1 x.2)).trans ?_
    by_cases hx : x.1 = owner <;>
      simp [push, fieldsOf, List.filter_append, hx, Field.toDef]

theorem Coherent.fieldsOf_next {s : Store} (h : s.Coherent) : s.fieldsOf s.sources.length = [] := by
  refine List.filter_eq_nil_iff.mpr fun f hf => ?_
  simpa using Nat.ne_of_lt (h.owners f hf)

/-- A source has a field for its primary key, and its first fields are the output columns of its
query. -/
structure Furnished (source : Source) (fields : List FieldDef) : Prop where
  primaryKey : ∀ key, source.primaryKey = some key → key ∈ fields.map (·.name)
  outputs : ∀ query, source.query = some query →
    (query.outputNames.map fun n => ⟨n, .scalar⟩) <+: fields

theorem Furnished.mono {source : Source} {fields more : List FieldDef} (h : Furnished source fields)
    (hp : fields <+: more) : Furnished source more :=
  ⟨fun key hkey => (hp.map (·.name)).subset (h.primaryKey key hkey),
    fun query hq => (h.outputs query hq).trans hp⟩

theorem Reachable.furnished {s : Store} (h : s.Reachable) :
    ∀ source ∈ s.sources, Furnished source ((s.fieldsOf source.id).map Field.toDef) := by
  induction h with
  | empty => exact nofun
  | @step s t op hs ht ih =>
    have later (u : Store) (fields : List (SourceId × FieldDef)) (owner : SourceId) :
        (u.fieldsOf owner).map Field.toDef <+: ((u.pushAll fields).fieldsOf owner).map Field.toDef := by
      rw [fieldsOf_pushAll]
      exact List.prefix_append _ _
    rcases perform_cases ht with ⟨name, fields, key, query, hc, hq, rfl⟩ | ⟨fields, _, rfl⟩
    · intro source hmem
      rw [pushAll_sources] at hmem
      rcases List.mem_append.mp hmem with hmem | hmem
      · exact (ih source hmem).mono (later (s.openSource name key query) _ _)
      · rw [List.mem_singleton.mp hmem, fieldsOf_pushAll]
        have hnone : (s.openSource name key query).fieldsOf s.sources.length = [] :=
          hs.coherent.fieldsOf_next
        have hall : ((fields.map fun d => (s.sources.length, d)).filter
            (·.1 == s.sources.length)).map (·.2) = fields := by
          simp [List.filter_map, Function.comp_def]
        rw [hnone, hall]
        obtain ⟨-, -, hkey⟩ := checkSource_eq_ok hc
        exact ⟨hkey, fun q hsome => hq q hsome ▸ List.prefix_rfl⟩
    · intro source hmem
      rw [pushAll_sources] at hmem
      exact (ih source hmem).mono (later s fields source.id)

/-! ## Attempts -/

/-- The store after an operation, the same if it is refused. -/
def attempt (s : Store) (op : Operation) : Store :=
  match s.perform op with
  | .ok t => t
  | .error _ => s

theorem Reachable.attempt {s : Store} (h : s.Reachable) (op : Operation) :
    (s.attempt op).Reachable := by
  simp only [Store.attempt]
  split
  · next t ht => exact h.step ht
  · exact h

theorem Reachable.attempts {s : Store} (h : s.Reachable) (ops : List Operation) :
    (ops.foldl Store.attempt s).Reachable := by
  induction ops generalizing s with
  | nil => exact h
  | cons op ops ih => exact ih (h.attempt op)

/-- Customers and their orders, which join each other, and what each customer has spent: a source
that is derived from the orders, and that the customers join. -/
def shop : Store :=
  [.defineSource "customers" [⟨"id", .scalar⟩, ⟨"region", .scalar⟩] (some "id"),
    .defineSource "orders" [⟨"id", .scalar⟩, ⟨"customer_id", .scalar⟩, ⟨"amount", .scalar⟩,
      ⟨"customer", .join ⟨"customers", .one, .equal ⟨["customer_id"]⟩ ⟨["customer", "id"]⟩⟩⟩] (some "id"),
    .addJoinField "customers" "orders" "orders" .many (.equal ⟨["id"]⟩ ⟨["orders", "customer_id"]⟩),
    .defineQuerySource "spending"
      ⟨"orders", [⟨[⟨["customer_id"]⟩], [⟨some "total", some .sum, some ⟨["amount"]⟩⟩]⟩]⟩
      (some "customer_id"),
    .apply [⟨"customers", ⟨"spending",
      .join ⟨"spending", .one, .equal ⟨["id"]⟩ ⟨["spending", "customer_id"]⟩⟩⟩⟩]].foldl attempt .empty

theorem shop_reachable : shop.Reachable := Reachable.empty.attempts _

end Store

end Joinery
