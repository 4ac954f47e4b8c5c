/-
Documents are read back from what they are written as.

Whatever tree a document was read from, be it of the one format or the other, with
its records as objects or as arrays and with members left out or null, its written
form is read as the same document (`Document.ofTree?_toValue`). Each part of a
document has a lemma of its own (`Rereads`): a path because a path that was read
is tidy, a constant because it is found by its name, a record because every member
it had is written or left out as its reader expects, and a condition by induction
on it, as its written form is as deep as it is.
-/
import Joinery.Form.Document
import Joinery.Proofs.Json.Record

namespace Joinery

open Json

variable {o o' : Origin}

/-! ## Names -/

theorem Path.rereads : Rereads Path.ofTree? Path.ofTree? Path.toValue := by
  intro t p h
  have hread : Path.parse p.text = .ok p := (Path.parsed_of_tree h).tidy.parse_text
  simp [Path.ofTree?, Path.toValue, Tree.ofValue, string?, hread, Except.toOption]

theorem Operator.rereads : Rereads (Operator.ofTree? o) (Operator.ofTree? o') Operator.toValue := by
  intro t op _
  exact Operator.ofName?_name op

theorem Cardinality.rereads :
    Rereads (Cardinality.ofTree? o) (Cardinality.ofTree? o') Cardinality.toValue := by
  intro t c _
  cases c <;> rfl

/-! ## Aggregates -/

theorem Aggregate.rereads : Rereads (Aggregate.ofTree? o) (Aggregate.ofTree? o') Aggregate.toValue := by
  intro t a h
  simp only [Aggregate.ofTree?, Option.bind_eq_bind, Option.bind_eq_some_iff, Option.pure_def,
    Option.some.injEq] at h ⊢
  obtain ⟨ms, -, op, hop, path, hpath, rfl⟩ := h
  -- the steps of the reader are done again, on the members that are written
  have hnames := (ifPresent_sublist "path" Path.toValue path).cons_cons "op"
  exact ⟨_, members?_written (by decide) o' hnames,
    _, Operator.rereads.required hop (by simp),
    _, Path.rereads.optional (fun _ => Value.string_ne_null _) hpath (by simp), rfl⟩

theorem AggregateRequest.rereads :
    Rereads (AggregateRequest.ofTree? o) (AggregateRequest.ofTree? o') AggregateRequest.toValue := by
  intro t r h
  simp only [AggregateRequest.ofTree?, Option.bind_eq_bind, Option.bind_eq_some_iff, Option.pure_def,
    Option.some.injEq] at h ⊢
  obtain ⟨ms, -, name, hname, op, hop, path, hpath, rfl⟩ := h
  have hnames := ((ifPresent_sublist "name" Value.string name).append
    (ifPresent_sublist "op" Operator.toValue op)).append (ifPresent_sublist "path" Path.toValue path)
  rw [← List.map_append, ← List.map_append] at hnames
  exact ⟨_, members?_written (by decide) o' hnames,
    _, string_rereads.optional Value.string_ne_null hname (by simp),
    _, Operator.rereads.optional (fun _ => Value.string_ne_null _) hop (by simp),
    _, Path.rereads.optional (fun _ => Value.string_ne_null _) hpath (by simp), rfl⟩

/-! ## Conditions -/

namespace Condition

/-- What is read as conditions is a list of trees, each of which is read as one. -/
theorem readItems?_read : ∀ {ts : List Tree} {cs : List Condition},
    readItems? o ts = some cs → ∀ c ∈ cs, ∃ t, read? o t = some c
  | [], _, h => by
    cases h
    exact nofun
  | t :: ts, cs, h => by
    simp only [readItems?, Option.bind_eq_bind, Option.bind_eq_some_iff, Option.pure_def,
      Option.some.injEq] at h
    obtain ⟨c, hc, cs, hcs, rfl⟩ := h
    exact List.forall_mem_cons.mpr ⟨⟨t, hc⟩, readItems?_read hcs⟩

theorem readList?_read {t : Tree} {cs : List Condition} (h : readList? o t = some cs) :
    ∀ c ∈ cs, ∃ t, read? o t = some c := by
  cases t with
  | array items => exact readItems?_read h
  | _ => cases h

theorem readKids?_read : ∀ {ms : List (Option String × Tree)} {cs : List Condition},
    readKids? o ms = some cs → ∀ c ∈ cs, ∃ t, read? o t = some c
  | [], _, h => nomatch h
  | (n, t) :: ms, cs, h => by
    simp only [readKids?] at h
    split at h
    · split at h
      · cases h
      · exact readList?_read h
    · exact readKids?_read h

/-- What is read as a condition is read as an equality, or as a list of conditions. -/
theorem read?_cases {t : Tree} {c : Condition} (h : read? o t = some c) :
    (∃ content, equalOf? o content = some c) ∨
      ∃ kids, c = .all kids ∧ ∀ kid ∈ kids, ∃ t, read? o.inTagged t = some kid := by
  unfold read? at h
  split at h
  · split at h
    · cases h
    · exact .inl ⟨_, h⟩
    · obtain ⟨kids, hkids, rfl⟩ := Option.map_eq_some_iff.mp h
      exact .inr ⟨kids, rfl, readKids?_read hkids⟩
  · split at h
    · obtain ⟨kids, hkids, rfl⟩ := Option.map_eq_some_iff.mp h
      exact .inr ⟨kids, rfl, readList?_read hkids⟩
    · cases h
  · split at h
    · exact .inl ⟨_, h⟩
    · cases h
  · cases h

theorem equalOf?_cases {t : Tree} {c : Condition} (o' : Origin) (h : equalOf? o t = some c) :
    ∃ left right, c = .equal left right ∧
      equalOf? o' (.ofValue (.object [("left", left.toValue), ("right", right.toValue)])) = some c := by
  simp only [equalOf?, Option.bind_eq_bind, Option.bind_eq_some_iff, Option.pure_def,
    Option.some.injEq] at h ⊢
  obtain ⟨ms, -, left, hleft, right, hright, rfl⟩ := h
  exact ⟨left, right, rfl, _, members?_written (by decide) _ (List.Sublist.refl _),
    _, Path.rereads.required hleft (by simp),
    _, Path.rereads.required hright (by simp), rfl⟩

mutual
/-- A condition is as deep as its written form, so this is by induction on the condition and not on
the tree it was read from. -/
theorem read?_toValue : ∀ {c : Condition} {o : Origin} {t : Tree}, read? o t = some c →
    ∀ o', read? o' (.ofValue c.toValue) = some c
  | .equal left right, o, t, h, o' => by
    rcases read?_cases h with ⟨content, hequal⟩ | ⟨kids, hkids, -⟩
    · obtain ⟨_, _, ⟨⟩, hagain⟩ := equalOf?_cases o' hequal
      exact hagain
    · cases hkids
  | .all kids, o, t, h, o' => by
    rcases read?_cases h with ⟨content, hequal⟩ | ⟨_, ⟨⟩, hkids⟩
    · obtain ⟨_, _, ⟨⟩, -⟩ := equalOf?_cases o' hequal
    · have hagain := readItems?_toValues hkids o'.inTagged
      simp [toValue, Tree.ofValue, Tree.ofValueMembers, read?, kindOf?, tag?, kinds, readKids?,
        readList?, hagain]

theorem readItems?_toValues : ∀ {cs : List Condition} {o : Origin},
    (∀ c ∈ cs, ∃ t, read? o t = some c) → ∀ o', readItems? o' (Tree.ofValues (toValues cs)) = some cs
  | [], _, _, _ => rfl
  | c :: cs, o, h, o' => by
    obtain ⟨⟨t, hc⟩, hcs⟩ := List.forall_mem_cons.mp h
    simp [toValues, Tree.ofValues, readItems?, read?_toValue hc o', readItems?_toValues hcs o']
end

theorem rereads : Rereads (ofTree? o) (ofTree? o') toValue := by
  intro t c h
  unfold ofTree? at h ⊢
  split at h
  · rw [if_pos (Tree.ofValue_isReadable _)]
    exact read?_toValue h o'
  · cases h

end Condition

/-! ## Joins and fields -/

theorem Join.rereads : Rereads (Join.ofTree? o) (Join.ofTree? o') Join.toValue := by
  intro t j h
  simp only [Join.ofTree?, Option.bind_eq_bind, Option.bind_eq_some_iff, Option.pure_def,
    Option.some.injEq] at h ⊢
  obtain ⟨ms, -, target, htarget, cardinality, hcardinality, on, hon, rfl⟩ := h
  exact ⟨_, members?_written (by decide) o' (List.Sublist.refl _),
    _, string_rereads.required htarget (by simp),
    _, Cardinality.rereads.required hcardinality (by simp),
    _, Condition.rereads.required hon (by simp), rfl⟩

theorem FieldDecl.rereads : Rereads (FieldDecl.ofTree? o) (FieldDecl.ofTree? o') FieldDecl.toValue := by
  intro t d h
  simp only [FieldDecl.ofTree?, Option.bind_eq_bind, Option.bind_eq_some_iff, Option.pure_def,
    Option.some.injEq] at h ⊢
  obtain ⟨ms, -, name, hname, join, hjoin, aggregate, haggregate, rfl⟩ := h
  have hnames := ((ifPresent_sublist "join" Join.toValue join).append
    (ifPresent_sublist "aggregate" Aggregate.toValue aggregate)).cons_cons "name"
  rw [← List.map_append] at hnames
  exact ⟨_, members?_written (by decide) o' hnames,
    _, string_rereads.required hname (by simp),
    _, Join.rereads.optional (fun _ => Value.object_ne_null _) hjoin (by simp),
    _, Aggregate.rereads.optional (fun _ => Value.object_ne_null _) haggregate (by simp), rfl⟩

/-! ## Queries -/

theorem Stage.rereads : Rereads (Stage.ofTree? o) (Stage.ofTree? o') Stage.toValue := by
  intro t s h
  simp only [Stage.ofTree?, Option.bind_eq_bind, Option.bind_eq_some_iff, Option.pure_def,
    Option.some.injEq] at h ⊢
  obtain ⟨ms, -, groupBy, hgroupBy, aggregates, haggregates, rfl⟩ := h
  exact ⟨_, members?_written (by decide) o' (List.Sublist.refl _),
    _, Path.rereads.withDefault hgroupBy (by simp),
    _, AggregateRequest.rereads.withDefault haggregates (by simp), rfl⟩

theorem Query.rereads : Rereads (Query.ofTree? o) (Query.ofTree? o') Query.toValue := by
  intro t q h
  simp only [Query.ofTree?, Option.bind_eq_bind, Option.bind_eq_some_iff, Option.pure_def,
    Option.some.injEq] at h ⊢
  obtain ⟨ms, -, source, hsource, stages, hstages, rfl⟩ := h
  exact ⟨_, members?_written (by decide) o' (List.Sublist.refl _),
    _, string_rereads.required hsource (by simp),
    _, Stage.rereads.list.required hstages (by simp), rfl⟩

/-! ## Declarations -/

theorem SourceDecl.rereads :
    Rereads (SourceDecl.ofTree? o) (SourceDecl.ofTree? o') SourceDecl.toValue := by
  intro t d h
  simp only [SourceDecl.ofTree?, Option.bind_eq_bind, Option.bind_eq_some_iff, Option.pure_def,
    Option.some.injEq] at h ⊢
  obtain ⟨ms, -, name, hname, fields, hfields, primaryKey, hkey, query, hquery, rfl⟩ := h
  exact ⟨_, members?_written (by decide) o' (List.Sublist.refl _),
    _, string_rereads.required hname (by simp),
    _, FieldDecl.rereads.withDefault hfields (by simp),
    _, string_rereads.optionalNull Value.string_ne_null hkey (by simp),
    _, Query.rereads.optionalNull (fun _ => Value.object_ne_null _) hquery (by simp), rfl⟩

theorem AmendmentDecl.rereads :
    Rereads (AmendmentDecl.ofTree? o) (AmendmentDecl.ofTree? o') AmendmentDecl.toValue := by
  intro t d h
  simp only [AmendmentDecl.ofTree?, Option.bind_eq_bind, Option.bind_eq_some_iff, Option.pure_def,
    Option.some.injEq] at h ⊢
  obtain ⟨ms, -, owner, howner, field, hfield, rfl⟩ := h
  exact ⟨_, members?_written (by decide) o' (List.Sublist.refl _),
    _, string_rereads.required howner (by simp),
    _, FieldDecl.rereads.required hfield (by simp), rfl⟩

theorem Relation.rereads : Rereads (Relation.ofTree? o) (Relation.ofTree? o') Relation.toValue := by
  intro t r h
  simp only [Relation.ofTree?, Option.bind_eq_bind, Option.bind_eq_some_iff, Option.pure_def,
    Option.some.injEq] at h ⊢
  obtain ⟨ms, -, name, hname, columns, hcolumns, rows, hrows, rfl⟩ := h
  have hrow : Rereads (list? Tree.value?) (list? Tree.value?) Value.array := by
    intro t row h
    simpa [listed] using value_rereads.list t row h
  exact ⟨_, members?_written (by decide) o' (List.Sublist.refl _),
    _, string_rereads.required hname (by simp),
    _, string_rereads.list.required hcolumns (by simp),
    _, hrow.withDefault hrows (by simp), rfl⟩

namespace Document

/-- **A document that was read is read back** from its written form. -/
theorem ofTree?_toValue {t : Tree} {d : Document} (h : ofTree? o t = some d) :
    ofTree? o' (.ofValue d.toValue) = some d := by
  simp only [ofTree?, Option.bind_eq_bind, Option.bind_eq_some_iff, Option.pure_def,
    Option.some.injEq] at h ⊢
  obtain ⟨ms, -, sources, hsources, amendments, hamendments, tables, htables, rfl⟩ := h
  exact ⟨_, members?_written (by decide) o' (List.Sublist.refl _),
    _, SourceDecl.rereads.withDefault hsources (by simp),
    _, AmendmentDecl.rereads.withDefault hamendments (by simp),
    _, Relation.rereads.withDefault htables (by simp), rfl⟩

/-- Records as objects and as arrays, members left out, null and out of order, a condition in a
condition, and a row with an object that names a member twice. -/
def mixedTree : Tree := .object [
  (some "tables", .array [.object [(some "name", .string "beta"), (some "columns", .array [.string "id"]),
    (some "rows", .array [.array [.object [(some "y", .null), (some "x", .bool true),
      (some "y", .number (.int 2))]]])]]),
  (some "sources", .array [.array [.string "alpha", .array [
    .array [.string "id"],
    .object [(some "join", .array [.string "beta", .object [(some "many", .null)],
        .object [(some "kids", .array [.array [.string "=", .string "id", .string " beta . id "],
          .object [(some "op", .string "and"), (some "kids", .array [])]]), (some "op", .string "and")]]),
      (some "aggregate", .null), (some "name", .string "beta")]], .null]])]

/-- What that tree says. -/
def mixed : Document where
  sources := [⟨"alpha", [⟨"id", none, none⟩, ⟨"beta", some ⟨"beta", .many,
    .all [.equal ⟨["id"]⟩ ⟨["beta", "id"]⟩, .all []]⟩, none⟩], none, none⟩]
  amendments := []
  tables := [⟨"beta", ["id"], [[.object [("x", .bool true), ("y", .number (.int 2))]]]⟩]

theorem ofTree?_toValue_mixed : ofTree? .json mixedTree = some mixed ∧
    ofTree? .json (.ofValue mixed.toValue) = some mixed :=
  have h : ofTree? .json mixedTree = some mixed := rfl
  ⟨h, ofTree?_toValue h⟩

end Document

end Joinery
