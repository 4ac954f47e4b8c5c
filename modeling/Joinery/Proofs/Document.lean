/-
Building a document accepts the valid documents, and builds what they say.

A document is valid if its declarations have a meaning and its names are distinct
(`Document.Valid`). Each step of building accepts just what may come next and keeps
the store what the declarations so far say (`Store.Realises`): a source
(`Realises.define`), and an amendment on its own (`Realises.addField`). A batch of
amendments does what they do on their own, so the whole document is accepted just
if it is valid (`Document.build_accepts`).
-/
import Joinery.Document
import Joinery.Proofs.Store.Batch
import Joinery.Proofs.Store.Model

namespace Joinery

/-! ## Declarations -/

/-- The declaration has a meaning: it is not a join and an aggregate in one, and only a count may do
without a path. -/
structure FieldDecl.Meaningful (d : FieldDecl) : Prop where
  single : d.join = none ∨ d.aggregate = none
  path : ∀ a, d.aggregate = some a → a.path = none → a.op = .count

/-- The field that is meant by a declaration with a meaning. -/
def FieldDecl.meant (d : FieldDecl) : FieldDef :=
  match d.join, d.aggregate with
  | some join, _ => ⟨d.name, .join join⟩
  | none, some a => ⟨d.name, .aggregate a⟩
  | none, none => ⟨d.name, .scalar⟩

@[simp] theorem FieldDecl.meant_name (d : FieldDecl) : d.meant.name = d.name := by
  unfold meant
  split <;> rfl

theorem FieldDecl.kind_accepts (d : FieldDecl) :
    Accepts d.kind d.Meaningful fun kind => ⟨d.name, kind⟩ = d.meant := by
  obtain ⟨name, join, aggregate⟩ := d
  cases join with
  | none =>
    cases aggregate with
    | none => exact .ok ⟨.inl rfl, nofun⟩ rfl
    | some a =>
      unfold kind
      by_cases hpath : (a.path.isNone && !a.op.allowsNoArgument) = true
      · simp only [hpath, if_true]
        refine .error fun h => ?_
        simp only [Bool.and_eq_true, Option.isNone_iff_eq_none] at hpath
        rw [h.path a rfl hpath.1] at hpath
        exact absurd hpath.2 (by decide)
      · simp only [hpath]
        refine .ok ⟨.inl rfl, fun b hb hnone => ?_⟩ rfl
        cases hb
        simpa [hnone, Operator.allowsNoArgument] using hpath
  | some join =>
    cases aggregate with
    | none => exact .ok ⟨.inr rfl, nofun⟩ rfl
    | some a => exact .error fun h => h.single.elim nofun nofun

theorem FieldDecl.define_accepts (source : String) (d : FieldDecl) :
    Accepts (d.define source) d.Meaningful (· = d.meant) :=
  d.kind_accepts.mapError.bind_pure fun _ h => h

namespace SourceDecl

/-- The fields that a source comes with: those that it declares, or the output columns of its query. -/
def fieldDefs (d : SourceDecl) : List FieldDef :=
  match d.query with
  | some query => query.outputNames.map fun n => ⟨n, .scalar⟩
  | none => d.fields.map FieldDecl.meant

/-- The names of the fields that a source comes with. -/
def columns (d : SourceDecl) : List String := d.fieldDefs.map (·.name)

/-- Names that the columns of a source may have: they are distinct, and its primary key is among them. -/
structure Keyed (columns : List String) (primaryKey : Option String) : Prop where
  distinct : columns.Nodup
  primaryKey : ∀ key, primaryKey = some key → key ∈ columns

/-- The declaration can be that of a source, whatever the others are: with a query it declares no fields,
and else fields with a meaning. -/
structure Valid (d : SourceDecl) : Prop extends Keyed d.columns d.primaryKey where
  meaningful : d.query = none → ∀ f ∈ d.fields, f.Meaningful
  derived : d.query ≠ none → d.fields = []

end SourceDecl

/-- What tells an amendment from the others: its owner and the name of its field. -/
def AmendmentDecl.key (a : AmendmentDecl) : String × String := (a.owner, a.field.name)

/-- The owner is declared and does not come with a field of that name. -/
def AmendmentDecl.Fits (sources : List SourceDecl) (a : AmendmentDecl) : Prop :=
  ∃ x ∈ sources, x.name = a.owner ∧ a.field.name ∉ x.columns

/-- The amendment that is meant. -/
def AmendmentDecl.meant (a : AmendmentDecl) : Amendment := ⟨a.owner, a.field.meant⟩

/-- The declarations have a meaning, the names of the sources are distinct, and so are those of the
fields of each source, amendments included. -/
structure Document.Valid (d : Document) : Prop where
  names : (d.sources.map (·.name)).Nodup
  sources : ∀ x ∈ d.sources, x.Valid
  meaningful : ∀ a ∈ d.amendments, a.field.Meaningful
  owners : ∀ a ∈ d.amendments, a.Fits d.sources
  distinct : (d.amendments.map AmendmentDecl.key).Nodup

/-! ## Sources -/

namespace Store

/-- What an operation leads to is reachable, whatever else it gives. -/
theorem Reachable.performed {s : Store} (hs : s.Reachable) (op : Operation) {α : Type}
    {x : Except ModelError (α × Store)} (hop : s.perform op = x.map (·.2)) {out : α × Store}
    (hx : x = .ok out) : out.2.Reachable :=
  hs.step (hop.trans (map_eq_ok_iff.mpr ⟨out, hx, rfl⟩))

theorem sourceNamed?_eq_none_iff {s : Store} {name : String} :
    s.sourceNamed? name = none ↔ name ∉ s.sources.map (·.name) := by
  simp [sourceNamed?, List.find?_eq_none]

theorem checkSource_accepts (s : Store) (name : String) (fields : List String)
    (primaryKey : Option String) : Accepts (s.checkSource name fields primaryKey)
      (SourceDecl.Keyed fields primaryKey ∧ s.sourceNamed? name = none) fun _ => True := by
  cases hcheck : s.checkSource name fields primaryKey with
  | ok _ =>
    obtain ⟨hnew, hdistinct, hkey⟩ := checkSource_eq_ok hcheck
    exact .ok ⟨⟨hdistinct, hkey⟩, hnew⟩ trivial
  | error e =>
    refine .error fun h => ?_
    obtain ⟨⟨hdistinct, hkey⟩, hnew⟩ := h
    simp only [checkSource, hnew, Option.isSome_none, Bool.false_eq_true, if_false,
      firstRepeat?_eq_none_iff.mpr hdistinct] at hcheck
    cases primaryKey with
    | none => cases hcheck
    | some key => simp [hkey key rfl] at hcheck

theorem addSource_accepts (s : Store) (name : String) (fields : List FieldDef)
    (primaryKey : Option String) (query : Option Query) :
    Accepts (s.addSource name fields primaryKey query)
      (SourceDecl.Keyed (fields.map (·.name)) primaryKey ∧ s.sourceNamed? name = none)
      fun out => out.2 = (s.openSource name primaryKey query).pushAll
        (fields.map fun f => (s.sources.length, f)) := by
  unfold addSource
  refine (s.checkSource_accepts name (fields.map (·.name)) primaryKey).bind_pure fun _ _ => ?_
  exact pushAll_owner _ _ _

end Store

namespace SourceDecl

/-- The store with the declared source at the end, and its fields. -/
def written (d : SourceDecl) (s : Store) : Store :=
  (s.openSource d.name d.primaryKey d.query).pushAll (d.fieldDefs.map fun f => (s.sources.length, f))

/-- A declaration is accepted if it is valid and its name is new. -/
theorem define_accepts (d : SourceDecl) (s : Store) :
    Accepts (d.define s) (d.Valid ∧ s.sourceNamed? d.name = none) (· = d.written s) := by
  obtain ⟨name, fields, primaryKey, query⟩ := d
  cases query with
  | some query =>
    cases fields with
    | cons f fields => exact .error fun h => nomatch h.1.derived nofun
    | nil =>
      have hadd := s.addSource_accepts name (query.outputNames.map fun n => ⟨n, .scalar⟩) primaryKey
        (some query)
      refine (hadd.mapError.bind_pure fun out hout => hout).imp (and_congr_left' ?_) fun _ _ h => h
      exact ⟨fun h => ⟨h, nofun, fun _ => rfl⟩, fun h => h.toKeyed⟩
  | none =>
    have hfields := Accepts.mapM fun f (_ : f ∈ fields) => FieldDecl.define_accepts name f
    have hadd := s.addSource_accepts name (fields.map FieldDecl.meant) primaryKey none
    have hall : Accepts (define s ⟨name, fields, primaryKey, none⟩)
        ((∀ f ∈ fields, f.Meaningful) ∧
          Keyed ((fields.map FieldDecl.meant).map (·.name)) primaryKey ∧ s.sourceNamed? name = none)
        (· = written ⟨name, fields, primaryKey, none⟩ s) := by
      refine hfields.bind fun defs _ hdefs => ?_
      subst hdefs
      exact hadd.mapError.bind_pure fun out hout => hout
    refine hall.imp ⟨fun h => ?_, fun h => ?_⟩ fun _ _ h => h
    · exact ⟨⟨h.2.1, fun _ => h.1, fun hne => absurd rfl hne⟩, h.2.2⟩
    · exact ⟨h.1.meaningful rfl, h.1.toKeyed, h.2⟩

theorem define_reachable {d : SourceDecl} {s t : Store} (hs : s.Reachable) (h : d.define s = .ok t) :
    t.Reachable := by
  obtain ⟨name, fields, primaryKey, query⟩ := d
  cases query with
  | some query =>
    cases fields with
    | cons f fields => cases h
    | nil =>
      simp only [define, bind_eq_ok_iff, mapError_eq_ok_iff, pure_eq_ok_iff] at h
      obtain ⟨out, hout, rfl⟩ := h
      exact hs.performed (.defineQuerySource name query primaryKey) rfl hout
  | none =>
    simp only [define, bind_eq_ok_iff, mapError_eq_ok_iff, pure_eq_ok_iff] at h
    obtain ⟨defs, -, out, hout, rfl⟩ := h
    exact hs.performed (.defineSource name defs primaryKey) rfl hout

end SourceDecl

/-! ## What the declarations say -/

/-- Items that come one after the other, each fit and of a new key, are fit items of distinct keys. -/
theorem fit_cons_iff {α β : Type} {fit : α → Prop} {key : α → β} {xs ys : List α} {y : α} :
    ((fit y ∧ key y ∉ xs.map key) ∧ (∀ z ∈ ys, fit z) ∧ ((xs ++ [y] ++ ys).map key).Nodup) ↔
      (∀ z ∈ y :: ys, fit z) ∧ ((xs ++ y :: ys).map key).Nodup := by
  rw [List.append_assoc, List.singleton_append, List.forall_mem_cons]
  constructor
  · intro h
    exact ⟨⟨h.1.1, h.2.1⟩, h.2.2⟩
  · intro h
    refine ⟨⟨h.1.1, fun hmem => ?_⟩, h.1.2, h.2⟩
    have hnodup := h.2
    rw [List.map_append, List.map_cons, List.nodup_append] at hnodup
    exact hnodup.2.2 _ hmem _ List.mem_cons_self rfl

/-- The sources are the declared ones in their order, each with the fields that it comes with and then
those of its amendments, in their order. -/
structure Store.Realises (declared : List SourceDecl) (amendments : List AmendmentDecl) (s : Store) :
    Prop where
  sources : s.sources.map (fun x => (x.name, x.primaryKey, x.query)) =
    declared.map fun x => (x.name, x.primaryKey, x.query)
  fields : ∀ (i : Nat) (x : SourceDecl), declared[i]? = some x → (s.fieldsOf i).map Field.toDef =
    x.fieldDefs ++ (amendments.filter (·.owner == x.name)).map (·.field.meant)

namespace Store.Realises

variable {s : Store} {xs : List SourceDecl} {as : List AmendmentDecl}

theorem empty : Store.Realises [] [] .empty := ⟨rfl, nofun⟩

theorem names (h : s.Realises xs as) : s.sources.map (·.name) = xs.map (·.name) := by
  have hnames := congrArg (List.map (·.1)) h.sources
  simpa only [List.map_map, Function.comp_def] using hnames

theorem length (h : s.Realises xs as) : s.sources.length = xs.length := by
  simpa using congrArg List.length h.names

/-- The source of a name stands where its declaration does. -/
theorem named_iff (h : s.Realises xs as) (hs : s.Reachable) {name : String} {i : SourceId} :
    (∃ source, s.sourceNamed? name = some source ∧ source.id = i) ↔
      ∃ x, xs[i]? = some x ∧ x.name = name := by
  have hat (j : Nat) : (s.sources[j]?).map (·.name) = (xs[j]?).map (·.name) := by
    rw [← List.getElem?_map, ← List.getElem?_map, h.names]
  constructor
  · rintro ⟨source, hsource, rfl⟩
    have hfound : s.sources[source.id]? = some source :=
      hs.coherent.source?_id (sourceNamed?_mem hsource)
    have hname := hat source.id
    rw [hfound, Option.map_some] at hname
    obtain ⟨x, hx, hxname⟩ := Option.map_eq_some_iff.mp hname.symm
    exact ⟨x, hx, hxname.trans (sourceNamed?_name hsource)⟩
  · rintro ⟨x, hx, rfl⟩
    have hname := hat i
    rw [hx, Option.map_some] at hname
    obtain ⟨source, hsource, hxname⟩ := Option.map_eq_some_iff.mp hname
    refine ⟨source, ?_, hs.coherent.sourceIds i source hsource⟩
    rw [← hxname]
    exact hs.sourceNamed?_of_mem (List.mem_of_getElem? hsource)

theorem declaration (h : s.Realises xs as) (hs : s.Reachable) {name : String} {source : Source}
    (hsource : s.sourceNamed? name = some source) {i : Nat} {x : SourceDecl} (hx : xs[i]? = some x) :
    source.id = i ↔ name = x.name := by
  constructor
  · intro hid
    obtain ⟨y, hy, hname⟩ := (h.named_iff hs).mp ⟨source, hsource, hid⟩
    obtain rfl := Option.some.inj (hx.symm.trans hy)
    exact hname.symm
  · intro hname
    obtain ⟨source', hfound, hid⟩ := (h.named_iff hs).mpr ⟨x, hx, hname.symm⟩
    rw [hsource] at hfound
    cases hfound
    exact hid

/-! ### Sources -/

theorem define (h : s.Realises xs []) (hs : s.Reachable) (x : SourceDecl) :
    Accepts (x.define s) (x.Valid ∧ x.name ∉ xs.map (·.name)) fun t =>
      t.Realises (xs ++ [x]) [] ∧ t.Reachable ∧ t.revision = s.revision + 1 := by
  have hnew : s.sourceNamed? x.name = none ↔ x.name ∉ xs.map (·.name) := by
    rw [sourceNamed?_eq_none_iff, h.names]
  refine (x.define_accepts s).imp (and_congr_right' hnew) fun t ht hwritten => ?_
  refine ⟨?_, SourceDecl.define_reachable hs ht, ?_⟩
  · subst hwritten
    refine ⟨?_, fun i y hy => ?_⟩
    · rw [SourceDecl.written, pushAll_sources, openSource, List.map_append, List.map_append, h.sources]
      rfl
    · have hold : (s.openSource x.name x.primaryKey x.query).fieldsOf i = s.fieldsOf i := rfl
      rw [SourceDecl.written, fieldsOf_pushAll, hold, List.filter_nil, List.map_nil, List.append_nil]
      rcases getElem?_concat_eq_some hy with hy | ⟨rfl, rfl⟩
      · have hlt : i < xs.length := (List.getElem?_eq_some_iff.mp hy).1
        have hne : (s.sources.length == i) = false := by
          rw [h.length]
          exact beq_eq_false_iff_ne.mpr (Nat.ne_of_gt hlt)
        simpa [List.filter_map, Function.comp_def, hne] using h.fields i y hy
      · rw [← h.length, hs.coherent.fieldsOf_next]
        simp [List.filter_map, Function.comp_def]
  · rw [hwritten, SourceDecl.written, pushAll_revision]
    rfl

theorem defineAll (h : s.Realises xs []) (hs : s.Reachable) (hrevision : s.revision = xs.length)
    (ys : List SourceDecl) : Accepts (ys.foldlM SourceDecl.define s)
      ((∀ y ∈ ys, y.Valid) ∧ ((xs ++ ys).map (·.name)).Nodup) fun t =>
      t.Realises (xs ++ ys) [] ∧ t.Reachable ∧ t.revision = (xs ++ ys).length := by
  induction ys generalizing s xs with
  | nil =>
    rw [List.append_nil, List.foldlM_nil]
    exact .ok ⟨by simp, h.names ▸ hs.names_nodup⟩ ⟨h, hs, hrevision⟩
  | cons y ys ih =>
    rw [List.foldlM_cons]
    have hall := (h.define hs y).bind fun t _ ht =>
      ih ht.1 ht.2.1 (by rw [ht.2.2, hrevision, List.length_append, List.length_singleton])
    refine hall.imp fit_cons_iff fun _ _ hu => ?_
    simpa only [List.append_assoc, List.singleton_append] using hu

/-! ### Amendments -/

/-- A name is taken on a source if it comes with it or is that of an amendment. -/
theorem taken_iff (h : s.Realises xs as) {i : SourceId} {x : SourceDecl} (hx : xs[i]? = some x)
    (name : String) : (s.fieldNamed? i name).isSome = true ↔
      name ∈ x.columns ∨ (x.name, name) ∈ as.map AmendmentDecl.key := by
  have hfound : (s.fieldNamed? i name).isSome = true ↔ name ∈ (s.fieldsOf i).map (·.name) := by
    simp only [Store.fieldNamed?, fieldsOf, List.find?_isSome, List.mem_map, List.mem_filter,
      Bool.and_eq_true, beq_iff_eq, and_assoc]
  have hnames : (s.fieldsOf i).map (·.name) =
      x.columns ++ (as.filter (·.owner == x.name)).map (·.field.name) := by
    have hdefs := congrArg (List.map (·.name)) (h.fields i x hx)
    simpa [SourceDecl.columns, Function.comp_def, Field.toDef] using hdefs
  rw [hfound, hnames, List.mem_append]
  refine or_congr_right ?_
  simp only [List.mem_map, List.mem_filter, beq_iff_eq, AmendmentDecl.key, Prod.mk.injEq, and_assoc]

/-- One more amendment is accepted if it fits the sources and no other one has its owner and name. -/
theorem addField (h : s.Realises xs as) (hs : s.Reachable) (a : AmendmentDecl) :
    Accepts (s.addField a.owner a.field.meant)
      (a.Fits xs ∧ a.key ∉ as.map AmendmentDecl.key) fun out =>
      out.2.Realises xs (as ++ [a]) ∧ out.2.Reachable := by
  suffices hkept : Accepts (s.addField a.owner a.field.meant)
      (a.Fits xs ∧ a.key ∉ as.map AmendmentDecl.key) fun out => out.2.Realises xs (as ++ [a]) from
    hkept.imp Iff.rfl fun out hout hr =>
      ⟨hr, hs.performed (.addField a.owner a.field.meant) rfl hout⟩
  unfold Store.addField checkAmendment
  cases hsource : s.sourceNamed? a.owner with
  | none =>
    refine .error fun hv => ?_
    obtain ⟨⟨x, hx, hname, -⟩, -⟩ := hv
    obtain ⟨i, hi⟩ := List.getElem?_of_mem hx
    obtain ⟨source, hfound, -⟩ := (h.named_iff hs).mpr ⟨x, hi, hname⟩
    rw [hsource] at hfound
    cases hfound
  | some source =>
    obtain ⟨x, hx, hname⟩ := (h.named_iff hs).mp ⟨source, hsource, rfl⟩
    have htaken := h.taken_iff hx a.field.name
    rw [hname] at htaken
    simp only [FieldDecl.meant_name, List.contains_nil, Bool.or_false]
    by_cases hfree : (s.fieldNamed? source.id a.field.name).isSome = true
    · rw [if_pos hfree]
      refine .error fun hv => ?_
      obtain ⟨⟨y, hy, hyname, hcolumns⟩, hkey⟩ := hv
      obtain ⟨i, hi⟩ := List.getElem?_of_mem hy
      obtain rfl := (h.declaration hs hsource hi).mpr hyname.symm
      obtain rfl := Option.some.inj (hx.symm.trans hi)
      exact (htaken.mp hfree).elim hcolumns hkey
    · rw [if_neg hfree]
      rw [htaken, not_or] at hfree
      have hfits : a.Fits xs := ⟨x, List.mem_of_getElem? hx, hname, hfree.1⟩
      refine .ok ⟨hfits, hfree.2⟩ ⟨h.sources, fun i y hy => ?_⟩
      have hsame : (source.id == i) = (a.owner == y.name) := by
        rw [Bool.eq_iff_iff, beq_iff_eq, beq_iff_eq]
        exact h.declaration hs hsource hy
      refine (fieldsOf_pushAll s [(source.id, a.field.meant)] i).trans ?_
      rw [h.fields i y hy, List.append_assoc, List.filter_append, List.map_append, List.filter_singleton,
        List.filter_singleton, hsame]
      cases a.owner == y.name <;> rfl

theorem addFields (h : s.Realises xs as) (hs : s.Reachable) (has : (as.map AmendmentDecl.key).Nodup)
    (bs : List AmendmentDecl) :
    Accepts (s.addFields (bs.map AmendmentDecl.meant))
      ((∀ b ∈ bs, b.Fits xs) ∧ ((as ++ bs).map AmendmentDecl.key).Nodup) fun out =>
      out.2.Realises xs (as ++ bs) := by
  induction bs generalizing s as with
  | nil =>
    rw [List.append_nil]
    exact .ok ⟨by simp, has⟩ h
  | cons b bs ih =>
    have hnext (hkey : b.key ∉ as.map AmendmentDecl.key) : ((as ++ [b]).map AmendmentDecl.key).Nodup := by
      rw [List.map_append, List.nodup_append]
      refine ⟨has, List.nodup_singleton _, fun k hk l hl hkl => hkey ?_⟩
      rwa [← List.mem_singleton.mp hl, ← hkl]
    have hall : Accepts (s.addFields ((b :: bs).map AmendmentDecl.meant)) _ fun out =>
        out.2.Realises xs ((as ++ [b]) ++ bs) :=
      (h.addField hs b).bind fun t hv ht => (ih ht.1 ht.2 (hnext hv.2)).bind_pure fun out hout => hout
    refine hall.imp fit_cons_iff fun _ _ hout => ?_
    simpa only [List.append_assoc, List.singleton_append] using hout

/-- A batch of amendments is accepted as they are one by one, and counts as one revision. -/
theorem apply (h : s.Realises xs []) (hs : s.Reachable) (bs : List AmendmentDecl) :
    Accepts (s.apply (bs.map AmendmentDecl.meant))
      ((∀ b ∈ bs, b.Fits xs) ∧ (bs.map AmendmentDecl.key).Nodup) fun out =>
      out.2.Reachable ∧ out.2.Realises xs bs ∧
        out.2.revision = s.revision + if bs = [] then 0 else 1 := by
  have heach := h.addFields hs List.nodup_nil bs
  have hbatch : Accepts (s.apply (bs.map AmendmentDecl.meant))
      ((∀ b ∈ bs, b.Fits xs) ∧ (bs.map AmendmentDecl.key).Nodup) fun out => out.2.Realises xs bs ∧
        out.2.revision = s.revision + if bs.map AmendmentDecl.meant = [] then 0 else 1 := by
    rw [apply_eq_addFields]
    exact (heach.imp Iff.rfl fun out _ hout => ⟨⟨hout.sources, hout.fields⟩, rfl⟩).map
  refine hbatch.imp Iff.rfl fun out hout hpost => ?_
  refine ⟨hs.performed (.apply (bs.map AmendmentDecl.meant)) rfl hout, hpost.1, ?_⟩
  rw [hpost.2]
  simp only [List.map_eq_nil_iff]

end Store.Realises

/-! ## Building -/

namespace Document

theorem amend_accepts (d : Document) : Accepts d.amend (∀ a ∈ d.amendments, a.field.Meaningful)
    (· = d.amendments.map AmendmentDecl.meant) :=
  Accepts.mapM fun a _ => (FieldDecl.define_accepts a.owner a.field).bind_pure fun f hf => by
    rw [hf, AmendmentDecl.meant]

/-- **Building accepts exactly the valid documents, and builds what they say**: the sources in their
order, each with its fields and then those of its amendments. Each source counts as a revision, and so
do all amendments together, if there are any. -/
theorem build_accepts (d : Document) :
    Accepts d.build d.Valid fun s => s.Reachable ∧ s.Realises d.sources d.amendments ∧
      s.revision = d.sources.length + if d.amendments = [] then 0 else 1 := by
  have hsources := Store.Realises.empty.defineAll .empty rfl d.sources
  have hall : Accepts d.build
      (((∀ x ∈ d.sources, x.Valid) ∧ (d.sources.map (·.name)).Nodup) ∧
        (∀ a ∈ d.amendments, a.field.Meaningful) ∧
        (∀ a ∈ d.amendments, a.Fits d.sources) ∧ (d.amendments.map AmendmentDecl.key).Nodup)
      fun s => s.Reachable ∧ s.Realises d.sources d.amendments ∧
        s.revision = d.sources.length + if d.amendments = [] then 0 else 1 := by
    refine hsources.bind fun t _ ht => d.amend_accepts.bind fun ms _ hms => ?_
    rw [hms]
    refine (ht.1.apply ht.2.1 d.amendments).mapError.bind_pure fun out hout => ?_
    rw [hout.2.2, ht.2.2]
    exact ⟨hout.1, hout.2.1, rfl⟩
  refine hall.imp ⟨fun h => ?_, fun h => ?_⟩ fun _ _ hs => hs
  · exact ⟨h.1.2, h.1.1, h.2.1, h.2.2.1, h.2.2.2⟩
  · exact ⟨⟨h.sources, h.names⟩, h.meaningful, h.owners, h.distinct⟩

end Document

end Joinery
