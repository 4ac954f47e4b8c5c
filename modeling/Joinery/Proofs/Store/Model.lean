/-
What a store declares, whatever the order in which it came to.

Names tell the sources of a reachable store apart, and the fields of a source
(`Reachable.fields_nodup`). Two stores have one model if they define sources of
the same names with the same keys, queries and fields (`SameModel`); the numbers
and the order of sources and fields are not part of it. In such stores sources
and fields correspond by their names (`SameSource`, `SameField`).
-/
import Joinery.Proofs.Store.Reachable
import Mathlib.Data.List.Nodup
import Mathlib.Tactic.Tauto

namespace Joinery

/-- The owner and the name of a field. -/
def Field.key (f : Field) : SourceId × String := (f.owner, f.name)

namespace Store

/-! ## Names -/

theorem pushAll_keys (s : Store) (fields : List (SourceId × FieldDef)) :
    (s.pushAll fields).fields.map Field.key =
      s.fields.map Field.key ++ fields.map fun x => (x.1, x.2.name) := by
  induction fields generalizing s with
  | nil => simp [pushAll]
  | cons x fields ih =>
    refine (ih (s.push x.1 x.2)).trans ?_
    simp [push, Field.key]

/-- Amendments that pass the checks add fields of distinct names, none of them pending. -/
theorem checkAll_distinct {s : Store} : ∀ {as : List Amendment} {pending : List (SourceId × String)}
    {fields : List (SourceId × FieldDef)}, s.checkAll pending as = .ok fields →
    (fields.map fun x => (x.1, x.2.name)).Nodup ∧ ∀ x ∈ fields, (x.1, x.2.name) ∉ pending
  | [], _, _, h => by
    cases h
    simp
  | a :: as, pending, fields, h => by
    simp only [checkAll, bind_eq_ok_iff, pure_eq_ok_iff] at h
    obtain ⟨owner, ho, rest, hrest, rfl⟩ := h
    obtain ⟨hd, hfresh⟩ := checkAll_distinct hrest
    obtain ⟨-, -, hnew⟩ := checkAmendment_eq_ok ho
    refine ⟨List.nodup_cons.mpr ⟨fun hm => ?_, hd⟩, List.forall_mem_cons.mpr ⟨hnew, fun x hx hp => ?_⟩⟩
    · obtain ⟨x, hx, hkey⟩ := List.mem_map.mp hm
      exact hfresh x hx (by simp [hkey])
    · exact hfresh x hx (List.mem_append_left _ hp)

/-- No source has two fields of one name. -/
theorem Reachable.fields_nodup {s : Store} (h : s.Reachable) : (s.fields.map Field.key).Nodup := by
  induction h with
  | empty => exact List.nodup_nil
  | @step s t op hs ht ih =>
    rcases perform_cases ht with ⟨name, fields, key, query, hc, -, rfl⟩ | ⟨fields, hc, rfl⟩
    · obtain ⟨-, hnames, -⟩ := checkSource_eq_ok hc
      rw [pushAll_keys, List.map_map]
      refine List.nodup_append.mpr ⟨ih, ?_, fun k hk l hl hkl => ?_⟩
      · have hpair : fields.map ((fun x : SourceId × FieldDef => (x.1, x.2.name)) ∘ fun d =>
            (s.sources.length, d)) = (fields.map (·.name)).map (s.sources.length, ·) := by
          rw [List.map_map]
          rfl
        rw [hpair]
        exact List.Nodup.map (fun _ _ he => (Prod.mk.inj he).2) hnames
      · -- The fields that were there have owners that were.
        obtain ⟨f, hf, rfl⟩ := List.mem_map.mp hk
        obtain ⟨d, _, rfl⟩ := List.mem_map.mp hl
        have howner : f.owner = s.sources.length := (Prod.mk.inj hkl).1
        exact Nat.ne_of_lt (hs.coherent.owners f hf) howner
    · obtain ⟨hd, -⟩ := checkAll_distinct hc
      show ((s.pushAll fields).fields.map Field.key).Nodup
      rw [pushAll_keys]
      refine List.nodup_append.mpr ⟨ih, hd, fun k hk l hl hkl => ?_⟩
      obtain ⟨f, hf, rfl⟩ := List.mem_map.mp hk
      obtain ⟨x, hx, rfl⟩ := List.mem_map.mp hl
      obtain ⟨a, _, source, _, rfl, hfree⟩ := checkAll_eq_ok hc x hx
      have hnot := List.find?_eq_none.mp hfree f hf
      obtain ⟨howner, hname⟩ := Prod.mk.inj hkl
      simp [howner, hname] at hnot

theorem Reachable.field_ext {s : Store} (h : s.Reachable) {f g : Field} (hf : f ∈ s.fields)
    (hg : g ∈ s.fields) (ho : f.owner = g.owner) (hn : f.name = g.name) : f = g :=
  List.inj_on_of_nodup_map h.fields_nodup hf hg (Prod.ext ho hn)

theorem Reachable.fieldNames_nodup {s : Store} (h : s.Reachable) (owner : SourceId) :
    ((s.fieldsOf owner).map (·.name)).Nodup := by
  refine ((List.Nodup.of_map _ h.fields_nodup).filter _).map_on fun f hf g hg hname => ?_
  obtain ⟨hf, hfo⟩ := List.mem_filter.mp hf
  obtain ⟨hg, hgo⟩ := List.mem_filter.mp hg
  exact h.field_ext hf hg ((eq_of_beq hfo).trans (eq_of_beq hgo).symm) hname

theorem Reachable.fieldNamed?_of_mem {s : Store} (h : s.Reachable) {owner : SourceId} {f : Field}
    (hf : f ∈ s.fieldsOf owner) : s.fieldNamed? owner f.name = some f := by
  obtain ⟨hmem, ho⟩ := List.mem_filter.mp hf
  cases hfound : s.fieldNamed? owner f.name with
  | none =>
    have hnot := List.find?_eq_none.mp hfound f hmem
    simp [ho] at hnot
  | some g =>
    obtain ⟨howner, hname⟩ := fieldNamed?_owner hfound
    rw [h.field_ext (fieldNamed?_mem hfound) hmem (howner.trans (eq_of_beq ho).symm) hname]

theorem Reachable.source_ext {s : Store} (h : s.Reachable) {x y : Source} (hx : x ∈ s.sources)
    (hy : y ∈ s.sources) (hn : x.name = y.name) : x = y :=
  List.inj_on_of_nodup_map h.names_nodup hx hy hn

theorem Coherent.owner {s : Store} (h : s.Coherent) {f : Field} (hf : f ∈ s.fields) :
    ∃ x ∈ s.sources, x.id = f.owner ∧ s.sourceName f.owner = x.name := by
  have hx := List.getElem?_eq_getElem (h.owners f hf)
  refine ⟨_, List.getElem_mem (h.owners f hf), h.sourceIds _ _ hx, ?_⟩
  simp only [sourceName, source?, hx]

/-! ## Models -/

/-- The source of a name has a field of a name and a kind. -/
def Declares (s : Store) (source : String) (d : FieldDef) : Prop :=
  ∃ x, s.sourceNamed? source = some x ∧ ∃ f ∈ s.fieldsOf x.id, f.name = d.name ∧ f.kind = d.kind

/-- The declared fields with the names of their sources, in the order of creation. -/
def declared (s : Store) : List (String × FieldDef) :=
  s.fields.map fun f => (s.sourceName f.owner, ⟨f.name, f.kind⟩)

theorem Reachable.declares_iff {s : Store} (hs : s.Reachable) {name : String} {d : FieldDef} :
    s.Declares name d ↔ (name, d) ∈ s.declared := by
  constructor
  · rintro ⟨x, hx, f, hf, hname, hkind⟩
    obtain ⟨hf, ho⟩ := List.mem_filter.mp hf
    have howner : s.sourceName f.owner = name := by
      rw [eq_of_beq ho, sourceName, hs.coherent.source?_id (sourceNamed?_mem hx)]
      exact sourceNamed?_name hx
    exact List.mem_map.mpr ⟨f, hf, by rw [howner, hname, hkind]⟩
  · intro h
    obtain ⟨f, hf, heq⟩ := List.mem_map.mp h
    obtain ⟨rfl, rfl⟩ := Prod.mk.inj heq
    obtain ⟨x, hx, hid, hname⟩ := hs.coherent.owner hf
    rw [hname]
    exact ⟨x, hs.sourceNamed?_of_mem hx, f, List.mem_filter.mpr ⟨hf, by simp [hid]⟩, rfl, rfl⟩

/-- Stores that declare the same: sources of the same names, each with one primary key, one query or
none, and the same fields. -/
structure SameModel (s t : Store) : Prop where
  sources : ∀ name, (s.sourceNamed? name).map (fun x => (x.primaryKey, x.query)) =
    (t.sourceNamed? name).map fun x => (x.primaryKey, x.query)
  fields : ∀ name d, s.Declares name d ↔ t.Declares name d

/-- Sources of one name. -/
structure SameSource (s t : Store) (x y : Source) : Prop where
  left : x ∈ s.sources
  right : y ∈ t.sources
  name : x.name = y.name

/-- Fields of one name, of sources of one name, each the one that its number denotes. -/
structure SameField (s t : Store) (f g : Field) : Prop where
  left : s.field? f.id = some f
  right : t.field? g.id = some g
  owner : s.sourceName f.owner = t.sourceName g.owner
  name : f.name = g.name

theorem SameModel.symm {s t : Store} (h : SameModel s t) : SameModel t s :=
  ⟨fun name => (h.sources name).symm, fun name d => (h.fields name d).symm⟩

theorem SameSource.symm {s t : Store} {x y : Source} (h : SameSource s t x y) : SameSource t s y x :=
  ⟨h.right, h.left, h.name.symm⟩

theorem SameField.symm {s t : Store} {f g : Field} (h : SameField s t f g) : SameField t s g f :=
  ⟨h.right, h.left, h.owner.symm, h.name.symm⟩

theorem SameField.mem {s t : Store} {f g : Field} (h : SameField s t f g) :
    f ∈ s.fields ∧ g ∈ t.fields :=
  ⟨List.mem_of_getElem? h.left, List.mem_of_getElem? h.right⟩

theorem SameSource.unique {s t : Store} (ht : t.Reachable) {x y y' : Source} (h : SameSource s t x y)
    (h' : SameSource s t x y') : y = y' :=
  ht.source_ext h.right h'.right (h.name.symm.trans h'.name)

theorem SameField.unique {s t : Store} (ht : t.Reachable) {f g g' : Field} (h : SameField s t f g)
    (h' : SameField s t f g') : g = g' := by
  obtain ⟨y, hy, hyid, hyname⟩ := ht.coherent.owner h.mem.2
  obtain ⟨y', hy', hyid', hyname'⟩ := ht.coherent.owner h'.mem.2
  have hname : y.name = y'.name := by rw [← hyname, ← hyname', ← h.owner, ← h'.owner]
  have howner : g.owner = g'.owner := by rw [← hyid, ← hyid', ht.source_ext hy hy' hname]
  exact ht.field_ext h.mem.2 h'.mem.2 howner (h.name.symm.trans h'.name)

namespace SameModel

variable {s t : Store} {x y : Source} {f g : Field}

theorem sourceNamed? (h : SameModel s t) (name : String) :
    Option.Rel (SameSource s t) (s.sourceNamed? name) (t.sourceNamed? name) := by
  have hkey := h.sources name
  cases hx : s.sourceNamed? name with
  | none =>
    rw [hx, Option.map_none] at hkey
    rw [Option.map_eq_none_iff.mp hkey.symm]
    exact .none
  | some x =>
    rw [hx, Option.map_some] at hkey
    obtain ⟨y, hy, -⟩ := Option.map_eq_some_iff.mp hkey.symm
    rw [hy]
    exact .some ⟨sourceNamed?_mem hx, sourceNamed?_mem hy,
      (sourceNamed?_name hx).trans (sourceNamed?_name hy).symm⟩

theorem declared (h : SameModel s t) (hs : s.Reachable) (ht : t.Reachable) (hxy : SameSource s t x y) :
    x.primaryKey = y.primaryKey ∧ x.query = y.query := by
  have hkey := h.sources x.name
  rw [hs.sourceNamed?_of_mem hxy.left, hxy.name, ht.sourceNamed?_of_mem hxy.right] at hkey
  exact Prod.mk.inj (Option.some.inj hkey)

/-- A field has a counterpart of its kind on the source of the same name. -/
theorem counterpart (h : SameModel s t) (hs : s.Reachable) (ht : t.Reachable)
    (hxy : SameSource s t x y) (hf : f ∈ s.fields) (ho : f.owner = x.id) :
    ∃ g ∈ t.fields, g.owner = y.id ∧ g.name = f.name ∧ g.kind = f.kind := by
  have hdeclares : s.Declares x.name ⟨f.name, f.kind⟩ :=
    ⟨x, hs.sourceNamed?_of_mem hxy.left, f, List.mem_filter.mpr ⟨hf, by simp [ho]⟩, rfl, rfl⟩
  obtain ⟨y', hy', g, hg, hname, hkind⟩ := (h.fields _ _).mp hdeclares
  rw [hxy.name, ht.sourceNamed?_of_mem hxy.right] at hy'
  cases hy'
  obtain ⟨hg, howner⟩ := List.mem_filter.mp hg
  exact ⟨g, hg, by simpa using howner, hname, hkind⟩

theorem kind (h : SameModel s t) (hs : s.Reachable) (ht : t.Reachable) (hfg : SameField s t f g) :
    f.kind = g.kind := by
  obtain ⟨x, hx, hxid, hxname⟩ := hs.coherent.owner hfg.mem.1
  obtain ⟨y, hy, hyid, hyname⟩ := ht.coherent.owner hfg.mem.2
  have hxy : SameSource s t x y := ⟨hx, hy, by rw [← hxname, ← hyname, hfg.owner]⟩
  obtain ⟨g', hg', howner, hname, hkind⟩ := h.counterpart hs ht hxy hfg.mem.1 hxid.symm
  obtain rfl : g' = g := ht.field_ext hg' hfg.mem.2 (howner.trans hyid) (hname.trans hfg.name)
  exact hkind.symm

end SameModel

/-- The shop, told in another order. -/
def retold : Store :=
  [.defineQuerySource "spending"
      ⟨"orders", [⟨[⟨["customer_id"]⟩], [⟨some "total", some .sum, some ⟨["amount"]⟩⟩]⟩]⟩
      (some "customer_id"),
    .defineSource "orders" [⟨"amount", .scalar⟩, ⟨"id", .scalar⟩] (some "id"),
    .addField "orders" ⟨"customer_id", .scalar⟩,
    .defineSource "customers" [⟨"spending",
        .join ⟨"spending", .one, .equal ⟨["id"]⟩ ⟨["spending", "customer_id"]⟩⟩⟩,
      ⟨"region", .scalar⟩, ⟨"id", .scalar⟩] (some "id"),
    .apply [⟨"orders", ⟨"customer",
        .join ⟨"customers", .one, .equal ⟨["customer_id"]⟩ ⟨["customer", "id"]⟩⟩⟩⟩,
      ⟨"customers", ⟨"orders",
        .join ⟨"orders", .many, .equal ⟨["id"]⟩ ⟨["orders", "customer_id"]⟩⟩⟩⟩]].foldl attempt .empty

theorem retold_reachable : retold.Reachable := Reachable.empty.attempts _

theorem shop_retold : SameModel shop retold := by
  refine ⟨fun name => ?_, fun name d => ?_⟩
  · by_cases hcustomers : "customers" = name
    · subst hcustomers; rfl
    by_cases horders : "orders" = name
    · subst horders; rfl
    by_cases hspending : "spending" = name
    · subst hspending; rfl
    have hshop : shop.sourceNamed? name = none := by
      rw [Store.sourceNamed?, show shop.sources = [_, _, _] from rfl]
      simp [hcustomers, horders, hspending]
    have hretold : retold.sourceNamed? name = none := by
      rw [Store.sourceNamed?, show retold.sources = [_, _, _] from rfl]
      simp [hcustomers, horders, hspending]
    rw [hshop, hretold]
  · have hshop : shop.declared =
        [("customers", ⟨"id", .scalar⟩), ("customers", ⟨"region", .scalar⟩),
          ("orders", ⟨"id", .scalar⟩), ("orders", ⟨"customer_id", .scalar⟩),
          ("orders", ⟨"amount", .scalar⟩), ("orders", ⟨"customer",
            .join ⟨"customers", .one, .equal ⟨["customer_id"]⟩ ⟨["customer", "id"]⟩⟩⟩),
          ("customers", ⟨"orders",
            .join ⟨"orders", .many, .equal ⟨["id"]⟩ ⟨["orders", "customer_id"]⟩⟩⟩),
          ("spending", ⟨"customer_id", .scalar⟩), ("spending", ⟨"total", .scalar⟩),
          ("customers", ⟨"spending",
            .join ⟨"spending", .one, .equal ⟨["id"]⟩ ⟨["spending", "customer_id"]⟩⟩⟩)] := rfl
    have hretold : retold.declared =
        [("spending", ⟨"customer_id", .scalar⟩), ("spending", ⟨"total", .scalar⟩),
          ("orders", ⟨"amount", .scalar⟩), ("orders", ⟨"id", .scalar⟩),
          ("orders", ⟨"customer_id", .scalar⟩), ("customers", ⟨"spending",
            .join ⟨"spending", .one, .equal ⟨["id"]⟩ ⟨["spending", "customer_id"]⟩⟩⟩),
          ("customers", ⟨"region", .scalar⟩), ("customers", ⟨"id", .scalar⟩),
          ("orders", ⟨"customer",
            .join ⟨"customers", .one, .equal ⟨["customer_id"]⟩ ⟨["customer", "id"]⟩⟩⟩),
          ("customers", ⟨"orders",
            .join ⟨"orders", .many, .equal ⟨["id"]⟩ ⟨["orders", "customer_id"]⟩⟩⟩)] := rfl
    rw [shop_reachable.declares_iff, retold_reachable.declares_iff, hshop, hretold]
    simp only [List.mem_cons, List.not_mem_nil, or_false]
    tauto

end Store

end Joinery
