/-
The store as linked structures.

An arena keeps with each source the numbers of its fields, and beside the sources
an index from names to numbers; the store has neither and searches. An edit
changes the arena in place, so what it has written stays written if it fails. All
checks come before the first write: an edit does what the operation of the store
does, with the same value, and fails with the same error on an arena that it has
not touched (`perform_does`). In between the structures disagree: while the fields
of a new source come in, the index does not know its name yet (`Links`). After
every operation they agree (`built_wellFormed`).
-/
import Joinery.Proofs.Store.Growth
import Joinery.Proofs.Store.Model

namespace Joinery

/-- A source with the numbers of its fields. -/
structure LinkedSource extends Source where
  fields : List FieldId

/-- Sources and fields with links between them. -/
structure Arena where
  sources : List LinkedSource
  fields : List Field
  /-- The numbers of the sources by their names, the last first. -/
  index : List (String × SourceId)
  revision : Nat

/-- A change of the arena in place. -/
abbrev Edit := EStateM ModelError Arena

namespace Arena

/-- Nothing is defined yet. -/
def empty : Arena := ⟨[], [], [], 0⟩

/-! ## Reading -/

/-- The number of a source, by the index of names. -/
def sourceId? (a : Arena) (name : String) : Option SourceId := a.index.lookup name

/-- The numbers of the fields of a source. -/
def fieldIds (a : Arena) (owner : SourceId) : List FieldId :=
  (a.sources[owner]?.map (·.fields)).getD []

/-- The fields of a source, by their numbers. -/
def fieldsOf (a : Arena) (owner : SourceId) : List Field := (a.fieldIds owner).filterMap (a.fields[·]?)

/-- The field of a source with a name. -/
def fieldNamed? (a : Arena) (owner : SourceId) (name : String) : Option Field :=
  (a.fieldsOf owner).find? (·.name == name)

/-! ## Editing -/

/-- Appends a field to a source. Neither the owner nor the name is checked. -/
def pushField (owner : SourceId) (d : FieldDef) : Edit FieldId := fun a =>
  let id := a.fields.length
  .ok id { a with
    fields := a.fields ++ [⟨id, owner, d.name, d.kind⟩]
    sources := a.sources.modify owner fun source => { source with fields := source.fields ++ [id] } }

/-- Pushes fields one after the other, each to its owner. -/
def pushFields : List (SourceId × FieldDef) → Edit (List FieldId)
  | [] => return []
  | (owner, d) :: rest => do
    let id ← pushField owner d
    return id :: (← pushFields rest)

/-- Counts one more revision. -/
def countRevision : Edit Unit := modify fun a => { a with revision := a.revision + 1 }

/-- The checks before a source is defined, in the order in which they fail. -/
def checkSource (name : String) (fields : List String) (primaryKey : Option String) : Edit Unit := do
  if ((← get).sourceId? name).isSome then throw (.duplicateName name)
  else match firstRepeat? fields with
    | some field => throw (.duplicateField name field)
    | none =>
      match primaryKey with
      | none => return ()
      | some key => if fields.contains key then return () else throw (.unknownPrimaryKey name key)

/-- Writes a source and its fields. The name comes into the index last. -/
def insertSource (name : String) (fields : List FieldDef) (primaryKey : Option String)
    (query : Option Query) : Edit SourceId := do
  let id := (← get).sources.length
  modify fun a => { a with sources := a.sources ++ [⟨⟨id, name, primaryKey, query⟩, []⟩] }
  let _ ← pushFields (fields.map fun d => (id, d))
  modify fun a => { a with index := (name, id) :: a.index }
  countRevision
  return id

/-- Defines a source with a table. -/
def defineSource (name : String) (fields : List FieldDef) (primaryKey : Option String) :
    Edit SourceId := do
  checkSource name (fields.map (·.name)) primaryKey
  insertSource name fields primaryKey none

/-- Defines a source by a query: its fields are the output columns. -/
def defineQuerySource (name : String) (query : Query) (primaryKey : Option String) :
    Edit SourceId := do
  let fields : List FieldDef := query.outputNames.map fun n => ⟨n, .scalar⟩
  checkSource name (fields.map (·.name)) primaryKey
  insertSource name fields primaryKey (some query)

/-- Checks one amendment of a batch, of which some are pending. -/
def checkAmendment (pending : List (SourceId × String)) (m : Amendment) : Edit SourceId := do
  let a ← get
  match a.sourceId? m.owner with
  | none => throw (.unknownSource m.owner)
  | some owner =>
    if (a.fieldNamed? owner m.field.name).isSome || pending.contains (owner, m.field.name)
    then throw (.duplicateField m.owner m.field.name)
    else return owner

/-- Adds one field to a source. -/
def addField (owner : String) (field : FieldDef) : Edit FieldId := do
  let id ← pushField (← checkAmendment [] ⟨owner, field⟩) field
  countRevision
  return id

/-- Adds a join to a source. -/
def addJoinField (owner name target : String) (cardinality : Cardinality) (on : Condition) :
    Edit FieldId :=
  addField owner ⟨name, .join ⟨target, cardinality, on⟩⟩

/-- Checks some amendments in order; those that have passed are pending. -/
def checkAll (pending : List (SourceId × String)) :
    List Amendment → Edit (List (SourceId × FieldDef))
  | [] => return []
  | m :: ms => do
    let owner ← checkAmendment pending m
    return (owner, m.field) :: (← checkAll (pending ++ [(owner, m.field.name)]) ms)

/-- Amends in two passes: all amendments are checked, then their fields are pushed. -/
def apply (amendments : List Amendment) : Edit (List FieldId) := do
  let ids ← pushFields (← checkAll [] amendments)
  if ids.isEmpty then return ids
  else do
    countRevision
    return ids

/-- Performs an operation, in place. -/
def perform : Operation → Edit Unit
  | .defineSource name fields key => discard (defineSource name fields key)
  | .defineQuerySource name query key => discard (defineQuerySource name query key)
  | .addField owner field => discard (addField owner field)
  | .addJoinField owner name target cardinality on =>
    discard (addJoinField owner name target cardinality on)
  | .apply amendments => discard (apply amendments)

/-- The arena that an operation leaves behind, whether it fails or not. -/
def attempt (a : Arena) (op : Operation) : Arena :=
  match (perform op).run a with
  | .ok _ b => b
  | .error _ b => b

/-! ## Arena and store -/

/-- The sources and fields of a store, with the fields of each source linked to it. -/
structure Links (a : Arena) (s : Store) : Prop where
  sources : a.sources.map (·.toSource) = s.sources
  fields : a.fields = s.fields
  lists : ∀ (i : Nat) (source : LinkedSource), a.sources[i]? = some source →
    source.fields = (s.fieldsOf i).map (·.id)

/-- An arena stands for a store: its index finds what the store finds. -/
structure StandsFor (a : Arena) (s : Store) : Prop extends Links a s where
  index : ∀ name, a.sourceId? name = (s.sourceNamed? name).map (·.id)
  revision : a.revision = s.revision

theorem standsFor_empty : StandsFor .empty .empty :=
  ⟨⟨rfl, rfl, by simp [empty]⟩, fun _ => rfl, rfl⟩

variable {a : Arena} {s : Store}

theorem Links.length (h : Links a s) : a.sources.length = s.sources.length := by
  rw [← h.sources, List.length_map]

theorem Links.fieldIds (h : Links a s) {owner : SourceId} (ho : owner < s.sources.length) :
    a.fieldIds owner = (s.fieldsOf owner).map (·.id) := by
  have hsource := List.getElem?_eq_getElem (h.length ▸ ho : owner < a.sources.length)
  rw [Arena.fieldIds, hsource, Option.map_some, Option.getD_some, h.lists owner _ hsource]

theorem Links.fieldsOf (h : Links a s) (hs : s.Coherent) {owner : SourceId}
    (ho : owner < s.sources.length) : a.fieldsOf owner = s.fieldsOf owner := by
  rw [Arena.fieldsOf, h.fieldIds ho, h.fields, List.filterMap_map]
  have hfound : ∀ f ∈ s.fieldsOf owner, ((s.fields[·]?) ∘ Field.id) f = some f := fun f hf =>
    hs.field?_id (List.mem_filter.mp hf).1
  rw [List.filterMap_congr hfound, List.filterMap_some]

theorem Links.fieldNamed? (h : Links a s) (hs : s.Coherent) {owner : SourceId}
    (ho : owner < s.sources.length) (name : String) :
    a.fieldNamed? owner name = s.fieldNamed? owner name := by
  rw [Arena.fieldNamed?, h.fieldsOf hs ho, Store.fieldsOf, List.find?_filter, Store.fieldNamed?]
  simp only [Bool.decide_and, Bool.decide_eq_true]

/-! ## Checks -/

/-- The outcome of an edit that has written nothing. -/
def untouched {α : Type} (a : Arena) : Except ModelError α → EStateM.Result ModelError Arena α
  | .ok v => .ok v a
  | .error e => .error e a

theorem checkSource_run (h : StandsFor a s) (name : String) (fields : List String)
    (primaryKey : Option String) : (checkSource name fields primaryKey).run a =
      untouched a (s.checkSource name fields primaryKey) := by
  simp only [checkSource, Store.checkSource, EStateM.run_bind, EStateM.run_get, h.index, Option.isSome_map]
  by_cases hname : (s.sourceNamed? name).isSome = true
  · simp only [hname, if_true]
    rfl
  simp only [hname]
  cases firstRepeat? fields with
  | some field => rfl
  | none =>
    cases primaryKey with
    | none => rfl
    | some key => by_cases hkey : fields.contains key = true <;> simp only [hkey] <;> rfl

theorem checkAmendment_run (h : StandsFor a s) (hs : s.Coherent) (pending : List (SourceId × String))
    (m : Amendment) :
    (checkAmendment pending m).run a = untouched a (s.checkAmendment pending m) := by
  simp only [checkAmendment, Store.checkAmendment, EStateM.run_bind, EStateM.run_get, h.index]
  cases ho : s.sourceNamed? m.owner with
  | none => rfl
  | some owner =>
    simp only [Option.map_some, h.fieldNamed? hs (hs.lt_of_mem (Store.sourceNamed?_mem ho))]
    cases (s.fieldNamed? owner.id m.field.name).isSome || pending.contains (owner.id, m.field.name) <;> rfl

theorem checkAll_run (h : StandsFor a s) (hs : s.Coherent) : ∀ (ms : List Amendment)
    (pending : List (SourceId × String)), (checkAll pending ms).run a = untouched a (s.checkAll pending ms)
  | [], _ => rfl
  | m :: ms, pending => by
    simp only [checkAll, Store.checkAll, EStateM.run_bind, checkAmendment_run h hs]
    cases s.checkAmendment pending m with
    | error e => rfl
    | ok owner =>
      simp only [untouched, checkAll_run h hs ms]
      cases hrest : s.checkAll (pending ++ [(owner, m.field.name)]) ms with
      | error e => simp only [bind, Except.bind, hrest]
      | ok rest =>
        simp only [bind, Except.bind, hrest]
        rfl

/-! ## Writes -/

theorem pushField_run (h : Links a s) (owner : SourceId) (d : FieldDef) :
    ∃ b, (pushField owner d).run a = .ok a.fields.length b ∧ Links b (s.push owner d) ∧
      b.fields.length = a.fields.length + 1 ∧ b.index = a.index ∧ b.revision = a.revision := by
  refine ⟨_, rfl, ⟨?_, ?_, fun i source hi => ?_⟩, by simp, rfl, rfl⟩
  · refine (List.ext_getElem? fun i => ?_).trans h.sources
    rw [List.getElem?_map, List.getElem?_map, List.getElem?_modify]
    cases a.sources[i]? with
    | none => rfl
    | some source =>
      simp only [Option.map_eq_map, Option.map_some]
      split <;> rfl
  · simp only [Store.push, h.fields]
  · rw [List.getElem?_modify] at hi
    obtain ⟨old, hold, rfl⟩ := Option.map_eq_some_iff.mp hi
    have hlist := h.lists i old hold
    by_cases ho : owner = i <;>
      simp [ho, hlist, Store.push, Store.fieldsOf, List.filter_append, h.fields]

theorem pushFields_run (h : Links a s) (fields : List (SourceId × FieldDef)) :
    ∃ b, (pushFields fields).run a = .ok ((List.range fields.length).map (a.fields.length + ·)) b ∧
      Links b (s.pushAll fields) ∧ b.index = a.index ∧ b.revision = a.revision := by
  induction fields generalizing a s with
  | nil => exact ⟨a, rfl, h, rfl, rfl⟩
  | cons x fields ih =>
    obtain ⟨b, hb, hlinks, hlength, hindex, hrevision⟩ := pushField_run h x.1 x.2
    obtain ⟨c, hc, hlinks', hindex', hrevision'⟩ := ih hlinks
    refine ⟨c, ?_, hlinks', hindex'.trans hindex, hrevision'.trans hrevision⟩
    simp only [pushFields, EStateM.run_bind, hb, hc, EStateM.run_pure, hlength, List.length_cons,
      List.range_succ_eq_map, List.map_cons, List.map_map, Nat.add_zero]
    simp [Function.comp_def, Nat.add_assoc, Nat.add_comm 1]

/-- A source without fields, with the next number and a name that the index does not know yet. -/
theorem Links.openSource (h : Links a s) (hs : s.Coherent) (name : String) (primaryKey : Option String)
    (query : Option Query) :
    Links { a with sources := a.sources ++ [⟨⟨a.sources.length, name, primaryKey, query⟩, []⟩] }
      (s.openSource name primaryKey query) := by
  refine ⟨?_, h.fields, fun i source hi => ?_⟩
  · simp only [List.map_append, h.sources, h.length, List.map_singleton, Store.openSource]
  · show source.fields = (s.fieldsOf i).map (·.id)
    rcases getElem?_concat_eq_some hi with hi | ⟨rfl, rfl⟩
    · exact h.lists i source hi
    · -- No field is owned by a number that no source has had.
      rw [h.length, hs.fieldsOf_next]
      rfl

theorem insertSource_run (h : StandsFor a s) (hs : s.Coherent) {name : String}
    (hnew : s.sourceNamed? name = none) (fields : List FieldDef) (primaryKey : Option String)
    (query : Option Query) :
    ∃ b, (insertSource name fields primaryKey query).run a = .ok s.sources.length b ∧
      StandsFor b ((s.openSource name primaryKey query).pushAll
        (fields.map fun d => (s.sources.length, d))) := by
  have hopen := h.openSource hs name primaryKey query
  rw [h.length] at hopen
  obtain ⟨b, hb, hlinks, hindex, hrevision⟩ :=
    pushFields_run hopen (fields.map fun d => (s.sources.length, d))
  refine ⟨{ b with index := (name, s.sources.length) :: b.index, revision := b.revision + 1 }, ?_,
    ⟨⟨hlinks.sources, hlinks.fields, hlinks.lists⟩, fun n => ?_, ?_⟩⟩
  · simp only [insertSource, countRevision, EStateM.run_bind, EStateM.run_get, EStateM.run_modify, h.length,
      hb, EStateM.run_pure]
  · have hold : a.index.lookup n = (s.sourceNamed? n).map (·.id) := h.index n
    simp only [sourceId?, hindex, List.lookup_cons, hold, Store.sourceNamed?, Store.pushAll_sources,
      Store.openSource, List.find?_append]
    -- The new entry stands in front: it hides nothing, since the name is new.
    by_cases hn : n = name
    · subst hn
      have hnone : s.sources.find? (·.name == n) = none := hnew
      simp [hnone]
    · have hne : (n == name) = false := beq_eq_false_iff_ne.mpr hn
      have hne' : (name == n) = false := beq_eq_false_iff_ne.mpr fun he => hn he.symm
      simp [hne, hne']
  · simp only [hrevision, h.revision, Store.pushAll_revision, Store.openSource]

/-! ## Operations -/

/-- An edit does what an operation of the store does: it gives the same value and leaves an arena
behind that stands for the new store, or it fails with the same error and has written nothing. -/
def Does {α : Type} (a : Arena) (x : Edit α) : Except ModelError (α × Store) → Prop
  | .ok (v, t) => ∃ b, x.run a = .ok v b ∧ StandsFor b t
  | .error e => x.run a = .error e a

theorem Does.checked {α β : Type} {check : Edit β} {c : Except ModelError β} {x : β → Edit α}
    {y : β → Except ModelError (α × Store)} (h : check.run a = untouched a c)
    (hxy : ∀ v, c = .ok v → Does a (x v) (y v)) : Does a (check >>= x) (c >>= y) := by
  cases c with
  | error e =>
    show (check >>= x).run a = .error e a
    rw [EStateM.run_bind, h]
    rfl
  | ok v =>
    have hv := hxy v rfl
    unfold Does at hv ⊢
    rw [EStateM.run_bind, h]
    exact hv

theorem addSource_does (h : StandsFor a s) (hs : s.Coherent) (name : String) (fields : List FieldDef)
    (primaryKey : Option String) (query : Option Query) :
    Does a (do
        checkSource name (fields.map (·.name)) primaryKey
        insertSource name fields primaryKey query)
      (s.addSource name fields primaryKey query) := by
  refine Does.checked (checkSource_run h name _ primaryKey) fun _ hc => ?_
  obtain ⟨hnew, -⟩ := Store.checkSource_eq_ok hc
  obtain ⟨b, hb, hstands⟩ := insertSource_run h hs hnew fields primaryKey query
  exact ⟨b, hb, Store.pushAll_owner _ _ _ ▸ hstands⟩

theorem addField_does (h : StandsFor a s) (hs : s.Coherent) (owner : String) (field : FieldDef) :
    Does a (addField owner field) (s.addField owner field) := by
  refine Does.checked (checkAmendment_run h hs [] ⟨owner, field⟩) fun id _ => ?_
  obtain ⟨b, hb, hlinks, -, hindex, hrevision⟩ := pushField_run h.toLinks id field
  refine ⟨{ b with revision := b.revision + 1 }, ?_,
    ⟨⟨hlinks.sources, hlinks.fields, hlinks.lists⟩, fun n => ?_, ?_⟩⟩
  · simp only [countRevision, EStateM.run_bind, hb, EStateM.run_modify, EStateM.run_pure, h.fields]
  · simp only [sourceId?, hindex]
    exact h.index n
  · simp only [hrevision, h.revision]

theorem apply_does (h : StandsFor a s) (hs : s.Coherent) (amendments : List Amendment) :
    Does a (apply amendments) (s.apply amendments) := by
  refine Does.checked (checkAll_run h hs amendments []) fun fields _ => ?_
  obtain ⟨b, hb, hlinks, hindex, hrevision⟩ := pushFields_run h.toLinks fields
  have hfound (n : String) : b.sourceId? n = ((s.pushAll fields).sourceNamed? n).map (·.id) := by
    simp only [sourceId?, hindex, Store.sourceNamed?, Store.pushAll_sources]
    exact h.index n
  rw [h.fields] at hb
  cases fields with
  | nil =>
    refine ⟨b, ?_, hlinks, hfound, hrevision.trans h.revision⟩
    rw [EStateM.run_bind, hb]
    rfl
  | cons x fields =>
    refine ⟨{ b with revision := b.revision + 1 }, ?_,
      ⟨hlinks.sources, hlinks.fields, hlinks.lists⟩, hfound, ?_⟩
    · have hsome : ((List.range (x :: fields).length).map (s.fields.length + ·)).isEmpty = false := by
        simp [List.range_succ_eq_map]
      simp only [EStateM.run_bind, hb, hsome]
      rfl
    · show b.revision + 1 = (s.pushAll (x :: fields)).revision + 1
      rw [hrevision, h.revision, Store.pushAll_revision]

theorem Does.discard {α : Type} {x : Edit α} {y : Except ModelError (α × Store)} (h : Does a x y) :
    Does a (Functor.discard x) ((y.map (·.2)).map fun t => ((), t)) := by
  have hbind : Functor.discard x = x >>= fun _ => pure () := rfl
  rw [hbind]
  cases y with
  | error e =>
    have he : x.run a = .error e a := h
    show (x >>= fun _ => pure ()).run a = .error e a
    rw [EStateM.run_bind, he]
  | ok out =>
    obtain ⟨b, hb, hstands⟩ := h
    refine ⟨b, ?_, hstands⟩
    rw [EStateM.run_bind, hb]
    rfl

/-- **An edit does what the operation of the store does.** -/
theorem perform_does (h : StandsFor a s) (hs : s.Coherent) (op : Operation) :
    Does a (perform op) ((s.perform op).map fun t => ((), t)) := by
  cases op with
  | defineSource name fields key => exact (addSource_does h hs name fields key none).discard
  | defineQuerySource name query key => exact (addSource_does h hs name _ key (some query)).discard
  | addField owner field => exact (addField_does h hs owner field).discard
  | addJoinField owner name target cardinality on => exact (addField_does h hs owner _).discard
  | apply amendments => exact (apply_does h hs amendments).discard

theorem StandsFor.attempt (h : StandsFor a s) (hs : s.Coherent) (op : Operation) :
    StandsFor (a.attempt op) (s.attempt op) := by
  have hdoes := perform_does h hs op
  unfold Arena.attempt Store.attempt
  cases ht : s.perform op with
  | error e =>
    rw [ht] at hdoes
    rw [show (perform op).run a = .error e a from hdoes]
    exact h
  | ok t =>
    rw [ht] at hdoes
    obtain ⟨b, hb, hstands⟩ := hdoes
    rw [hb]
    exact hstands

theorem StandsFor.attempts (h : StandsFor a s) (hs : s.Reachable) (ops : List Operation) :
    StandsFor (ops.foldl Arena.attempt a) (ops.foldl Store.attempt s) := by
  induction ops generalizing a s with
  | nil => exact h
  | cons op ops ih => exact ih (h.attempt hs.coherent op) (hs.attempt op)

/-! ## What holds of an arena that operations build -/

/-- The structures of an arena agree. -/
structure WellFormed (a : Arena) : Prop where
  sourceIds : ∀ (i : Nat) (source : LinkedSource), a.sources[i]? = some source → source.id = i
  fieldIds : ∀ (i : Nat) (f : Field), a.fields[i]? = some f → f.id = i
  /-- The index has the names of the sources and no others. -/
  index : ∀ (name : String) (i : Nat), a.sourceId? name = some i ↔
    ∃ source, a.sources[i]? = some source ∧ source.name = name
  names : (a.sources.map (·.name)).Nodup
  /-- A field is listed once by its owner. -/
  owned : ∀ (i : Nat) (f : Field), a.fields[i]? = some f →
    ∃ owner, a.sources[f.owner]? = some owner ∧ owner.fields.count i = 1
  /-- A source lists fields that it owns, and no others. -/
  listed : ∀ (i : Nat) (source : LinkedSource), a.sources[i]? = some source →
    ∀ id ∈ source.fields, ∃ f, a.fields[id]? = some f ∧ f.owner = i
  increasing : ∀ source ∈ a.sources, source.fields.Pairwise (· < ·)
  fieldNames : ∀ source ∈ a.sources, ((a.fieldsOf source.id).map (·.name)).Nodup
  furnished : ∀ source ∈ a.sources,
    Store.Furnished source.toSource ((a.fieldsOf source.id).map Field.toDef)

theorem StandsFor.source (h : StandsFor a s) {i : Nat} {source : LinkedSource}
    (hi : a.sources[i]? = some source) : s.sources[i]? = some source.toSource := by
  rw [← h.sources, List.getElem?_map, hi, Option.map_some]

theorem StandsFor.linked (h : StandsFor a s) (hs : s.Coherent) {source : Source}
    (hmem : source ∈ s.sources) : ∃ x, a.sources[source.id]? = some x ∧ x.toSource = source := by
  have hi : s.sources[source.id]? = some source := hs.source?_id hmem
  rw [← h.sources, List.getElem?_map] at hi
  exact Option.map_eq_some_iff.mp hi

theorem ids_increasing (hs : s.Coherent) (owner : SourceId) :
    ((s.fieldsOf owner).map (·.id)).Pairwise (· < ·) := by
  have hall : s.fields.map (·.id) = List.range s.fields.length := by
    refine List.ext_getElem (by simp) fun i hi _ => ?_
    rw [List.getElem_map, List.getElem_range]
    exact hs.fieldIds i _ (List.getElem?_eq_getElem (List.length_map _ ▸ hi))
  have hsub : ((s.fieldsOf owner).map (·.id)).Sublist (s.fields.map (·.id)) := List.filter_sublist.map _
  exact (hall ▸ List.pairwise_lt_range).sublist hsub

theorem StandsFor.wellFormed (h : StandsFor a s) (hs : s.Reachable) : WellFormed a := by
  have hfieldsOf : ∀ source ∈ a.sources, a.fieldsOf source.id = s.fieldsOf source.id := by
    intro source hmem
    have hmem' : source.toSource ∈ s.sources := h.sources ▸ List.mem_map_of_mem hmem
    exact h.fieldsOf hs.coherent (hs.coherent.lt_of_mem hmem')
  refine ⟨fun i source hi => ?_, fun i f hi => ?_, fun name i => ?_, ?_, fun i f hi => ?_,
    fun i source hi id hid => ?_, fun source hmem => ?_, fun source hmem => ?_, fun source hmem => ?_⟩
  · exact hs.coherent.sourceIds i _ (h.source hi)
  · exact hs.coherent.fieldIds i f (h.fields ▸ hi)
  · rw [h.index]
    constructor
    · intro hi
      obtain ⟨source, hsource, rfl⟩ := Option.map_eq_some_iff.mp hi
      obtain ⟨x, hx, rfl⟩ := h.linked hs.coherent (Store.sourceNamed?_mem hsource)
      exact ⟨x, hx, Store.sourceNamed?_name hsource⟩
    · rintro ⟨source, hi, rfl⟩
      have hsource := h.source hi
      rw [hs.sourceNamed?_of_mem (List.mem_of_getElem? hsource), Option.map_some,
        hs.coherent.sourceIds i _ hsource]
  · have hnames := hs.names_nodup
    rwa [← h.sources, List.map_map] at hnames
  · have hf : f ∈ s.fields := h.fields ▸ List.mem_of_getElem? hi
    obtain ⟨source, hmem, hid, -⟩ := hs.coherent.owner hf
    obtain ⟨x, hx, rfl⟩ := h.linked hs.coherent hmem
    refine ⟨x, hid ▸ hx, ?_⟩
    rw [h.lists _ x hx]
    refine List.count_eq_one_of_mem ((ids_increasing hs.coherent _).imp Nat.ne_of_lt) ?_
    refine List.mem_map.mpr ⟨f, List.mem_filter.mpr ⟨hf, by simp [hid]⟩, ?_⟩
    exact hs.coherent.fieldIds i f (h.fields ▸ hi)
  · rw [h.lists i source hi] at hid
    obtain ⟨f, hf, rfl⟩ := List.mem_map.mp hid
    obtain ⟨hmem, howner⟩ := List.mem_filter.mp hf
    exact ⟨f, h.fields ▸ hs.coherent.field?_id hmem, eq_of_beq howner⟩
  · obtain ⟨i, hi⟩ := List.getElem?_of_mem hmem
    rw [h.lists i source hi]
    exact ids_increasing hs.coherent i
  · rw [hfieldsOf source hmem]
    exact hs.fieldNames_nodup source.id
  · rw [hfieldsOf source hmem]
    exact hs.furnished _ (h.sources ▸ List.mem_map_of_mem hmem)

/-! ## What an operation changes -/

/-- The fields of an arena are where they were, and as they were. -/
theorem attempt_fields (h : StandsFor a s) (hs : s.Coherent) (op : Operation) :
    a.fields <+: (a.attempt op).fields := by
  rw [h.fields, (h.attempt hs op).fields]
  unfold Store.attempt
  split
  · next t ht =>
    rcases Store.perform_cases ht with ⟨name, fields, key, query, -, -, rfl⟩ | ⟨fields, -, rfl⟩
    · exact Store.pushAll_fields (s.openSource name key query) _
    · exact Store.pushAll_fields s fields
  · exact List.prefix_rfl

theorem attempts_fields (h : StandsFor a s) (hs : s.Reachable) (ops : List Operation) :
    a.fields <+: (ops.foldl Arena.attempt a).fields := by
  induction ops generalizing a s with
  | nil => exact List.prefix_rfl
  | cons op ops ih =>
    exact (attempt_fields h hs.coherent op).trans (ih (h.attempt hs.coherent op) (hs.attempt op))

/-- An operation counts as a revision if it succeeds, but for an empty batch, which changes nothing;
if it fails it changes nothing. -/
def Counted (a : Arena) (op : Operation) : EStateM.Result ModelError Arena Unit → Prop
  | .ok _ b => (op = .apply [] → b = a) ∧ (op ≠ .apply [] → b.revision = a.revision + 1)
  | .error _ b => b = a

theorem perform_counted (h : StandsFor a s) (hs : s.Coherent) (op : Operation) :
    Counted a op ((perform op).run a) := by
  have hdoes := perform_does h hs op
  cases ht : s.perform op with
  | error e =>
    rw [ht] at hdoes
    rw [show (perform op).run a = .error e a from hdoes]
    rfl
  | ok t =>
    rw [ht] at hdoes
    obtain ⟨b, hb, hstands⟩ := hdoes
    rw [hb]
    refine ⟨fun hempty => ?_, fun hop => ?_⟩
    · subst hempty
      cases hb
      rfl
    · rw [hstands.revision, h.revision]
      exact Store.perform_revision ht hop

/-- **The structures of an arena agree**, whatever operations have built it, and it stands for the
store that they build. No field is changed later. Every operation that succeeds counts as a revision,
but for an empty batch, and one that fails leaves the arena as it is. -/
theorem built_wellFormed (ops : List Operation) :
    let a := ops.foldl Arena.attempt .empty
    StandsFor a (ops.foldl Store.attempt .empty) ∧ WellFormed a ∧
      (∀ (more : List Operation) (i : Nat) (f : Field), a.fields[i]? = some f →
        (more.foldl Arena.attempt a).fields[i]? = some f) ∧
      ∀ op, Counted a op ((perform op).run a) := by
  intro a
  have hs : (ops.foldl Store.attempt .empty).Reachable := Store.Reachable.empty.attempts ops
  have h : StandsFor a (ops.foldl Store.attempt .empty) := standsFor_empty.attempts .empty ops
  refine ⟨h, h.wellFormed hs, fun more i f hi => ?_, perform_counted h hs.coherent⟩
  obtain ⟨new, hnew⟩ := attempts_fields h hs more
  rw [← hnew, List.getElem?_append_left (List.getElem?_eq_some_iff.mp hi).1, hi]

end Arena

end Joinery
