/-
A batch of amendments does what its amendments do one by one.

Each amendment of a batch is checked against the store as it was and the names that
the amendments before it have taken, while one by one each is checked against the
store that those before it have grown. The names that are taken are the same
(`Store.Ahead`), so the outcome is the same but for the revision
(`Store.apply_eq_addFields`). On linked structures, which are edited in place, the
amendments that come before one that fails stay written, while a batch that fails
has written nothing (`Arena.apply_atomic`).
-/
import Joinery.Proofs.Store.Arena
import Joinery.Session

namespace Joinery

namespace Store

/-- Adds the field of each amendment in turn, up to the first that is refused. -/
def addFields (s : Store) : List Amendment → Except ModelError (List FieldId × Store)
  | [] => .ok ([], s)
  | m :: ms => do
    let (id, t) ← s.addField m.owner m.field
    let (ids, u) ← t.addFields ms
    return (id :: ids, u)

/-- The store with the revision that it has after a batch. -/
def afterBatch (t : Store) (revision : Nat) (ms : List Amendment) : Store :=
  { t with revision := revision + if ms = [] then 0 else 1 }

variable {s t : Store} {pending : List (SourceId × String)}

/-- `t` has the sources of `s`, and to the names that are taken in `s` it adds those that are pending. -/
structure Ahead (s : Store) (pending : List (SourceId × String)) (t : Store) : Prop where
  sources : t.sources = s.sources
  taken : ∀ owner name, (t.fieldNamed? owner name).isSome =
    ((s.fieldNamed? owner name).isSome || pending.contains (owner, name))

theorem Ahead.refl (s : Store) : Ahead s [] s := ⟨rfl, by simp⟩

/-- What is pending for the one store is written in the other: the check comes out the same. -/
theorem Ahead.checkAmendment (h : Ahead s pending t) (m : Amendment) :
    t.checkAmendment [] m = s.checkAmendment pending m := by
  have hsource : t.sourceNamed? m.owner = s.sourceNamed? m.owner := by
    rw [sourceNamed?, sourceNamed?, h.sources]
  simp only [Store.checkAmendment, hsource, h.taken, List.contains_nil, Bool.or_false]

theorem Ahead.push (h : Ahead s pending t) (owner : SourceId) (d : FieldDef) (revision : Nat) :
    Ahead s (pending ++ [(owner, d.name)]) { t.push owner d with revision := revision } := by
  refine ⟨h.sources, fun o n => ?_⟩
  have hfound : ((t.push owner d).fieldNamed? o n).isSome =
      ((t.fieldNamed? o n).isSome || (owner == o && d.name == n)) := by
    rw [fieldNamed?, Store.push, List.find?_append, Option.isSome_or, List.find?_singleton]
    by_cases hnew : (owner == o && d.name == n) = true <;> simp only [hnew] <;> rfl
  have hpair : [(owner, d.name)].contains (o, n) = (owner == o && d.name == n) := by
    rw [List.contains_cons, List.contains_nil, Bool.or_false, Bool.beq_comm]
    rfl
  have hnext : (fieldNamed? { t.push owner d with revision := revision } o n) =
      (t.push owner d).fieldNamed? o n := rfl
  rw [hnext, hfound, h.taken, List.contains_append, hpair, Bool.or_assoc]

theorem pushAll_withRevision (fields : List (SourceId × FieldDef)) (revision : Nat) :
    ({ s with revision := revision } : Store).pushAll fields =
      { s.pushAll fields with revision := revision } := by
  induction fields generalizing s with
  | nil => rfl
  | cons x fields ih => exact ih (s := s.push x.1 x.2)

theorem numbers_succ (n k : Nat) :
    (List.range (k + 1)).map (n + ·) = n :: (List.range k).map (n + 1 + ·) := by
  rw [List.range_succ_eq_map, List.map_cons, List.map_map]
  refine congrArg (n :: ·) (List.map_congr_left fun i _ => ?_)
  show n + (i + 1) = n + 1 + i
  omega

/-- One by one, the amendments pass just if they pass as a batch, with the same errors and the same
fields. -/
theorem Ahead.addFields (h : Ahead s pending t) (ms : List Amendment) :
    t.addFields ms = (s.checkAll pending ms).map fun fields =>
      ((List.range fields.length).map (t.fields.length + ·),
        { t.pushAll fields with revision := t.revision + fields.length }) := by
  induction ms generalizing t pending with
  | nil => rfl
  | cons m ms ih =>
    have hcheck : t.checkAmendment [] ⟨m.owner, m.field⟩ = s.checkAmendment pending m :=
      h.checkAmendment m
    rw [Store.addFields, addField, checkAll, hcheck]
    cases s.checkAmendment pending m with
    | error e => rfl
    | ok owner =>
      show (Store.addFields { t.push owner m.field with revision := t.revision + 1 } ms >>= fun out =>
          .ok (t.fields.length :: out.1, out.2)) =
        (s.checkAll (pending ++ [(owner, m.field.name)]) ms >>= fun rest =>
          .ok ((owner, m.field) :: rest)).map _
      rw [ih (h.push owner m.field _)]
      cases s.checkAll (pending ++ [(owner, m.field.name)]) ms with
      | error e => rfl
      | ok fields =>
        have hlength : (t.push owner m.field).fields.length = t.fields.length + 1 := by simp [Store.push]
        have hpush : t.pushAll ((owner, m.field) :: fields) = (t.push owner m.field).pushAll fields := rfl
        show Except.ok (_, _) = Except.ok (_, _)
        simp only [hlength, hpush, pushAll_withRevision, numbers_succ, List.length_cons,
          Nat.add_assoc, Nat.add_comm 1]

/-- **A batch does what its amendments do one by one**, but that it counts as one revision. -/
theorem apply_eq_addFields (s : Store) (ms : List Amendment) :
    s.apply ms = (s.addFields ms).map fun (ids, t) => (ids, t.afterBatch s.revision ms) := by
  rw [(Ahead.refl s).addFields]
  cases hms : s.checkAll [] ms with
  | error e =>
    rw [apply, hms]
    rfl
  | ok fields =>
    obtain ⟨t, happly⟩ : ∃ t, s.apply ms =
        .ok ((List.range fields.length).map (s.fields.length + ·), t) := by
      rw [apply, hms]
      exact ⟨_, rfl⟩
    obtain ⟨fields', hms', hbatch⟩ := apply_eq_ok happly
    obtain rfl := Except.ok.inj (hms.symm.trans hms')
    rw [happly, hbatch]
    rfl

end Store

namespace Arena

/-- Adds the field of each amendment in turn, up to the first that is refused. What is written before
that one stays written. -/
def addFields : List Amendment → Edit (List FieldId)
  | [] => return []
  | m :: ms => do
    let id ← addField m.owner m.field
    return id :: (← addFields ms)

/-- The arenas have the same sources and fields, and find the same names. -/
structure Alike (a b : Arena) : Prop where
  sources : a.sources = b.sources
  fields : a.fields = b.fields
  index : ∀ name, a.sourceId? name = b.sourceId? name

variable {a b : Arena} {s t : Store}

/-- Sources and fields have one way to be linked. -/
theorem Links.sources_eq (ha : Links a s) (hb : Links b t) (hsources : s.sources = t.sources)
    (hfields : s.fields = t.fields) : a.sources = b.sources := by
  refine List.ext_getElem? fun i => ?_
  have hsame : (a.sources[i]?).map (·.toSource) = (b.sources[i]?).map (·.toSource) := by
    rw [← List.getElem?_map, ← List.getElem?_map, ha.sources, hb.sources, hsources]
  cases hx : a.sources[i]? with
  | none =>
    rw [hx, Option.map_none] at hsame
    exact (Option.map_eq_none_iff.mp hsame.symm).symm
  | some x =>
    rw [hx, Option.map_some] at hsame
    obtain ⟨y, hy, htoSource⟩ := Option.map_eq_some_iff.mp hsame.symm
    have hlists : x.fields = y.fields := by
      rw [ha.lists i x hx, hb.lists i y hy, Store.fieldsOf, Store.fieldsOf, hfields]
    obtain ⟨source, fields⟩ := x
    rw [hy]
    cases y
    cases htoSource; cases hlists
    rfl

theorem StandsFor.alike (ha : StandsFor a s) (hb : StandsFor b t) (hsources : s.sources = t.sources)
    (hfields : s.fields = t.fields) : Alike a b := by
  refine ⟨ha.sources_eq hb.toLinks hsources hfields, ?_, fun name => ?_⟩
  · rw [ha.fields, hb.fields, hfields]
  · rw [ha.index, hb.index, Store.sourceNamed?, Store.sourceNamed?, hsources]

/-- One by one, fields come in as in the store, or fail with the same error. -/
theorem addFields_run (h : StandsFor a s) (hs : s.Coherent) (ms : List Amendment) :
    match s.addFields ms with
    | .ok (ids, t) => ∃ b, (addFields ms).run a = .ok ids b ∧ StandsFor b t
    | .error e => ∃ b, (addFields ms).run a = .error e b := by
  induction ms generalizing a s with
  | nil => exact ⟨a, rfl, h⟩
  | cons m ms ih =>
    have hfirst := addField_does h hs m.owner m.field
    simp only [addFields, Store.addFields, EStateM.run_bind]
    cases hm : s.addField m.owner m.field with
    | error e =>
      rw [hm] at hfirst
      rw [show (addField m.owner m.field).run a = .error e a from hfirst]
      exact ⟨a, rfl⟩
    | ok out =>
      obtain ⟨id, t⟩ := out
      rw [hm] at hfirst
      obtain ⟨b, hb, hstands⟩ := hfirst
      have ht : s.perform (.addField m.owner m.field) = .ok t := by
        rw [Store.perform, hm]
        rfl
      have hrest := ih hstands (hs.perform ht)
      rw [hb]
      show match (t.addFields ms >>= fun out => Except.ok (id :: out.1, out.2)) with
        | .ok (ids, u) => _
        | .error e => _
      cases hms : t.addFields ms with
      | error e =>
        rw [hms] at hrest
        obtain ⟨c, hc⟩ := hrest
        exact ⟨c, by simp only [hc]⟩
      | ok out =>
        rw [hms] at hrest
        obtain ⟨c, hc, hstands⟩ := hrest
        refine ⟨c, ?_, hstands⟩
        simp only [hc]
        rfl

/-- A batch does what its amendments do one by one, but that it writes nothing if one of them fails, and
counts as one revision. -/
theorem apply_run (h : StandsFor a s) (hs : s.Coherent) (ms : List Amendment) :
    match (addFields ms).run a with
    | .ok ids b => ∃ c t, (apply ms).run a = .ok ids c ∧ s.apply ms = .ok (ids, t) ∧ StandsFor c t ∧
        c.Alike b ∧ c.revision = a.revision + if ms = [] then 0 else 1
    | .error e _ => (apply ms).run a = .error e a ∧ s.apply ms = .error e := by
  have heach := addFields_run h hs ms
  have hwhole := apply_does h hs ms
  have hbatch := s.apply_eq_addFields ms
  cases hms : s.addFields ms with
  | error e =>
    rw [hms] at heach hbatch
    obtain ⟨b, hb⟩ := heach
    have herror : s.apply ms = .error e := hbatch
    rw [herror] at hwhole
    rw [hb]
    exact ⟨hwhole, herror⟩
  | ok out =>
    obtain ⟨ids, t⟩ := out
    rw [hms] at heach hbatch
    obtain ⟨b, hb, hstands⟩ := heach
    have hok : s.apply ms = .ok (ids, t.afterBatch s.revision ms) := hbatch
    rw [hok] at hwhole
    obtain ⟨c, hc, hstands'⟩ := hwhole
    rw [hb]
    refine ⟨c, _, hc, hok, hstands', hstands'.alike hstands rfl rfl, ?_⟩
    rw [hstands'.revision, h.revision]
    rfl

end Arena

/-- A session whose model is linked structures. -/
structure LinkedSession where
  arena : Arena
  planCache : Bool
  plans : List (String × Compiled)
  count : Nat

/-- Applies amendments as one, in place. The plans are dropped once the model has changed. -/
def LinkedSession.amend (amendments : List Amendment) :
    EStateM ModelError LinkedSession (List FieldId) := fun l =>
  match (Arena.apply amendments).run l.arena with
  | .ok ids arena => .ok ids { l with arena, plans := [] }
  | .error e arena => .error e { l with arena }

theorem LinkedSession.amend_run (l : LinkedSession) (amendments : List Amendment) :
    (amend amendments).run l = match (Arena.apply amendments).run l.arena with
      | .ok ids arena => .ok ids { l with arena, plans := [] }
      | .error e arena => .error e { l with arena } := rfl

/-- **A batch is applied as a whole or not at all**, whatever operations have built the model. It does
what its amendments do one by one, on a copy: if all of them succeed, it gives the same numbers and
leaves the same sources, fields and names, and the next revision, or the same one if it is empty; if not,
it gives the error of the first that fails, and leaves the model as it was, and the plans of a session on
it. -/
theorem Arena.apply_atomic (ops : List Operation) (ms : List Amendment) (planCache : Bool)
    (plans : List (String × Compiled)) (count : Nat) :
    let s := ops.foldl Store.attempt .empty
    let a := ops.foldl Arena.attempt .empty
    let session : Session := ⟨s, planCache, plans, count⟩
    let linked : LinkedSession := ⟨a, planCache, plans, count⟩
    StandsFor a s ∧
    s.apply ms = (s.addFields ms).map (fun (ids, t) => (ids, t.afterBatch s.revision ms)) ∧
    match (addFields ms).run a with
    | .ok ids b =>
      ∃ c t, (apply ms).run a = .ok ids c ∧ StandsFor c t ∧ c.Alike b ∧
        c.revision = a.revision + (if ms = [] then 0 else 1) ∧
        session.amend ms = .ok (ids, ⟨t, planCache, [], count⟩) ∧
        (LinkedSession.amend ms).run linked = .ok ids ⟨c, planCache, [], count⟩
    | .error e _ =>
      (apply ms).run a = .error e a ∧ session.amend ms = .error e ∧
        (LinkedSession.amend ms).run linked = .error e linked := by
  intro s a session linked
  have hs : s.Coherent := (Store.Reachable.empty.attempts ops).coherent
  have h : StandsFor a s := standsFor_empty.attempts .empty ops
  refine ⟨h, s.apply_eq_addFields ms, ?_⟩
  have hrun := apply_run h hs ms
  cases heach : (addFields ms).run a with
  | error e b =>
    rw [heach] at hrun
    obtain ⟨happly, herror⟩ := hrun
    refine ⟨happly, ?_, ?_⟩
    · rw [Session.amend, herror]
      rfl
    · rw [linked.amend_run, happly]
  | ok ids b =>
    rw [heach] at hrun
    obtain ⟨c, t, happly, hok, hstands, halike, hrevision⟩ := hrun
    refine ⟨c, t, happly, hstands, halike, hrevision, ?_, ?_⟩
    · rw [Session.amend, hok]
      rfl
    · rw [linked.amend_run, happly]

end Joinery
