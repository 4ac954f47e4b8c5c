/-
Where the joins of a path lead.

A path that resolves has joins each of which is a field of the source that the
ones before it have led to (`Leads`), and ends at a field of the source that all
of them lead to. So do the items of a stage, and what an aggregate is applied to
is the rows or a scalar field there (`stageItems_leads`).
-/
import Joinery.Proofs.Plan.Stage

namespace Joinery.Store

variable {s : Store} {derive : Derive} {start : Source}

/-! ## Where joins lead -/

/-- The joins lead from one source to another: each is a field of the source that the ones before
it have led to. -/
def Leads (s : Store) : Source → List Field → Source → Prop
  | here, [], there => here = there
  | here, f :: fs, there =>
    s.fieldNamed? here.id f.name = some f ∧ ∃ next, s.target? f = some next ∧ s.Leads next fs there

theorem leads_append_iff {fs gs : List Field} {here there : Source} :
    s.Leads here (fs ++ gs) there ↔ ∃ mid, s.Leads here fs mid ∧ s.Leads mid gs there := by
  induction fs generalizing here with
  | nil => simp [Leads]
  | cons f fs ih =>
    simp only [List.cons_append, Leads, ih]
    constructor
    · rintro ⟨ho, next, hn, mid, hf, hg⟩
      exact ⟨mid, ⟨ho, next, hn, hf⟩, hg⟩
    · rintro ⟨mid, ⟨ho, next, hn, hf⟩, hg⟩
      exact ⟨ho, next, hn, mid, hf, hg⟩

theorem leads_concat_iff {fs : List Field} {f : Field} {here there : Source} :
    s.Leads here (fs ++ [f]) there ↔
      ∃ mid, s.Leads here fs mid ∧ s.fieldNamed? mid.id f.name = some f ∧
        s.target? f = some there := by
  simp [leads_append_iff, Leads]

theorem Leads.stands (hs : s.Coherent) : ∀ {fs : List Field} {here there : Source},
    s.Leads here fs there → s.Stands fs
  | [], _, _, _ => nofun
  | _ :: _, _, _, ⟨hf, _, _, hrest⟩ =>
    List.forall_mem_cons.mpr ⟨hs.field?_id (fieldNamed?_mem hf), Leads.stands hs hrest⟩

theorem Leads.target : ∀ {fs : List Field} {here there : Source}, s.Leads here fs there →
    ∀ f ∈ fs, ∃ target, s.target? f = some target
  | [], _, _, _ => nofun
  | _ :: _, _, _, ⟨_, next, ht, hrest⟩ => List.forall_mem_cons.mpr ⟨⟨next, ht⟩, hrest.target⟩

/-- The joins of a path that resolves lead to the source of its field. -/
theorem walk_leads : ∀ {segments : List String} {here : Source} {position : Nat} {r : Resolved},
    s.walk here position segments = .ok r →
    s.Leads here r.joins r.source ∧ s.fieldNamed? r.source.id r.field.name = some r.field
  | [], _, _, _, h => nomatch h
  | [final], _, _, _, h => by
    simp only [walk, bind_eq_ok_iff, pure_eq_ok_iff] at h
    obtain ⟨f, hf, rfl⟩ := h
    exact ⟨rfl, fieldNamed?_self (lookup_eq_ok hf)⟩
  | segment :: next :: rest, _, _, _, h => by
    simp only [walk, bind_eq_ok_iff, pure_eq_ok_iff] at h
    obtain ⟨f, hf, target, ht, r, hr, rfl⟩ := h
    obtain ⟨hleads, hfield⟩ := walk_leads hr
    exact ⟨⟨fieldNamed?_self (lookup_eq_ok hf), target, follow_eq_ok ht, hleads⟩, hfield⟩

theorem resolveFrom_leads {path : Path} {r : Resolved} (h : s.resolveFrom start path = .ok r) :
    s.Leads start r.joins r.source ∧ s.fieldNamed? r.source.id r.field.name = some r.field := by
  simp only [resolveFrom] at h
  split at h
  · exact walk_leads h
  · exact walk_leads h

/-! ## Ends -/

/-- A scalar field of a source. -/
def HasScalar (s : Store) (source : Source) (name : String) : Prop :=
  ∃ f, s.fieldNamed? source.id name = some f ∧ f.kind = .scalar

/-- A key that leads to a field of its source: the scalar field that its path ends at or, if the path
ends at a join, the primary key of the target. -/
structure KeyLeads (s : Store) (start : Source) (k : KeyItem) : Prop where
  chain : s.Leads start k.chain k.source
  field : s.fieldNamed? k.source.id k.field.name = some k.field
  ending : ∃ r, s.resolveFrom start k.path = .ok r ∧
    (k.chain = r.joins ∧ k.field = r.field ∧ k.field.kind = .scalar ∨
      k.chain = r.joins ++ [r.field] ∧ s.target? r.field = some k.source ∧
        k.source.primaryKey = some k.field.name)

theorem keyEnd_leads {path : Path} {r : Resolved} {e : KeyEnd} (hr : s.resolveFrom start path = .ok r)
    (he : s.keyEnd path r = .ok e) (name : String) : s.KeyLeads start ⟨name, path, e.chain, e.field, e.source⟩ := by
  obtain ⟨hleads, hfield⟩ := resolveFrom_leads hr
  unfold keyEnd at he
  split at he
  · next hk =>
    cases he
    exact ⟨hleads, hfield, r, hr, .inl ⟨rfl, rfl, hk⟩⟩
  · cases he
  · next join hk =>
    split at he
    · cases he
    next target ht =>
    split at he
    · cases he
    next key hkey =>
    cases he
    obtain ⟨name, hp, hf⟩ := Option.bind_eq_some_iff.mp hkey
    have htarget : s.target? r.field = some target := by
      simp only [target?, hk, FieldKind.join?, Option.bind_eq_bind, Option.bind_some, ht]
    have hprimary : target.primaryKey = some key.name := by
      rw [(fieldNamed?_owner hf).2, hp]
    exact ⟨leads_concat_iff.mpr ⟨r.source, hleads, hfield, htarget⟩, fieldNamed?_self hf, r, hr,
      .inr ⟨rfl, htarget, hprimary⟩⟩

theorem keyItem_leads {path : Path} {k : KeyItem} (h : s.keyItem derive start path = .ok k) :
    s.KeyLeads start k := by
  simp only [keyItem, bind_eq_ok_iff, pure_eq_ok_iff] at h
  obtain ⟨r, hr, _, _, e, he, _, _, rfl⟩ := h
  exact keyEnd_leads (resolveRequested_eq_ok hr) he _

/-- An end that leads to a source, where its column is a scalar field. -/
def EndsAt (s : Store) (start : Source) (e : AggregateEnd) : Prop :=
  ∃ source, s.Leads start e.chain source ∧ ∀ name, e.column = some name → s.HasScalar source name

theorem appliedEnd_leads {request : AggregateRequest} {path : Path} {op : Operator}
    {joins : List Field} {source : Source} {f : Field} {e : AggregateEnd}
    (h : s.appliedEnd request path op joins f = .ok e) (hj : s.Leads start joins source)
    (hf : s.fieldNamed? source.id f.name = some f) : s.EndsAt start e := by
  unfold appliedEnd at h
  split at h
  · next hk =>
    cases h
    refine ⟨source, hj, fun name hname => ?_⟩
    cases hname
    exact ⟨f, hf, hk⟩
  · cases h
  · split at h
    · split at h
      · cases h
      next target ht =>
      cases h
      exact ⟨target, leads_concat_iff.mpr ⟨source, hj, hf, ht⟩, nofun⟩
    · cases h

theorem rowsEnd_leads {request : AggregateRequest} {op : Operator} {joins : List Field}
    {source : Source} {e : AggregateEnd} (h : rowsEnd request op joins = .ok e)
    (hj : s.Leads start joins source) : s.EndsAt start e := by
  unfold rowsEnd at h
  split at h
  · cases h; exact ⟨source, hj, nofun⟩
  · cases h

theorem definedEnd_leads {request : AggregateRequest} {path : Path} {r : Resolved} {e : AggregateEnd}
    (h : s.definedEnd request path r = .ok e) (hj : s.Leads start r.joins r.source) :
    s.EndsAt start e := by
  unfold definedEnd at h
  split at h
  · cases h
  split at h
  · simp only [bind_eq_ok_iff, pure_eq_ok_iff] at h
    obtain ⟨e, he, rfl⟩ := h
    obtain ⟨source, hleads, hcolumn⟩ := rowsEnd_leads he hj
    exact ⟨source, hleads, hcolumn⟩
  · simp only [bind_eq_ok_iff, pure_eq_ok_iff, mapError_eq_ok_iff] at h
    obtain ⟨i, hi, e, he, rfl⟩ := h
    obtain ⟨hleads, hfield⟩ := resolveFrom_leads hi
    obtain ⟨source, hleads, hcolumn⟩ :=
      appliedEnd_leads he (leads_append_iff.mpr ⟨r.source, hj, hleads⟩) hfield
    exact ⟨source, hleads, hcolumn⟩

theorem aggregateEnd_leads {request : AggregateRequest} {e : AggregateEnd}
    (h : s.aggregateEnd start request = .ok e) : s.EndsAt start e := by
  unfold aggregateEnd at h
  split at h
  · cases h
  · have hself : s.Leads start [] start := rfl
    exact rowsEnd_leads h hself
  · obtain ⟨r, hr, he⟩ := bind_eq_ok_iff.mp h
    obtain ⟨hleads, hfield⟩ := resolveFrom_leads (resolveRequested_eq_ok hr)
    exact appliedEnd_leads he hleads hfield
  · obtain ⟨r, hr, he⟩ := bind_eq_ok_iff.mp h
    exact definedEnd_leads he (resolveFrom_leads (resolveRequested_eq_ok hr)).1

theorem aggregateItem_leads {request : AggregateRequest} {i : AggregateItem}
    (h : s.aggregateItem derive start request = .ok i) : s.EndsAt start i.ending := by
  simp only [aggregateItem, bind_eq_ok_iff, pure_eq_ok_iff] at h
  obtain ⟨e, he, _, _, rfl⟩ := h
  exact aggregateEnd_leads he

/-! ## Items -/

/-- Items that lead somewhere from the start, to fields there. -/
structure LeadsItems (s : Store) (start : Source) (items : StageItems) : Prop where
  keys : ∀ k ∈ items.keys, s.KeyLeads start k
  aggregates : ∀ i ∈ items.aggregates, s.EndsAt start i.ending

theorem stageItems_leads {stage : Stage} {items : StageItems}
    (h : s.stageItems derive start stage = .ok items) : s.LeadsItems start items := by
  obtain ⟨-, hkeys, haggregates, -⟩ := stageItems_eq_ok_iff.mp h
  refine ⟨fun k hk => ?_, fun i hi => ?_⟩
  · obtain ⟨path, -, hpath⟩ := forall₂_mem hkeys.flip hk
    exact keyItem_leads hpath
  · obtain ⟨request, -, hrequest⟩ := forall₂_mem haggregates.flip hi
    exact aggregateItem_leads hrequest

end Joinery.Store
