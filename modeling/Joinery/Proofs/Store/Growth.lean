/-
Stores that grow.

Sources and fields come in at the end, so what a look-up finds it still finds
later. What it does not find may appear; resolving asks for the absence of a
field in one place only, when a path starts with the name of its source. A store
extends another if it has its sources and fields at the front, and no field of
that one kind has appeared on an old source (`Extends`); operations that add no
such field lead to extensions (`Coherent.extends_perform`).
-/
import Joinery.Proofs.Store.Reachable

namespace Joinery

/-- Does an operation give a source that is defined a field of the source's own name? -/
def Operation.Shadows (op : Operation) : Prop := ∃ a ∈ op.amendments, a.field.name = a.owner

namespace Store

/-- One store is the beginning of another, and no source of it has newly got a field of the
source's own name. -/
structure Extends (s t : Store) : Prop where
  sources : s.sources <+: t.sources
  fields : s.fields <+: t.fields
  unshadowed : ∀ source ∈ s.sources, s.fieldNamed? source.id source.name = none →
    t.fieldNamed? source.id source.name = none

/-- The stores that operations without shadowing lead to. -/
inductive Grows : Store → Store → Prop
  | refl {s : Store} : Grows s s
  | step {s t u : Store} {op : Operation} : Grows s t → ¬ op.Shadows → t.perform op = .ok u → Grows s u

theorem find?_of_prefix {α : Type} {p : α → Bool} {l m : List α} {a : α} (h : l <+: m)
    (ha : l.find? p = some a) : m.find? p = some a := by
  obtain ⟨r, rfl⟩ := h
  simp [List.find?_append, ha]

namespace Extends

variable {s t u : Store}

theorem refl (s : Store) : Extends s s :=
  ⟨List.prefix_refl _, List.prefix_refl _, fun _ _ h => h⟩

theorem trans (h : Extends s t) (g : Extends t u) : Extends s u :=
  ⟨h.sources.trans g.sources, h.fields.trans g.fields, fun source hs hn =>
    g.unshadowed source (h.sources.subset hs) (h.unshadowed source hs hn)⟩

theorem sourceNamed? (h : Extends s t) {name : String} {source : Source}
    (hs : s.sourceNamed? name = some source) : t.sourceNamed? name = some source :=
  find?_of_prefix h.sources hs

theorem fieldNamed? (h : Extends s t) {owner : SourceId} {name : String} {f : Field}
    (hf : s.fieldNamed? owner name = some f) : t.fieldNamed? owner name = some f :=
  find?_of_prefix h.fields hf

theorem target? (h : Extends s t) {f : Field} {target : Source} (ht : s.target? f = some target) :
    t.target? f = some target := by
  obtain ⟨join, hj, hs⟩ := Option.bind_eq_some_iff.mp ht
  exact Option.bind_eq_some_iff.mpr ⟨join, hj, h.sourceNamed? hs⟩

theorem sourceName (h : Extends s t) {id : SourceId} (hid : id < s.sources.length) :
    t.sourceName id = s.sourceName id := by
  obtain ⟨r, hr⟩ := h.sources
  simp only [Store.sourceName, Store.source?, ← hr, List.getElem?_append_left hid]

end Extends

/-! ## Operations extend -/

theorem fieldNamed?_pushAll {s : Store} {owner : SourceId} {name : String}
    {fields : List (SourceId × FieldDef)} (h : s.fieldNamed? owner name = none)
    (hf : ∀ x ∈ fields, ¬ (x.1 = owner ∧ x.2.name = name)) :
    (s.pushAll fields).fieldNamed? owner name = none := by
  induction fields generalizing s with
  | nil => exact h
  | cons x fields ih =>
    refine ih ?_ fun y hy => hf y (List.mem_cons_of_mem x hy)
    have hx := hf x (by simp)
    simp only [fieldNamed?, push, List.find?_append, Option.or_eq_none_iff] at h ⊢
    exact ⟨h, by simpa [List.find?_eq_none] using hx⟩

theorem pushAll_fields (s : Store) (fields : List (SourceId × FieldDef)) :
    s.fields <+: (s.pushAll fields).fields := by
  induction fields generalizing s with
  | nil => exact List.prefix_refl _
  | cons x fields ih => exact (List.prefix_append _ _).trans (ih (s.push x.1 x.2))

/-- Amending an old source with fields of other names, or defining a new one, extends a store. -/
theorem Coherent.extends_perform {s t : Store} (h : s.Coherent) {op : Operation}
    (ht : s.perform op = .ok t) (hop : ¬ op.Shadows) : Extends s t := by
  rcases perform_cases ht with ⟨name, fields, key, query, _, -, rfl⟩ | ⟨fields, hc, rfl⟩
  · refine ⟨?_, ?_, fun source hs hn => ?_⟩
    · simp [Store.openSource]
    · exact pushAll_fields (s.openSource name key query) _
    · refine fieldNamed?_pushAll (s := s.openSource name key query) hn fun x hx hsame => ?_
      obtain ⟨hid, -⟩ := hsame
      obtain ⟨d, _, rfl⟩ := List.mem_map.mp hx
      exact Nat.lt_irrefl _ (hid ▸ h.lt_of_mem hs)
  · refine ⟨?_, ?_, fun source hs hn => ?_⟩
    · simp
    · exact pushAll_fields s fields
    · refine fieldNamed?_pushAll hn fun x hx hsame => ?_
      obtain ⟨hid, hname⟩ := hsame
      obtain ⟨a, ha, owner, ho, rfl, _⟩ := checkAll_eq_ok hc x hx
      -- The owner has the number of the source, so it is the source.
      cases h.source_ext (sourceNamed?_mem ho) hs hid
      exact hop ⟨a, ha, hname.trans (sourceNamed?_name ho)⟩

theorem Grows.attempts {s t : Store} (h : Grows s t) : ∀ {ops : List Operation},
    (∀ op ∈ ops, ¬ op.Shadows) → Grows s (ops.foldl attempt t)
  | [], _ => h
  | op :: ops, hops => by
    refine Grows.attempts (t := t.attempt op) ?_ fun o ho => hops o (List.mem_cons_of_mem op ho)
    simp only [Store.attempt]
    split
    · next u hu => exact h.step (hops op (by simp)) hu
    · exact h

theorem Grows.coherent {s t : Store} (h : Grows s t) (hs : s.Coherent) : t.Coherent := by
  induction h with
  | refl => exact hs
  | step _ _ ht ih => exact ih.perform ht

theorem Grows.extends {s t : Store} (h : Grows s t) (hs : s.Coherent) : Extends s t := by
  induction h with
  | refl => exact Extends.refl s
  | step hg hop ht ih => exact ih.trans ((hg.coherent hs).extends_perform ht hop)

end Store

end Joinery
