/-
What the items of a request ask for: chains of fields of the store.

A key ends where its path ends, or one join further, at a primary key
(`keyEnd_chain`). The chain of an aggregate is made of resolved paths, and of
the join that it counts (`aggregateEnd_fields`).
-/
import Joinery.Plan.Compile
import Joinery.Proofs.Resolution

namespace Joinery.Store

variable {s : Store}

theorem resolveRequested_eq_ok {start : Source} {path : Path} {r : Resolved}
    (h : s.resolveRequested start path = .ok r) : s.resolveFrom start path = .ok r :=
  mapError_eq_ok_iff.mp h

theorem keyEnd_chain {path : Path} {r : Resolved} {e : KeyEnd} (h : s.keyEnd path r = .ok e) :
    e.chain = r.joins ∨ e.chain = r.joins ++ [r.field] := by
  simp only [keyEnd] at h
  split at h
  · cases h; exact .inl rfl
  · cases h
  · split at h
    · cases h
    · split at h
      · cases h
      · cases h; exact .inr rfl

theorem keyEnd_fields {start : Source} {path : Path} {r : Resolved} {e : KeyEnd}
    (hr : s.resolveRequested start path = .ok r) (he : s.keyEnd path r = .ok e) :
    ∀ f ∈ e.chain, f ∈ s.fields := by
  obtain ⟨hj, hf, _⟩ := resolveFrom_fields (resolveRequested_eq_ok hr)
  intro f hfe
  rcases keyEnd_chain he with hc | hc <;> rw [hc] at hfe
  · exact hj f hfe
  · rcases List.mem_append.mp hfe with hfe | hfe
    · exact hj f hfe
    · exact List.mem_singleton.mp hfe ▸ hf

theorem appliedEnd_fields {request : AggregateRequest} {path : Path} {op : Operator}
    {joins : List Field} {f : Field} {e : AggregateEnd}
    (h : s.appliedEnd request path op joins f = .ok e) (hj : ∀ g ∈ joins, g ∈ s.fields)
    (hf : f ∈ s.fields) : ∀ g ∈ e.chain, g ∈ s.fields := by
  simp only [appliedEnd] at h
  split at h
  · cases h; exact hj
  · cases h
  · split at h
    · split at h
      · cases h
      · cases h
        intro g hg
        rcases List.mem_append.mp hg with hg | hg
        · exact hj g hg
        · exact List.mem_singleton.mp hg ▸ hf
    · cases h

theorem rowsEnd_chain {request : AggregateRequest} {op : Operator} {joins : List Field}
    {e : AggregateEnd} (h : rowsEnd request op joins = .ok e) : e.chain = joins := by
  simp only [rowsEnd] at h
  split at h
  · cases h; rfl
  · cases h

theorem definedEnd_fields {request : AggregateRequest} {path : Path} {r : Resolved}
    {e : AggregateEnd} (h : s.definedEnd request path r = .ok e) (hj : ∀ g ∈ r.joins, g ∈ s.fields) :
    ∀ g ∈ e.chain, g ∈ s.fields := by
  simp only [definedEnd] at h
  split at h
  · cases h
  next definition _ =>
  split at h
  · simp only [bind_eq_ok_iff, pure_eq_ok_iff] at h
    obtain ⟨e', he', rfl⟩ := h
    exact rowsEnd_chain he' ▸ hj
  · simp only [bind_eq_ok_iff, pure_eq_ok_iff, mapError_eq_ok_iff] at h
    obtain ⟨i, hi, e', he', rfl⟩ := h
    obtain ⟨hij, hif, _⟩ := resolveFrom_fields hi
    have hc := appliedEnd_fields he' (fun g hg => (List.mem_append.mp hg).elim (hj g) (hij g)) hif
    exact hc

theorem aggregateEnd_fields {start : Source} {request : AggregateRequest} {e : AggregateEnd}
    (h : s.aggregateEnd start request = .ok e) : ∀ f ∈ e.chain, f ∈ s.fields := by
  simp only [aggregateEnd] at h
  split at h
  · cases h
  · rw [rowsEnd_chain h]; simp
  · obtain ⟨r, hr, he⟩ := bind_eq_ok_iff.mp h
    obtain ⟨hj, hf, _⟩ := resolveFrom_fields (resolveRequested_eq_ok hr)
    exact appliedEnd_fields he hj hf
  · obtain ⟨r, hr, he⟩ := bind_eq_ok_iff.mp h
    obtain ⟨hj, _, _⟩ := resolveFrom_fields (resolveRequested_eq_ok hr)
    exact definedEnd_fields he hj

end Joinery.Store
