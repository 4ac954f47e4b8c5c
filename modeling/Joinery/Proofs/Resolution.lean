/-
What a path that resolves is made of: fields of the store, at least one segment.
-/
import Joinery.Proofs.Store.Reachable
import Joinery.Resolution

namespace Joinery.Store

variable {s : Store}

theorem lookup_eq_ok {here : Source} {segment : String} {position : Nat} {f : Field}
    (h : s.lookup here segment position = .ok f) : s.fieldNamed? here.id segment = some f := by
  simp only [lookup] at h
  split at h
  · next g hg => cases h; exact hg
  · cases h

theorem follow_eq_ok {here target : Source} {f : Field} (h : s.follow here f = .ok target) :
    s.target? f = some target := by
  simp only [follow] at h
  split at h
  · cases h
  next join hj =>
  split at h
  · next t ht => cases h; exact Option.bind_eq_some_iff.mpr ⟨join, hj, ht⟩
  · cases h

theorem walk_fields : ∀ {segments : List String} {here : Source} {position : Nat} {r : Resolved},
    s.walk here position segments = .ok r →
    (∀ f ∈ r.joins, f ∈ s.fields) ∧ r.field ∈ s.fields ∧ segments ≠ []
  | [], _, _, _, h => nomatch h
  | [final], _, _, _, h => by
    simp only [walk, bind_eq_ok_iff, pure_eq_ok_iff] at h
    obtain ⟨f, hf, rfl⟩ := h
    exact ⟨by simp, fieldNamed?_mem (lookup_eq_ok hf), by simp⟩
  | segment :: next :: rest, _, _, _, h => by
    simp only [walk, bind_eq_ok_iff, pure_eq_ok_iff] at h
    obtain ⟨f, hf, target, _, r, hr, rfl⟩ := h
    obtain ⟨hj, hfield, _⟩ := walk_fields hr
    refine ⟨fun g hg => ?_, hfield, by simp⟩
    rcases List.mem_cons.mp hg with rfl | hg
    · exact fieldNamed?_mem (lookup_eq_ok hf)
    · exact hj g hg

theorem resolveFrom_fields {start : Source} {path : Path} {r : Resolved}
    (h : s.resolveFrom start path = .ok r) :
    (∀ f ∈ r.joins, f ∈ s.fields) ∧ r.field ∈ s.fields ∧ path.segments ≠ [] := by
  simp only [resolveFrom] at h
  split at h
  · obtain ⟨hj, hf, hne⟩ := walk_fields h
    exact ⟨hj, hf, fun he => hne (by simp [he])⟩
  · exact walk_fields h

theorem resolveFrom_field {here : Source} {name : String} {f : Field}
    (h : s.fieldNamed? here.id name = some f) : s.resolveFrom here ⟨[name]⟩ = .ok ⟨[], here, f⟩ := by
  have hlookup : s.lookup here name 0 = .ok f := by
    rw [lookup, h]
  simp only [resolveFrom, isQualified, walk, hlookup]
  rfl

theorem walk_source : ∀ {segments : List String} {here : Source} {position : Nat} {r : Resolved},
    here ∈ s.sources → s.walk here position segments = .ok r → r.source ∈ s.sources
  | [], _, _, _, _, h => nomatch h
  | [final], _, _, _, hs, h => by
    simp only [walk, bind_eq_ok_iff, pure_eq_ok_iff] at h
    obtain ⟨f, _, rfl⟩ := h
    exact hs
  | segment :: next :: rest, _, _, _, _, h => by
    simp only [walk, bind_eq_ok_iff, pure_eq_ok_iff] at h
    obtain ⟨f, _, target, ht, r, hr, rfl⟩ := h
    obtain ⟨join, _, hj⟩ := target?_eq_some (follow_eq_ok ht)
    have := walk_source (sourceNamed?_mem hj) hr
    exact this

theorem resolveFrom_source {start : Source} {path : Path} {r : Resolved} (hs : start ∈ s.sources)
    (h : s.resolveFrom start path = .ok r) : r.source ∈ s.sources := by
  simp only [resolveFrom] at h
  split at h
  · exact walk_source hs h
  · exact walk_source hs h

end Joinery.Store
