/-
Tables that come in: the table of a name is the last one that came in under it
(`get_insert_self`), and those of other names stay (`get_insert_other`).
-/
import Joinery.Relation
import Mathlib.Data.List.Basic

namespace Joinery

namespace Tables

variable {ts us : Tables} {r : Relation}

theorem insert_eq_ok (ts : Tables) (h : ∀ row ∈ r.rows, row.length = r.columns.length) :
    ts.insert r = .ok ⟨ts.relations.filter (·.name != r.name) ++ [r]⟩ := by
  have hfits : misfit? r = none := by
    refine List.find?_eq_none.mpr fun x hx => ?_
    have hmem : x.1 ∈ r.rows := List.fst_mem_of_mem_zipIdx hx
    simpa using h x.1 hmem
  rw [insert, hfits]

theorem eq_of_insert (h : ts.insert r = .ok us) :
    us = ⟨ts.relations.filter (·.name != r.name) ++ [r]⟩ := by
  unfold insert at h
  split at h
  · cases h
  · exact (Except.ok.inj h).symm

theorem get_insert_self (h : ts.insert r = .ok us) : us.get r.name = .ok r := by
  have hnone : (ts.relations.filter (·.name != r.name)).find? (·.name == r.name) = none := by
    refine List.find?_eq_none.mpr fun q hq => ?_
    simpa using (List.mem_filter.mp hq).2
  rw [eq_of_insert h, get]
  simp [List.find?_append, hnone]

theorem get_insert_other (h : ts.insert r = .ok us) {name : String} (hn : name ≠ r.name) :
    us.get name = ts.get name := by
  have hkept : (ts.relations.filter (·.name != r.name)).find? (·.name == name) =
      ts.relations.find? (·.name == name) := by
    rw [List.find?_filter]
    congr 1
    funext q
    by_cases hq : q.name = name
    · simp [hq, hn]
    · simp [hq]
  rw [eq_of_insert h, get, get, List.find?_append, hkept, List.find?_singleton]
  have hne : (r.name == name) = false := by simpa using hn.symm
  simp [hne]

end Tables

end Joinery
