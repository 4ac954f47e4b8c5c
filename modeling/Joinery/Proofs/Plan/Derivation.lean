/-
Derived sources without a trail.

How deep a plan may be nested bounds a derivation as well as the trail does: the
plan of a source is the one that it has within some depth (`derive_eq_ok_iff_within`).
The trail only refuses what no depth suffices for. Take the least depth at which
a source has a plan: what its query reads has one at a lower depth, so the source
itself, which has not, does not come back.
-/
import Joinery.Proofs.Plan.Growth

namespace Joinery.Store

variable {s : Store}

/-- The plan of the derived source of a name, with plans nested at most so deep. -/
def deriveWithin (s : Store) : Nat → Derive
  | 0, name => .error (.internal (.notDerived name))
  | depth + 1, name =>
    match s.sourceNamed? name with
    | none => .error (.internal (.notDerived name))
    | some source =>
      match source.query with
      | none => .error (.internal (.notDerived name))
      | some query => (s.compileQueryOf (s.deriveWithin depth) name query).mapError (.within name)

theorem deriveWithin_eq_ok_iff {depth : Nat} {name : String} {plan : Plan} :
    s.deriveWithin (depth + 1) name = .ok plan ↔ ∃ source query,
      s.sourceNamed? name = some source ∧ source.query = some query ∧
      s.compileQueryOf (s.deriveWithin depth) name query = .ok plan := by
  rw [deriveWithin]
  constructor
  · intro h
    split at h
    · cases h
    next source hs =>
    split at h
    · cases h
    next query hq =>
    exact ⟨source, query, hs, hq, mapError_eq_ok_iff.mp h⟩
  · rintro ⟨source, query, hs, hq, hc⟩
    simp only [hs, hq]
    exact mapError_eq_ok_iff.mpr hc

/-- Compiling succeeds with any way to derive that succeeds where the old one did. -/
theorem Coherent.compileQueryOf (hs : s.Coherent) {d e : Derive} (hd : ∀ name, Kept (d name) (e name))
    (owner : String) (query : Query) :
    Kept (s.compileQueryOf d owner query) (s.compileQueryOf e owner query) :=
  (Extends.refl s).compileQueryOf hs hd owner query

/-- The owner of a query is for its errors only. -/
theorem compileQueryOf_owner {d : Derive} {owner : String} (other : String) {query : Query} {plan : Plan}
    (h : s.compileQueryOf d owner query = .ok plan) : s.compileQueryOf d other query = .ok plan := by
  simp only [Store.compileQueryOf] at h ⊢
  split at h
  · exact h
  · cases h

theorem Coherent.deriveWithin_succ (hs : s.Coherent) : ∀ (depth : Nat) (name : String),
    Kept (s.deriveWithin depth name) (s.deriveWithin (depth + 1) name)
  | 0, _ => .error
  | depth + 1, name => by
    intro plan hp
    obtain ⟨source, query, hsource, hq, hc⟩ := deriveWithin_eq_ok_iff.mp hp
    have hd := fun m => Coherent.deriveWithin_succ hs depth m
    exact deriveWithin_eq_ok_iff.mpr ⟨source, query, hsource, hq, hs.compileQueryOf hd name query plan hc⟩

theorem Coherent.deriveWithin_mono (hs : s.Coherent) {depth more : Nat} (h : depth ≤ more) (name : String) :
    Kept (s.deriveWithin depth name) (s.deriveWithin more name) := by
  induction h with
  | refl => exact .refl _
  | step _ ih => exact fun plan hp => hs.deriveWithin_succ _ name plan (ih plan hp)

/-- A trail leaves room for so many more sources, and plans are nested no deeper. -/
theorem Coherent.within_of_derive (hs : s.Coherent) (trail : List String) (name : String) :
    Kept (s.derive trail name) (s.deriveWithin (s.room trail) name) := by
  intro plan hp
  obtain ⟨htrail, source, query, hsource, hq, hc⟩ := derive_eq_ok_iff.mp hp
  have hroom := room_lt hsource (by simpa using htrail)
  have hd := fun m => Coherent.within_of_derive hs (trail ++ [name]) m
  have hplan : s.deriveWithin (s.room (trail ++ [name]) + 1) name = .ok plan :=
    deriveWithin_eq_ok_iff.mpr ⟨source, query, hsource, hq, hs.compileQueryOf hd name query plan hc⟩
  exact hs.deriveWithin_mono hroom name plan hplan
termination_by s.room trail

/-- A source that has a plan within a depth has that plan beside any trail of sources that have
none within it. -/
theorem Coherent.derive_of_within (hs : s.Coherent) : ∀ (depth : Nat) {trail : List String}
    {name : String} {plan : Plan}, s.deriveWithin depth name = .ok plan →
    (∀ m ∈ trail, ∀ p, s.deriveWithin depth m ≠ .ok p) → s.derive trail name = .ok plan
  | 0, _, _, _, hp, _ => nomatch hp
  | depth + 1, trail, name, plan, hp, ht => by
    have htrail : ∀ m ∈ trail, ∀ p, s.deriveWithin depth m ≠ .ok p := fun m hm p h =>
      ht m hm p (hs.deriveWithin_succ depth m p h)
    cases hlower : s.deriveWithin depth name with
    | ok lower =>
      cases (hs.deriveWithin_succ depth name lower hlower).symm.trans hp
      exact Coherent.derive_of_within hs depth hlower htrail
    | error e =>
      -- The depth is the least one, so the source itself can go onto the trail.
      obtain ⟨source, query, hsource, hq, hc⟩ := deriveWithin_eq_ok_iff.mp hp
      have hnext : ∀ m ∈ trail ++ [name], ∀ p, s.deriveWithin depth m ≠ .ok p := by
        intro m hm p h
        rcases List.mem_append.mp hm with hm | hm
        · exact htrail m hm p h
        · rw [List.mem_singleton.mp hm, hlower] at h
          cases h
      have hd (m : String) : Kept (s.deriveWithin depth m) (s.derive (trail ++ [name]) m) :=
        fun p h => Coherent.derive_of_within hs depth h hnext
      have hfree : name ∉ trail := fun hm => ht name hm plan hp
      exact derive_eq_ok_iff.mpr ⟨hfree, source, query, hsource, hq, hs.compileQueryOf hd name query plan hc⟩

/-- **A source has a plan when it has one within some depth**: the trail refuses nothing else. -/
theorem Coherent.derive_eq_ok_iff_within (hs : s.Coherent) {name : String} {plan : Plan} :
    s.derive [] name = .ok plan ↔ ∃ depth, s.deriveWithin depth name = .ok plan := by
  constructor
  · exact fun h => ⟨_, hs.within_of_derive [] name plan h⟩
  · rintro ⟨depth, h⟩
    exact hs.derive_of_within depth h fun m hm => nomatch hm

theorem Coherent.derive_of_query (hs : s.Coherent) {source : Source} {query : Query} {owner : String}
    {plan : Plan} (hn : s.sourceNamed? source.name = some source) (hq : source.query = some query)
    (h : s.compileQueryOf (s.derive []) owner query = .ok plan) :
    s.derive [] source.name = .ok plan := by
  have hd (m : String) : Kept (s.derive [] m) (s.deriveWithin (s.room []) m) := hs.within_of_derive [] m
  refine hs.derive_eq_ok_iff_within.mpr ⟨s.room [] + 1, ?_⟩
  exact deriveWithin_eq_ok_iff.mpr
    ⟨source, query, hn, hq, hs.compileQueryOf hd _ query plan (compileQueryOf_owner _ h)⟩

end Joinery.Store
