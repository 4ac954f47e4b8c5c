/-
Cutting a text at a separator, and putting the pieces together again.

`pieces` cuts at every separator, `cutAt` at the first occurrence of a marker.
Joining the pieces with the separator between them gives the text back
(`joined_pieces`), cutting joined texts cuts each of them (`pieces_joined`), and
what `cutAt` finds is the marker with the text around it (`cutAt_eq_some`).
-/

namespace Joinery.Text

/-- The pieces between the separators: one more than there are separators. -/
def pieces (separator : Char) : List Char → List (List Char)
  | [] => [[]]
  | c :: s =>
    if c = separator then [] :: pieces separator s
    else match pieces separator s with
      | [] => [[c]]
      | p :: ps => (c :: p) :: ps

/-- The pieces with the separator between each and the next. -/
def joined (separator : List Char) : List (List Char) → List Char
  | [] => []
  | [p] => p
  | p :: q :: ps => p ++ separator ++ joined separator (q :: ps)

/-- What stands before and after the first occurrence of `marker`. -/
def cutAt (marker : List Char) : List Char → Option (List Char × List Char)
  | [] => if marker = [] then some ([], []) else none
  | c :: s =>
    if marker.isPrefixOf (c :: s) then some ([], (c :: s).drop marker.length)
    else (cutAt marker s).map fun (before, after) => (c :: before, after)

theorem pieces_ne_nil (separator : Char) : ∀ s, pieces separator s ≠ []
  | [] => by simp [pieces]
  | c :: s => by
    simp only [pieces]
    split
    · simp
    · split <;> simp

/-- Nothing is lost: the pieces, joined again, are the text. -/
theorem joined_pieces (separator : Char) : ∀ s, joined [separator] (pieces separator s) = s
  | [] => by simp [pieces, joined]
  | c :: s => by
    have ih := joined_pieces separator s
    simp only [pieces]
    split
    · next h =>
      subst h
      match hp : pieces c s with
      | [] => exact absurd hp (pieces_ne_nil c s)
      | p :: ps => rw [hp] at ih; simp [joined, ih]
    · match hp : pieces separator s with
      | [] => exact absurd hp (pieces_ne_nil separator s)
      | [p] => rw [hp] at ih; simpa [joined] using ih
      | p :: q :: ps => rw [hp] at ih; simpa [joined] using ih

theorem not_mem_pieces {separator : Char} : ∀ {s p : List Char},
    p ∈ pieces separator s → separator ∉ p
  | [], p, h => by
    rw [List.mem_singleton.mp h]
    exact List.not_mem_nil
  | c :: s, p, h => by
    simp only [pieces] at h
    split at h
    · rcases List.mem_cons.mp h with rfl | h
      · exact List.not_mem_nil
      · exact not_mem_pieces h
    · next hc =>
      match hs : pieces separator s with
      | [] => exact absurd hs (pieces_ne_nil separator s)
      | q :: qs =>
        simp only [hs, List.mem_cons] at h
        rcases h with rfl | h
        · have hq := not_mem_pieces (hs ▸ List.mem_cons_self : q ∈ pieces separator s)
          simp only [List.mem_cons, not_or]
          exact ⟨fun h => hc h.symm, hq⟩
        · exact not_mem_pieces (hs ▸ List.mem_cons_of_mem q h)

theorem pieces_of_not_mem {separator : Char} : ∀ {p : List Char}, separator ∉ p →
    pieces separator p = [p]
  | [], _ => rfl
  | c :: p, h => by
    simp only [List.mem_cons, not_or] at h
    simp only [pieces, if_neg (Ne.symm h.1), pieces_of_not_mem h.2]

/-- A separator parts the pieces before it from those behind it. -/
theorem pieces_append {separator : Char} (s : List Char) : ∀ p : List Char,
    pieces separator (p ++ separator :: s) = pieces separator p ++ pieces separator s
  | [] => by simp [pieces]
  | c :: p => by
    have ih := @pieces_append separator s p
    by_cases hc : c = separator
    · simp [pieces, hc, ih]
    · match hp : pieces separator p with
      | [] => exact absurd hp (pieces_ne_nil separator p)
      | q :: qs => simp [pieces, hc, ih, hp]

theorem pieces_joined {separator : Char} : ∀ {ps : List (List Char)}, ps ≠ [] →
    pieces separator (joined [separator] ps) = ps.flatMap (pieces separator)
  | [], hne => absurd rfl hne
  | [p], _ => by simp [joined]
  | p :: q :: ps, _ => by
    rw [joined, List.append_assoc, List.singleton_append, pieces_append,
      pieces_joined (List.cons_ne_nil q ps)]
    rfl

/-- What is found is the marker, with the text around it. -/
theorem cutAt_eq_some {marker : List Char} : ∀ {s before after : List Char},
    cutAt marker s = some (before, after) → s = before ++ marker ++ after
  | [], before, after, h => by
    simp only [cutAt] at h
    split at h
    · next hm => cases h; simp [hm]
    · cases h
  | c :: s, before, after, h => by
    simp only [cutAt] at h
    split at h
    · next hp =>
      cases h
      obtain ⟨t, ht⟩ := List.isPrefixOf_iff_prefix.mp hp
      simp [← ht]
    · simp only [Option.map_eq_some_iff, Prod.exists, Prod.mk.injEq] at h
      obtain ⟨b, a, hc, rfl, rfl⟩ := h
      simp [cutAt_eq_some hc]

end Joinery.Text
