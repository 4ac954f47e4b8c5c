/-
Trimming a text, and cutting it at a marker.

Trimming keeps one stretch of the text (`trim_infix`) and has nothing left to do
after itself (`trim_trim`). `cutAt` finds the first place of the marker: the
marker does not stand in what comes before with all of the marker but its end
(`cutAt_eq_some_iff`), and nothing is found exactly if it stands nowhere
(`cutAt_eq_none_iff`).
-/
import Mathlib.Data.List.DropRight
import Mathlib.Data.List.TakeWhile
import Joinery.Text.Blank
import Joinery.Text.Cut

namespace Joinery.Text

theorem trimEnd_eq (s : List Char) : trimEnd s = s.rdropWhile isBlank := rfl

theorem trim_infix (s : List Char) : trim s <:+: s :=
  (List.rdropWhile_prefix isBlank _).isInfix.trans (List.dropWhile_suffix isBlank).isInfix

theorem trim_eq_self_iff {s : List Char} :
    trim s = s ↔ ∀ h : s ≠ [], isBlank (s.head h) = false ∧ isBlank (s.getLast h) = false := by
  have hstart : trimStart s = s ↔ ∀ h : s ≠ [], isBlank (s.head h) = false := by
    rw [trimStart, List.dropWhile_eq_self_iff]
    simp only [List.length_pos_iff, Bool.not_eq_true, List.head_eq_getElem]
  have hend : trimEnd s = s ↔ ∀ h : s ≠ [], isBlank (s.getLast h) = false := by
    rw [trimEnd_eq, List.rdropWhile_eq_self_iff]
    simp only [Bool.not_eq_true]
  rw [forall_and, ← hstart, ← hend]
  constructor
  · intro h
    -- a text that gets shorter at one end is not what it was
    have hlen := congrArg List.length h
    have hs : trimStart s <:+ s := List.dropWhile_suffix isBlank
    have he : trim s <+: trimStart s := List.rdropWhile_prefix isBlank (trimStart s)
    have hstart : trimStart s = s := hs.eq_of_length_le (hlen ▸ he.length_le)
    exact ⟨hstart, by rwa [trim, hstart] at h⟩
  · rintro ⟨hstart, hend⟩
    rw [trim, hstart, hend]

theorem trim_eq_nil_iff {s : List Char} : trim s = [] ↔ ∀ c ∈ s, isBlank c = true := by
  constructor
  · intro h
    have hstart : ∀ c ∈ trimStart s, isBlank c = true := by
      rwa [trim, trimEnd_eq, List.rdropWhile_eq_nil_iff] at h
    -- what is left at the front would start with a character that is not blank
    rw [← List.dropWhile_eq_nil_iff]
    by_contra hne
    have hhead := List.head_dropWhile_not isBlank hne
    rw [hstart _ (List.head_mem hne)] at hhead
    cases hhead
  · intro h
    rw [trim, trimStart, List.dropWhile_eq_nil_iff.mpr h]
    rfl

theorem trim_trim (s : List Char) : trim (trim s) = trim s := by
  rw [trim_eq_self_iff]
  intro h
  have hstart : trimStart s ≠ [] := by
    intro hnil
    exact h (by rw [trim, hnil]; rfl)
  refine ⟨?_, Bool.eq_false_iff.mpr (List.rdropWhile_last_not isBlank (trimStart s) h)⟩
  have he : trim s <+: trimStart s := List.rdropWhile_prefix isBlank (trimStart s)
  rw [he.head h]
  exact List.head_dropWhile_not isBlank hstart

/-- A text that is not empty and has no blank at its ends. -/
def Tidy (s : List Char) : Prop := s ≠ [] ∧ trim s = s

/-- What stands between two tidy texts makes them no less tidy. -/
theorem Tidy.between {a b : List Char} (ha : Tidy a) (hb : Tidy b) (m : List Char) :
    Tidy (a ++ m ++ b) := by
  obtain ⟨ha, hta⟩ := ha
  obtain ⟨hb, htb⟩ := hb
  refine ⟨by simp [ha], trim_eq_self_iff.mpr fun h => ?_⟩
  have hfront := (trim_eq_self_iff.mp hta ha).1
  have hback := (trim_eq_self_iff.mp htb hb).2
  refine ⟨?_, ?_⟩
  · rwa [List.head_append_of_ne_nil (by simp [ha]), List.head_append_of_ne_nil ha]
  · rwa [List.getLast_append_of_ne_nil h hb]

theorem tidy_joined {separator : List Char} : ∀ {ps : List (List Char)}, ps ≠ [] →
    (∀ p ∈ ps, Tidy p) → Tidy (joined separator ps)
  | [], hne, _ => absurd rfl hne
  | [p], _, h => h p List.mem_cons_self
  | p :: q :: ps, _, h =>
    (h p List.mem_cons_self).between
      (tidy_joined (List.cons_ne_nil q ps) fun r hr => h r (List.mem_cons_of_mem p hr)) separator

/-- A text that does not hold `c` stands on one side of it. -/
theorem infix_of_infix_between {m a b : List Char} {c : Char} (hc : c ∉ m)
    (h : m <:+: a ++ [c] ++ b) : m <:+: a ∨ m <:+: b := by
  rw [List.append_assoc, List.singleton_append, List.infix_append_iff, List.infix_cons_iff] at h
  rcases h with h | (h | h) | ⟨front, back, rfl, hfront, hback⟩
  · exact .inl h
  · rcases List.prefix_cons_iff.mp h with rfl | ⟨t, rfl, -⟩
    · exact .inl (List.nil_infix)
    · exact absurd List.mem_cons_self hc
  · exact .inr h
  · rcases List.prefix_cons_iff.mp hback with rfl | ⟨t, rfl, -⟩
    · exact .inl (by simpa using hfront.isInfix)
    · exact absurd (List.mem_append_right front List.mem_cons_self) hc

theorem infix_joined_of_mem {separator : List Char} {p : List Char} :
    ∀ {ps : List (List Char)}, p ∈ ps → p <:+: joined separator ps
  | [q], h => by
    rw [List.mem_singleton.mp h]
    exact List.infix_rfl
  | q :: r :: ps, h => by
    rcases List.mem_cons.mp h with rfl | h
    · exact ((List.prefix_append p separator).trans (List.prefix_append _ _)).isInfix
    · exact (infix_joined_of_mem h).trans (List.suffix_append _ _).isInfix

theorem infix_of_mem_pieces {separator : Char} {s p : List Char} (h : p ∈ pieces separator s) :
    p <:+: s := by
  rw [← joined_pieces separator s]
  exact infix_joined_of_mem h

/-- What stands in joined texts and does not hold the separator stands in one of them. -/
theorem infix_of_infix_joined {separator : Char} {m : List Char} (hm : separator ∉ m) :
    ∀ {ps : List (List Char)}, ps ≠ [] → m <:+: joined [separator] ps → ∃ p ∈ ps, m <:+: p
  | [], hne, _ => absurd rfl hne
  | [p], _, h => ⟨p, List.mem_cons_self, h⟩
  | p :: q :: ps, _, h => by
    rcases infix_of_infix_between hm h with h | h
    · exact ⟨p, List.mem_cons_self, h⟩
    · obtain ⟨r, hr, h⟩ := infix_of_infix_joined hm (List.cons_ne_nil q ps) h
      exact ⟨r, List.mem_cons_of_mem p hr, h⟩

theorem cutAt_eq_none_iff {marker : List Char} : ∀ {s : List Char},
    cutAt marker s = none ↔ ¬ marker <:+: s
  | [] => by simp [cutAt]
  | c :: s => by
    have ih := @cutAt_eq_none_iff marker s
    rw [List.infix_cons_iff, not_or, ← ih, ← List.isPrefixOf_iff_prefix]
    by_cases h : marker.isPrefixOf (c :: s) <;> simp [cutAt, h]

/-- What is found is the first: the marker would not stand in what comes before it even with all
but the marker's end. -/
theorem cutAt_first {marker : List Char} (hne : marker ≠ []) : ∀ {s before after : List Char},
    cutAt marker s = some (before, after) → ¬ marker <:+: before ++ marker.dropLast
  | [], before, after, h => by simp [cutAt, hne] at h
  | c :: s, before, after, h => by
    simp only [cutAt] at h
    split at h
    · cases h
      intro hin
      have hlen := hin.length_le
      have hpos := List.length_pos_iff.mpr hne
      simp only [List.nil_append, List.length_dropLast] at hlen
      omega
    · next hp =>
      simp only [Option.map_eq_some_iff, Prod.exists, Prod.mk.injEq] at h
      obtain ⟨b, a, hcut, rfl, rfl⟩ := h
      rw [List.cons_append, List.infix_cons_iff, not_or]
      refine ⟨fun hpre => hp (List.isPrefixOf_iff_prefix.mpr (hpre.trans ?_)), cutAt_first hne hcut⟩
      rw [cutAt_eq_some hcut, List.append_assoc, ← List.cons_append, ← List.cons_append,
        List.prefix_append_right_inj]
      exact (List.dropLast_prefix marker).trans (List.prefix_append marker a)

/-- The marker is found where it first stands. -/
theorem cutAt_append {marker : List Char} (hne : marker ≠ []) (after : List Char) :
    ∀ {before : List Char}, ¬ marker <:+: before ++ marker.dropLast →
      cutAt marker (before ++ marker ++ after) = some (before, after)
  | [], _ => by
    match marker, hne with
    | m :: ms, _ => simp [cutAt]
  | c :: before, hfirst => by
    have hpos := List.length_pos_iff.mpr hne
    have hp : ¬ marker.isPrefixOf (c :: (before ++ marker ++ after)) = true := by
      intro hp
      have hfront : c :: before ++ marker.dropLast <+: c :: (before ++ marker ++ after) := by
        rw [List.append_assoc, ← List.cons_append, List.prefix_append_right_inj]
        exact (List.dropLast_prefix marker).trans (List.prefix_append marker after)
      refine hfirst (List.prefix_of_prefix_length_le (List.isPrefixOf_iff_prefix.mp hp) hfront ?_).isInfix
      simp only [List.length_append, List.length_cons, List.length_dropLast]
      omega
    rw [List.cons_append, List.infix_cons_iff, not_or] at hfirst
    rw [List.cons_append, List.cons_append, cutAt, if_neg hp, cutAt_append hne after hfirst.2]
    rfl

theorem cutAt_eq_some_iff {marker : List Char} (hne : marker ≠ []) {s before after : List Char} :
    cutAt marker s = some (before, after) ↔
      s = before ++ marker ++ after ∧ ¬ marker <:+: before ++ marker.dropLast := by
  constructor
  · exact fun h => ⟨cutAt_eq_some h, cutAt_first hne h⟩
  · rintro ⟨rfl, hfirst⟩
    exact cutAt_append hne after hfirst

end Joinery.Text
