/-
Lists of names in which no name repeats.
-/

namespace Joinery

/-- The first name that repeats one of `seen` or an earlier name. -/
def repeatAfter? (seen : List String) : List String → Option String
  | [] => none
  | n :: ns => if seen.contains n then some n else repeatAfter? (n :: seen) ns

/-- The first name that repeats an earlier one. -/
def firstRepeat? (names : List String) : Option String := repeatAfter? [] names

theorem repeatAfter?_eq_none_iff {seen names : List String} :
    repeatAfter? seen names = none ↔ names.Nodup ∧ ∀ n ∈ names, n ∉ seen := by
  induction names generalizing seen with
  | nil => simp [repeatAfter?]
  | cons n ns ih =>
    simp only [repeatAfter?, List.contains_eq_mem, decide_eq_true_eq]
    split
    · next h => simp [h]
    · next h =>
      rw [ih]
      simp only [List.nodup_cons, List.mem_cons, forall_eq_or_imp, not_or]
      constructor
      · intro ⟨hd, hs⟩
        exact ⟨⟨fun hm => (hs n hm).1 rfl, hd⟩, h, fun m hm => (hs m hm).2⟩
      · intro ⟨⟨hn, hd⟩, _, hs⟩
        exact ⟨hd, fun m hm => ⟨fun he => hn (he ▸ hm), hs m hm⟩⟩

theorem firstRepeat?_eq_none_iff {names : List String} :
    firstRepeat? names = none ↔ names.Nodup := by
  simp [firstRepeat?, repeatAfter?_eq_none_iff]

theorem repeatAfter?_append {n : String} (after : List String) : ∀ {before seen : List String},
    before.Nodup → (∀ m ∈ before, m ∉ seen) → n ∈ seen ∨ n ∈ before →
      repeatAfter? seen (before ++ n :: after) = some n
  | [], _, _, _, hn => by
    simp only [List.not_mem_nil, or_false] at hn
    simp [repeatAfter?, hn]
  | m :: before, seen, hd, hs, hn => by
    obtain ⟨hm, hd⟩ := List.nodup_cons.mp hd
    simp only [List.cons_append, repeatAfter?, List.contains_eq_mem, decide_eq_true_eq]
    rw [if_neg (hs m List.mem_cons_self)]
    refine repeatAfter?_append after hd (fun x hx => ?_) ?_
    · rw [List.mem_cons, not_or]
      exact ⟨fun he => hm (he ▸ hx), hs x (List.mem_cons_of_mem m hx)⟩
    · rcases hn with hn | hn
      · exact .inl (List.mem_cons_of_mem m hn)
      · rcases List.mem_cons.mp hn with rfl | hn
        · exact .inl List.mem_cons_self
        · exact .inr hn

/-- The first repeat is the first name that stands among the names before it. -/
theorem firstRepeat?_append {before : List String} {n : String} (after : List String)
    (hd : before.Nodup) (hn : n ∈ before) : firstRepeat? (before ++ n :: after) = some n :=
  repeatAfter?_append after hd (fun _ _ => List.not_mem_nil) (.inr hn)

end Joinery
