/-
Lists with their repeats taken out.

What is taken from a list by rows, and then cleared of repeats, is the same if
the list is cleared of repeats before (`eraseDups_flatMap_eraseDups`). From this
follow the laws for mapping and selecting, and for lists whose rows give
different things (`eraseDups_flatMap_of_disjoint`).
-/
import Mathlib.Data.List.Nodup

namespace Joinery

section

variable {α β : Type} [BEq α] [LawfulBEq α] [BEq β] [LawfulBEq β]

theorem eraseDups_filter (p : α → Bool) : ∀ xs : List α,
    (xs.filter p).eraseDups = xs.eraseDups.filter p
  | [] => rfl
  | x :: xs => by
    have ih := eraseDups_filter p (xs.filter fun b => !b == x)
    rw [List.eraseDups_cons, List.filter_cons, List.filter_cons, ← ih]
    split
    · rw [List.eraseDups_cons, List.filter_filter, List.filter_filter]
      simp only [Bool.and_comm]
    · next hp =>
      refine congrArg List.eraseDups ?_
      rw [List.filter_filter]
      refine List.filter_congr fun y _ => ?_
      by_cases hy : y = x
      · subst hy; simpa using hp
      · simp [hy]
termination_by xs => xs.length
decreasing_by exact Nat.lt_succ_of_le (List.length_filter_le _ _)

theorem nodup_eraseDups : ∀ xs : List α, xs.eraseDups.Nodup
  | [] => List.nodup_nil
  | x :: xs => by
    rw [List.eraseDups_cons, eraseDups_filter]
    exact List.nodup_cons.mpr ⟨by simp, (nodup_eraseDups xs).filter _⟩

theorem eraseDups_of_nodup : ∀ {xs : List α}, xs.Nodup → xs.eraseDups = xs
  | [], _ => rfl
  | x :: xs, h => by
    obtain ⟨hx, hxs⟩ := List.nodup_cons.mp h
    rw [List.eraseDups_cons, eraseDups_filter, eraseDups_of_nodup hxs,
      List.filter_eq_self.mpr fun y hy => by
        simp only [Bool.not_eq_true', beq_eq_false_iff_ne]
        exact fun he => hx (he ▸ hy)]

theorem eraseDups_perm {xs ys : List α} (h : xs.Perm ys) : xs.eraseDups.Perm ys.eraseDups := by
  refine (List.perm_ext_iff_of_nodup (nodup_eraseDups xs) (nodup_eraseDups ys)).mpr fun x => ?_
  rw [List.mem_eraseDups, List.mem_eraseDups, h.mem_iff]

theorem find?_eraseDups (p : α → Bool) : ∀ xs : List α, xs.eraseDups.find? p = xs.find? p
  | [] => rfl
  | x :: xs => by
    rw [List.eraseDups_cons, List.find?_cons, List.find?_cons, eraseDups_filter, List.find?_filter]
    cases hx : p x with
    | true => rfl
    | false =>
      have hp : (fun y => decide ((!y == x) = true ∧ p y = true)) = p := by
        funext y
        by_cases hy : y = x
        · subst hy; simp [hx]
        · simp [hy]
      rw [hp]
      exact find?_eraseDups p xs

theorem eraseDups_removeAll (xs ys : List α) :
    (xs.removeAll ys).eraseDups = xs.eraseDups.removeAll ys :=
  eraseDups_filter _ xs

theorem removeAll_congr {xs ys zs : List α} (h : ∀ x, x ∈ ys ↔ x ∈ zs) :
    xs.removeAll ys = xs.removeAll zs :=
  List.filter_congr fun x _ => by simp [h x]

omit [BEq α] [LawfulBEq α] in
/-- Apart from repeats, it matters for each row alone what it gives. -/
theorem eraseDups_flatMap_congr {f g : α → List β} : ∀ {xs : List α},
    (∀ x ∈ xs, (f x).eraseDups = (g x).eraseDups) →
    (xs.flatMap f).eraseDups = (xs.flatMap g).eraseDups
  | [], _ => rfl
  | x :: xs, h => by
    have ih := eraseDups_flatMap_congr fun y hy => h y (List.mem_cons_of_mem x hy)
    have hx := h x List.mem_cons_self
    have hmem : ∀ y, y ∈ f x ↔ y ∈ g x := fun y => by
      rw [← List.mem_eraseDups, hx, List.mem_eraseDups]
    rw [List.flatMap_cons, List.flatMap_cons, List.eraseDups_append, List.eraseDups_append, hx,
      eraseDups_removeAll, eraseDups_removeAll, ih, removeAll_congr hmem]

theorem flatMap_removeAll (f : α → List β) (x : α) (xs : List α) :
    ((xs.filter fun y => !y == x).flatMap f).removeAll (f x) = (xs.flatMap f).removeAll (f x) := by
  induction xs with
  | nil => rfl
  | cons y ys ih =>
    have append (as bs : List β) : (as ++ bs).removeAll (f x) =
        as.removeAll (f x) ++ bs.removeAll (f x) := List.filter_append as bs
    by_cases hy : y = x
    · subst hy
      have hself : (f y).removeAll (f y) = [] := List.filter_eq_nil_iff.mpr fun z hz => by simpa using hz
      rw [List.filter_cons_of_neg (by simp), ih, List.flatMap_cons, append, hself, List.nil_append]
    · rw [List.filter_cons_of_pos (by simpa using hy), List.flatMap_cons, List.flatMap_cons, append,
        append, ih]

/-- Repeats among the rows only repeat what the rows give. -/
theorem eraseDups_flatMap_eraseDups (f : α → List β) : ∀ xs : List α,
    (xs.eraseDups.flatMap f).eraseDups = (xs.flatMap f).eraseDups
  | [] => rfl
  | x :: xs => by
    have ih := eraseDups_flatMap_eraseDups f (xs.filter fun y => !y == x)
    rw [List.eraseDups_cons, List.flatMap_cons, List.flatMap_cons, List.eraseDups_append,
      List.eraseDups_append, eraseDups_removeAll, ih, ← eraseDups_removeAll, flatMap_removeAll]
termination_by xs => xs.length
decreasing_by exact Nat.lt_succ_of_le (List.length_filter_le _ _)

theorem eraseDups_map_eraseDups (f : α → β) (xs : List α) :
    (xs.eraseDups.map f).eraseDups = (xs.map f).eraseDups := by
  simpa only [List.map_eq_flatMap] using eraseDups_flatMap_eraseDups (fun x => [f x]) xs

theorem eraseDups_filterMap_eraseDups (f : α → Option β) (xs : List α) :
    (xs.eraseDups.filterMap f).eraseDups = (xs.filterMap f).eraseDups := by
  simpa only [List.filterMap_eq_flatMap_toList] using
    eraseDups_flatMap_eraseDups (fun x => (f x).toList) xs

/-- If each row gives distinct things, and different rows give different ones, then only repeated
rows repeat anything. -/
theorem eraseDups_flatMap_of_disjoint {f : α → List β} (hnodup : ∀ x, (f x).Nodup)
    (hdisjoint : ∀ x y, x ≠ y → List.Disjoint (f x) (f y)) (xs : List α) :
    (xs.flatMap f).eraseDups = xs.eraseDups.flatMap f := by
  rw [← eraseDups_flatMap_eraseDups]
  refine eraseDups_of_nodup (List.nodup_flatMap.mpr ⟨fun x _ => hnodup x, ?_⟩)
  exact (nodup_eraseDups xs).imp fun hxy => hdisjoint _ _ hxy

theorem eraseDups_map_const {γ : Type} (y : β) : ∀ {xs : List γ}, xs ≠ [] →
    (xs.map fun _ => y).eraseDups = [y]
  | [], h => absurd rfl h
  | _ :: xs, _ => by
    rw [List.map_cons, List.eraseDups_cons, List.filter_eq_nil_iff.mpr (by simp)]
    rfl

end

/-- What is told apart by a function is the only one of its value. -/
theorem filter_of_nodup_map {α β : Type} [BEq β] [LawfulBEq β] {f : α → β} {x : α} : ∀ {xs : List α}, (xs.map f).Nodup → x ∈ xs →
    xs.filter (f · == f x) = [x]
  | y :: ys, h, hx => by
    obtain ⟨hy, hys⟩ := List.nodup_cons.mp h
    rcases List.mem_cons.mp hx with rfl | hx
    · have hrest : ys.filter (f · == f x) = [] := List.filter_eq_nil_iff.mpr fun z hz he =>
        hy (eq_of_beq he ▸ List.mem_map_of_mem hz)
      rw [List.filter_cons, if_pos (beq_self_eq_true (f x)), hrest]
    · have hne : ¬ (f y == f x) = true := fun he => hy (eq_of_beq he ▸ List.mem_map_of_mem hx)
      rw [List.filter_cons, if_neg hne, filter_of_nodup_map hys hx]

theorem findIdx?_eq_some_iff_of_nodup {α : Type} [BEq α] [LawfulBEq α] {xs : List α} (h : xs.Nodup)
    {x : α} {i : Nat} : xs.findIdx? (· == x) = some i ↔ xs[i]? = some x := by
  rw [List.findIdx?_eq_some_iff_getElem, List.getElem?_eq_some_iff]
  constructor
  · rintro ⟨hi, hx, -⟩
    exact ⟨hi, eq_of_beq hx⟩
  · rintro ⟨hi, rfl⟩
    refine ⟨hi, beq_self_eq_true _, fun k hk he => ?_⟩
    exact Nat.ne_of_lt hk (h.getElem_inj_iff.mp (eq_of_beq he))

end Joinery
