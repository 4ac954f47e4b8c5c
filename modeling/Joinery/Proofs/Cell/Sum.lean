/-
When the total of some integers is an integer.

A total is kept as an integer of 64 bits while it is built up (`addInt64?`), so
it stays one exactly when every number is of 64 bits and so is every partial
total on the way (`foldlM_addInt64?_iff`). A total that fits may thus be lost
to one order of the cells and not to another: `sum_ints` says when no order
loses it, which is a matter of the gains alone and the losses alone, the two
extremes that a partial total can come to.
-/
import Joinery.Cell
import Mathlib.Algebra.Order.BigOperators.Group.List
import Mathlib.Algebra.Order.Ring.Int
import Mathlib.Data.List.Infix
import Mathlib.Data.List.Perm.Basic
import Mathlib.Data.Set.List

namespace Joinery.Cell

open Json (Value Number)

/-- An integer of 64 bits with a sign. -/
def IsInt64 (n : Int) : Prop := -0x8000000000000000 ≤ n ∧ n < 0x8000000000000000

instance (n : Int) : Decidable (IsInt64 n) := inferInstanceAs (Decidable (_ ∧ _))

theorem int64?_int_eq_some_iff {m n : Int} : (Number.int m).int64? = some n ↔ IsInt64 m ∧ m = n := by
  simp only [Number.int64?, IsInt64]
  split <;> simp_all

theorem addInt64?_eq_some_iff {total n t : Int} :
    addInt64? total (.int n) = some t ↔ IsInt64 n ∧ IsInt64 (total + n) ∧ total + n = t := by
  simp only [addInt64?, Option.bind_eq_bind, Option.bind_eq_some_iff, int64?_int_eq_some_iff]
  constructor
  · rintro ⟨m, ⟨hn, rfl⟩, ht⟩
    exact ⟨hn, ht⟩
  · rintro ⟨hn, ht⟩
    exact ⟨n, ⟨hn, rfl⟩, ht⟩

/-! ## Partial totals -/

/-- Every number is of 64 bits, and so is every total on the way from `start`. -/
def StaysInt64 (start : Int) (ns : List Int) : Prop :=
  (∀ n ∈ ns, IsInt64 n) ∧ ∀ part, part <+: ns → part ≠ [] → IsInt64 (start + part.sum)

theorem staysInt64_nil (start : Int) : StaysInt64 start [] :=
  ⟨by simp, fun _ h hne => absurd (List.prefix_nil.mp h) hne⟩

theorem staysInt64_cons {start n : Int} {ns : List Int} :
    StaysInt64 start (n :: ns) ↔ IsInt64 n ∧ IsInt64 (start + n) ∧ StaysInt64 (start + n) ns := by
  constructor
  · rintro ⟨hn, hp⟩
    refine ⟨hn n List.mem_cons_self, by simpa using hp [n] (by simp) (by simp),
      fun m hm => hn m (List.mem_cons_of_mem n hm), fun part h _ => ?_⟩
    simpa [Int.add_assoc] using hp (n :: part) (List.cons_prefix_cons.mpr ⟨rfl, h⟩) (by simp)
  · rintro ⟨hn, hstart, hns, hp⟩
    refine ⟨List.forall_mem_cons.mpr ⟨hn, hns⟩, fun part h hne => ?_⟩
    obtain rfl | ⟨rest, rfl, hrest⟩ := List.prefix_cons_iff.mp h
    · exact absurd rfl hne
    · rw [List.sum_cons, ← Int.add_assoc]
      by_cases hnil : rest = []
      · simpa [hnil] using hstart
      · exact hp rest hrest hnil

/-- The total is kept while it stays of 64 bits, and then it is exact. -/
theorem foldlM_addInt64?_iff {t : Int} (ns : List Int) (start : Int) :
    (ns.map Number.int).foldlM addInt64? start = some t ↔
      StaysInt64 start ns ∧ start + ns.sum = t := by
  induction ns generalizing start with
  | nil => simp [staysInt64_nil]
  | cons n ns ih =>
    simp only [List.map_cons, List.foldlM_cons, Option.bind_eq_bind, Option.bind_eq_some_iff,
      addInt64?_eq_some_iff, staysInt64_cons, List.sum_cons]
    constructor
    · rintro ⟨m, ⟨hn, hm, rfl⟩, ht⟩
      obtain ⟨hs, rfl⟩ := (ih _).mp ht
      exact ⟨⟨hn, hm, hs⟩, by omega⟩
    · rintro ⟨⟨hn, hm, hs⟩, rfl⟩
      exact ⟨start + n, ⟨hn, hm, rfl⟩, (ih _).mpr ⟨hs, by omega⟩⟩

theorem ofDouble_ne_int (x : Float) (n : Int) : Value.ofDouble x ≠ .int n := by
  unfold Value.ofDouble
  split <;> simp [Value.int]

theorem sum_eq_int_iff {cells : List Value} {ns : List Int} {t : Int}
    (h : numbers cells = ns.map .int) (hne : ns ≠ []) :
    sum cells = .int t ↔ StaysInt64 0 ns ∧ ns.sum = t := by
  have hnil : numbers cells ≠ [] := by simpa [h] using hne
  have hfold := foldlM_addInt64?_iff (t := t) ns 0
  rw [← h, Int.zero_add] at hfold
  rw [← hfold]
  unfold sum
  split
  · next h0 => exact absurd h0 hnil
  · split
    · next total htotal => simp [htotal, Value.int]
    · next hnone => simp [hnone, ofDouble_ne_int]

/-! ## Every order -/

/-- The total of the positive ones. -/
def gains (ns : List Int) : Int := (ns.filter (0 < ·)).sum

/-- The total of the negative ones. -/
def losses (ns : List Int) : Int := (ns.filter (· < 0)).sum

theorem losses_le_sum_le_gains (ns : List Int) : losses ns ≤ ns.sum ∧ ns.sum ≤ gains ns := by
  induction ns with
  | nil => simp [losses, gains]
  | cons n ns ih =>
    simp only [losses, gains] at ih
    by_cases hpos : 0 < n <;> by_cases hneg : n < 0 <;> simp [losses, gains, hpos, hneg] <;> omega

theorem losses_nonpos (ns : List Int) : losses ns ≤ 0 :=
  List.sum_induction (· ≤ 0) (fun _ _ => Int.add_nonpos) (Int.le_refl 0) fun n hn => by
    have := (List.mem_filter.mp hn).2
    exact Int.le_of_lt (of_decide_eq_true this)

theorem gains_nonneg (ns : List Int) : 0 ≤ gains ns :=
  List.sum_nonneg fun n hn => by
    have := (List.mem_filter.mp hn).2
    exact Int.le_of_lt (of_decide_eq_true this)

theorem losses_append (ns ms : List Int) : losses (ns ++ ms) = losses ns + losses ms := by
  simp [losses]

theorem gains_append (ns ms : List Int) : gains (ns ++ ms) = gains ns + gains ms := by
  simp [gains]

/-- No partial total leaves the range from the losses to the gains. -/
theorem prefix_sum_mem {part ns : List Int} (h : part <+: ns) :
    losses ns ≤ part.sum ∧ part.sum ≤ gains ns := by
  obtain ⟨rest, rfl⟩ := h
  have := losses_le_sum_le_gains part
  have := losses_nonpos rest
  have := gains_nonneg rest
  rw [losses_append, gains_append]
  omega

theorem staysInt64_of_gains {ns ms : List Int} (h : ms.Perm ns) (hns : ∀ n ∈ ns, IsInt64 n)
    (hg : IsInt64 (gains ns)) (hl : IsInt64 (losses ns)) : StaysInt64 0 ms := by
  refine ⟨fun n hn => hns n (h.mem_iff.mp hn), fun part hp _ => ?_⟩
  have hpart := prefix_sum_mem hp
  rw [losses, gains, (h.filter _).sum_eq, (h.filter _).sum_eq] at hpart
  unfold IsInt64 gains losses at *
  omega

theorem filter_number? (cells : List Value) :
    cells.filter (·.number?.isSome) = (numbers cells).map .number := by
  induction cells with
  | nil => rfl
  | cons v cells ih =>
    cases v with
    | number n => exact congrArg (.number n :: ·) ih
    | _ => exact ih

theorem exists_numbers_perm {cells : List Value} {ns ms : List Int} (h : numbers cells = ns.map .int)
    (hperm : ms.Perm ns) : ∃ other : List Value, other.Perm cells ∧ numbers other = ms.map .int := by
  refine ⟨ms.map Value.int ++ cells.filter (!·.number?.isSome), ?_, ?_⟩
  · refine .trans (.append_right _ ?_) (List.filter_append_perm (·.number?.isSome) cells)
    rw [filter_number?, h, List.map_map]
    exact hperm.map _
  · have hnone : numbers (cells.filter (!·.number?.isSome)) = [] :=
      List.filterMap_eq_nil_iff.mpr fun v hv => by simpa using (List.mem_filter.mp hv).2
    have hints : numbers (ms.map Value.int) = ms.map .int := by
      rw [numbers, List.filterMap_map]
      exact congrFun List.filterMap_eq_map ms
    rw [numbers, List.filterMap_append]
    show numbers _ ++ numbers _ = _
    rw [hnone, hints, List.append_nil]

/-- With the numbers that satisfy `p` in front, the first total on the way is theirs. -/
theorem isInt64_filter_sum {cells : List Value} {ns : List Int} (h : numbers cells = ns.map .int)
    (hne : ns ≠ []) (hall : ∀ other, other.Perm cells → sum other = .int ns.sum) (p : Int → Bool) :
    IsInt64 (ns.filter p).sum := by
  have hperm := List.filter_append_perm p ns
  obtain ⟨other, hother, hnumbers⟩ := exists_numbers_perm h hperm
  have hms : ns.filter p ++ ns.filter (!p ·) ≠ [] := fun h0 => hne (List.perm_nil.mp (h0 ▸ hperm).symm)
  have hstays := ((sum_eq_int_iff hnumbers hms).mp (hall other hother)).1
  by_cases hnil : ns.filter p = []
  · rw [hnil]; decide
  · simpa using hstays.2 _ (List.prefix_append _ _) hnil

theorem numbers_perm {cells other : List Value} {ns : List Int} (h : numbers cells = ns.map .int)
    (hperm : other.Perm cells) : ∃ ms : List Int, numbers other = ms.map .int ∧ ms.Perm ns := by
  have hnumbers : (numbers other).Perm (ns.map .int) := h ▸ hperm.filterMap _
  have hrange : numbers other ∈ Set.range (List.map Number.int) := by
    rw [Set.range_list_map]
    intro n hn
    obtain ⟨m, -, rfl⟩ := List.mem_map.mp (hnumbers.mem_iff.mp hn)
    exact ⟨m, rfl⟩
  obtain ⟨ms, hms⟩ := hrange
  refine ⟨ms, hms.symm, ?_⟩
  rw [← hms] at hnumbers
  exact (List.map_perm_map_iff fun _ _ => Number.int.inj).mp hnumbers

/-- **When a total of integers is an integer**: it is exactly when every number and every partial
total, in the order of the cells, is of 64 bits; it is so in every order exactly when every number,
the gains alone and the losses alone are. The integer is always the exact total. -/
theorem sum_ints {cells : List Value} {ns : List Int} (h : numbers cells = ns.map .int)
    (hne : ns ≠ []) :
    (∀ t, sum cells = .int t ↔
      (∀ n ∈ ns, IsInt64 n) ∧ (∀ part, part <+: ns → IsInt64 part.sum) ∧ t = ns.sum) ∧
    ((∀ other, other.Perm cells → sum other = .int ns.sum) ↔
      (∀ n ∈ ns, IsInt64 n) ∧ IsInt64 (gains ns) ∧ IsInt64 (losses ns)) := by
  have stays : StaysInt64 0 ns ↔
      (∀ n ∈ ns, IsInt64 n) ∧ ∀ part, part <+: ns → IsInt64 part.sum := by
    refine and_congr_right' (forall_congr' fun part => imp_congr_right fun _ => ?_)
    by_cases hnil : part = []
    · simp [hnil, IsInt64]
    · simp [hnil]
  refine ⟨fun t => ?_, fun hall => ?_, fun ⟨hns, hg, hl⟩ other hperm => ?_⟩
  · rw [sum_eq_int_iff h hne, stays, and_assoc, eq_comm (a := t)]
  · have hfit := ((sum_eq_int_iff h hne).mp (hall cells (.refl _))).1.1
    exact ⟨hfit, isInt64_filter_sum h hne hall _, isInt64_filter_sum h hne hall _⟩
  · obtain ⟨ms, hms, hperm⟩ := numbers_perm h hperm
    have hne : ms ≠ [] := fun h0 => hne (List.perm_nil.mp (h0 ▸ hperm).symm)
    exact (sum_eq_int_iff hms hne).mpr ⟨staysInt64_of_gains hperm hns hg hl, hperm.sum_eq⟩

/-- Three cells in an order that keeps the total, although another order loses it. -/
theorem sum_ints_largest :
    sum [.int 0x7FFFFFFFFFFFFFFF, .null, .int (-1), .int 1] = .int 0x7FFFFFFFFFFFFFFF ∧
    ¬ ∀ other : List Value, other.Perm [.int 0x7FFFFFFFFFFFFFFF, .null, .int (-1), .int 1] →
      sum other = .int 0x7FFFFFFFFFFFFFFF := by
  have h : numbers [.int 0x7FFFFFFFFFFFFFFF, .null, .int (-1), .int 1] =
      [0x7FFFFFFFFFFFFFFF, -1, 1].map Number.int := rfl
  have both := sum_ints h (by decide)
  refine ⟨((both.1 _).mpr ⟨by decide, fun part hp => ?_, by decide⟩), fun hall => ?_⟩
  · rw [← List.mem_inits] at hp
    revert hp part
    decide
  · have := (both.2.mp hall).2.1
    revert this
    decide

/-- A total that fits is a double all the same when a partial total does not fit. -/
theorem sum_rounds_partial :
    IsInt64 [0x7FFFFFFFFFFFFFFF, 1, -1].sum ∧
    (sum [.int 0x7FFFFFFFFFFFFFFF, .int 1, .int (-1)]).text = "9.223372036854776e+18" ∧
    (sum [.int 0x7FFFFFFFFFFFFFFF, .int (-1), .int 1]).text = "9223372036854775807" := by
  decide +kernel

end Joinery.Cell
