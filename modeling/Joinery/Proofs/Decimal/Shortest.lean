/-
The shortest digits of a double round to that double and to no other.

The reals that round to a double form an interval (`Rounds`), and the intervals
of two doubles have no point in common (`rounds_unique`). The digits found are a
point of it: on a coarse grid because that is tried, and with seventeen digits
because the nearer neighbour on that grid is closer than the ends
(`seventeen_rounds`). That needs the leading digit to stand where the estimate
from the binary logarithms puts it, or one place to the left (`pow_scale_le`).
-/
import Joinery.Decimal.Shortest
import Joinery.Proofs.Decimal.Binary
import Mathlib.Algebra.Order.Field.Power
import Mathlib.Algebra.Order.Floor.Semifield
import Mathlib.Data.Rat.Floor
import Mathlib.Tactic.FieldSimp
import Mathlib.Tactic.Positivity
import Mathlib.Tactic.Push
import Mathlib.Tactic.Ring

namespace Joinery.Decimal

/-! ## The rounding interval -/

namespace Binary

/-- The unit in the last place. -/
def unit (b : Binary) : ℚ := 2 ^ b.exponent

/-- The number m · 2^q. -/
def value (b : Binary) : ℚ := b.significand * b.unit

/-- Halfway to the double below. -/
def low (b : Binary) : ℚ := (b.significand - if b.narrowBelow then 1 / 4 else 1 / 2) * b.unit

/-- Halfway to the double above. -/
def high (b : Binary) : ℚ := (b.significand + 1 / 2) * b.unit

/-- Does a number round to the double? The ends do if the significand is even. -/
def Rounds (b : Binary) (r : ℚ) : Prop :=
  (b.low < r ∨ b.significand % 2 = 0 ∧ b.low = r) ∧
    (r < b.high ∨ b.significand % 2 = 0 ∧ r = b.high)

theorem unit_pos (b : Binary) : 0 < b.unit := by
  exact zpow_pos (by norm_num) _

theorem Rounds.pos {b : Binary} {r : ℚ} (hr : b.Rounds r) (h : 0 < b.significand) : 0 < r := by
  have hlow : 0 < b.low := by
    have hm : (1 : ℚ) ≤ b.significand := by exact_mod_cast h
    have := b.unit_pos
    unfold low
    split <;> exact mul_pos (by linarith) this
  rcases hr.1 with hr | ⟨-, rfl⟩
  · exact hlow.trans hr
  · exact hlow

/-- The interval of a double with a larger exponent starts at 2^52 of its units or more. -/
theorem low_of_exponent {c : Binary} (hc : c.Canonical) (hexp : -1074 < c.exponent) :
    (2 ^ 52 - 1 / 4) * c.unit ≤ c.low := by
  refine mul_le_mul_of_nonneg_right ?_ c.unit_pos.le
  by_cases hn : c.narrowBelow = true
  · have hcm : (c.significand : ℚ) = 2 ^ 52 := by exact_mod_cast (hc.narrow.mp hn).1
    rw [if_pos hn, hcm]
  · have hcm : 2 ^ 52 + 1 ≤ c.significand := by
      have hge := hc.normal hexp
      have hne : c.significand ≠ 2 ^ 52 := fun h => hn (hc.narrow.mpr ⟨h, hexp⟩)
      omega
    have hcm : (2 ^ 52 + 1 : ℚ) ≤ c.significand := by exact_mod_cast hcm
    rw [if_neg hn]
    linarith

theorem high_le_low_of_exponent {b c : Binary} (hb : b.Canonical) (hc : c.Canonical)
    (h : b.exponent < c.exponent) :
    b.high ≤ c.low ∧ (b.significand % 2 = 0 → b.high < c.low) := by
  have hu := b.unit_pos
  have hlt := hb.significand_lt
  have hlow := low_of_exponent hc (lt_of_le_of_lt hb.le_exponent h)
  -- a unit of `c` is two of `b` or more
  have hunit : 2 * b.unit ≤ c.unit := by
    rw [unit, unit, ← zpow_one_add₀ (by norm_num)]
    exact zpow_le_zpow_right₀ (by norm_num) (by omega)
  constructor
  · have hm : (b.significand : ℚ) + 1 ≤ 2 ^ 53 := by exact_mod_cast hlt
    have hhigh : b.high ≤ (2 ^ 53 - 1 / 2) * b.unit :=
      mul_le_mul_of_nonneg_right (by linarith) hu.le
    linarith
  · intro heven
    have hm : b.significand + 2 ≤ 2 ^ 53 := by omega
    have hm : (b.significand : ℚ) + 2 ≤ 2 ^ 53 := by exact_mod_cast hm
    have hhigh : b.high < (2 ^ 53 - 1 / 2) * b.unit := mul_lt_mul_of_pos_right (by linarith) hu
    linarith

theorem high_le_low_of_significand {b c : Binary} (he : b.exponent = c.exponent)
    (h : b.significand < c.significand) :
    b.high ≤ c.low ∧ (b.significand % 2 = 0 → c.significand % 2 = 0 → b.high < c.low) := by
  have hu := b.unit_pos
  have hlow : (c.significand - 1 / 2) * b.unit ≤ c.low := by
    rw [low, unit, unit, he]
    refine mul_le_mul_of_nonneg_right ?_ (c.unit_pos).le
    split <;> linarith
  constructor
  · have hm : (b.significand : ℚ) + 1 ≤ c.significand := by exact_mod_cast h
    exact (mul_le_mul_of_nonneg_right (by linarith) hu.le).trans hlow
  · intro heven heven'
    have hm : b.significand + 2 ≤ c.significand := by omega
    have hm : (b.significand : ℚ) + 2 ≤ c.significand := by exact_mod_cast hm
    exact (mul_lt_mul_of_pos_right (by linarith) hu).trans_le hlow

/-- The interval of a double ends where the next one starts, and only one of the two has the end. -/
theorem high_le_low {b c : Binary} (hb : b.Canonical) (hc : c.Canonical)
    (h : b.exponent < c.exponent ∨ b.exponent = c.exponent ∧ b.significand < c.significand) :
    b.high ≤ c.low ∧ (b.significand % 2 = 0 → c.significand % 2 = 0 → b.high < c.low) := by
  rcases h with he | ⟨he, hm⟩
  · obtain ⟨hle, hlt⟩ := high_le_low_of_exponent hb hc he
    exact ⟨hle, fun heven _ => hlt heven⟩
  · exact high_le_low_of_significand he hm

/-- **A number rounds to one double**: the intervals of different doubles are disjoint. -/
theorem rounds_unique {b c : Binary} {r : ℚ} (hb : b.Canonical) (hc : c.Canonical)
    (rb : b.Rounds r) (rc : c.Rounds r) :
    b.significand = c.significand ∧ b.exponent = c.exponent := by
  have apart {b c : Binary} (hb : b.Canonical) (hc : c.Canonical) (rb : b.Rounds r)
      (rc : c.Rounds r) (h : b.exponent < c.exponent ∨
        b.exponent = c.exponent ∧ b.significand < c.significand) : False := by
    obtain ⟨hle, hlt⟩ := high_le_low hb hc h
    rcases rb.2 with hr | ⟨hbe, hr⟩ <;> rcases rc.1 with hr' | ⟨hce, hr'⟩
    · linarith
    · linarith
    · linarith
    · linarith [hlt hbe hce]
  rcases lt_trichotomy b.exponent c.exponent with he | he | he
  · exact (apart hb hc rb rc (.inl he)).elim
  · rcases lt_trichotomy b.significand c.significand with hm | hm | hm
    · exact (apart hb hc rb rc (.inr ⟨he, hm⟩)).elim
    · exact ⟨hm, he⟩
    · exact (apart hc hb rc rb (.inr ⟨he.symm, hm⟩)).elim
  · exact (apart hc hb rc rb (.inl he)).elim

/-! ## As fractions -/

theorem zpow_eq_div (a : ℚ) (ha : a ≠ 0) (e : ℤ) : a ^ e = a ^ e.toNat / a ^ (-e).toNat := by
  rw [← zpow_natCast, ← zpow_natCast, ← zpow_sub₀ ha]
  congr 1
  omega

theorem interval_denominator_pos (b : Binary) : 0 < b.interval.denominator :=
  Nat.mul_pos (by decide) (Nat.pow_pos (by decide))

theorem interval_value_pos {b : Binary} (hm : 0 < b.significand) : 0 < b.interval.value :=
  Nat.mul_pos (by omega) (Nat.pow_pos (by decide))

theorem unit_eq (b : Binary) : b.unit =
    (Nat.pow 2 b.exponent.toNat : ℕ) * 4 / (b.interval.denominator : ℕ) := by
  have hup := zpow_eq_div 2 (by norm_num) b.exponent
  simp only [unit, interval, Nat.pow_eq]
  rw [hup]
  push_cast
  field_simp

theorem interval_value (b : Binary) :
    (b.interval.value : ℚ) / b.interval.denominator = b.value := by
  have := b.interval_denominator_pos
  rw [value, unit_eq]
  simp only [interval]
  push_cast
  ring

theorem interval_high (b : Binary) :
    (b.interval.high : ℚ) / b.interval.denominator = b.high := by
  rw [high, unit_eq]
  simp only [interval]
  push_cast
  ring

theorem interval_low {b : Binary} (hm : 0 < b.significand) :
    (b.interval.low : ℚ) / b.interval.denominator = b.low := by
  have h2 : 2 ≤ 4 * b.significand := by omega
  have h1 : 1 ≤ 4 * b.significand := by omega
  rw [low, unit_eq]
  simp only [interval]
  split <;> push_cast [h1, h2] <;> ring

theorem interval_holds_iff {b : Binary} (hm : 0 < b.significand) {num den : Nat} (hd : 0 < den) :
    b.interval.holds num den = true ↔ b.Rounds (num / den) := by
  have hd : (0 : ℚ) < den := by exact_mod_cast hd
  have hi : (0 : ℚ) < b.interval.denominator := by exact_mod_cast b.interval_denominator_pos
  have hclosed : b.interval.closed = true ↔ b.significand % 2 = 0 := by simp [interval]
  rw [Rounds, ← interval_low hm, ← interval_high, div_lt_div_iff₀ hi hd, div_lt_div_iff₀ hd hi,
    div_eq_div_iff hi.ne' hd.ne', div_eq_div_iff hd.ne' hi.ne', ← hclosed]
  simp only [Interval.holds, Bool.and_eq_true, Bool.or_eq_true, decide_eq_true_eq, beq_iff_eq]
  norm_cast

/-! ## Grids -/

theorem pow_eq_div (e : ℤ) : (10 : ℚ) ^ e = (Nat.pow 10 e.toNat : ℕ) / (Nat.pow 10 (-e).toNat : ℕ) := by
  rw [zpow_eq_div 10 (by norm_num)]
  simp only [Nat.pow_eq]
  push_cast
  rfl

theorem holds_iff {b : Binary} (hm : 0 < b.significand) (n : Nat) (e : ℤ) :
    b.interval.holds (n * Nat.pow 10 e.toNat) (Nat.pow 10 (-e).toNat) = true ↔
      b.Rounds (n * 10 ^ e) := by
  have hparts : 0 < Nat.pow 10 (-e).toNat := Nat.pow_pos (by decide)
  rw [interval_holds_iff hm hparts, pow_eq_div]
  push_cast
  rw [mul_div_assoc]

theorem rounds_of_onGrid? {b : Binary} (hm : 0 < b.significand) {e : ℤ} {n : Nat}
    (h : b.interval.onGrid? e = some n) : b.Rounds (n * 10 ^ e) := by
  rw [← holds_iff hm]
  simp only [Interval.onGrid?] at h
  split at h
  · cases h
  · next hc _ => cases h; exact hc
  · next _ hc => cases h; exact hc
  · next hc hc' =>
    split at h
    · cases h; exact hc
    · cases h; exact hc'
    · cases h
      split
      · exact hc
      · exact hc'

theorem onGrid?_isSome {b : Binary} (hm : 0 < b.significand) {e : ℤ}
    (h : b.Rounds (⌊b.value / 10 ^ e⌋₊ * 10 ^ e) ∨ b.Rounds ((⌊b.value / 10 ^ e⌋₊ + 1 : ℕ) * 10 ^ e)) :
    (b.interval.onGrid? e).isSome := by
  have hc : ⌊b.value / 10 ^ e⌋₊ = b.interval.value * Nat.pow 10 (-e).toNat /
      (b.interval.denominator * Nat.pow 10 e.toNat) := by
    rw [← interval_value, pow_eq_div, div_div_div_eq, ← Nat.floor_div_eq_div (K := ℚ)]
    push_cast
    rfl
  rw [hc, ← holds_iff hm, ← holds_iff hm] at h
  simp only [Interval.onGrid?]
  split
  · next h0 h1 =>
    rw [h0, h1] at h
    simp at h
  · rfl
  · rfl
  · split <;> rfl

/-! ## Seventeen digits -/

/-- The ends of the interval are 2^-54 of the double away, or more. -/
theorem value_mul_le {b : Binary} (hb : b.Canonical) :
    b.low ≤ b.value * (1 - 1 / 2 ^ 54) ∧ b.value * (1 + 1 / 2 ^ 54) ≤ b.high := by
  have hu := b.unit_pos
  have hm : (b.significand : ℚ) ≤ 2 ^ 53 := by exact_mod_cast hb.significand_lt.le
  constructor
  · have : (b.significand : ℚ) - (if b.narrowBelow then 1 / 4 else 1 / 2) ≤
        b.significand * (1 - 1 / 2 ^ 54) := by
      by_cases hn : b.narrowBelow = true
      · have hm : (b.significand : ℚ) = 2 ^ 52 := by exact_mod_cast (hb.narrow.mp hn).1
        rw [if_pos hn, hm]
        norm_num
      · rw [if_neg hn]
        linarith
    rw [value, mul_right_comm]
    exact mul_le_mul_of_nonneg_right this hu.le
  · have : (b.significand : ℚ) * (1 + 1 / 2 ^ 54) ≤ b.significand + 1 / 2 := by linarith
    rw [value, mul_right_comm]
    exact mul_le_mul_of_nonneg_right this hu.le

/-- On a grid of seventeen digits or more, the nearer neighbour of a double rounds to it. -/
theorem seventeen_rounds {b : Binary} (hb : b.Canonical) {e : ℤ} (he : 10 ^ 16 * 10 ^ e ≤ b.value) :
    b.Rounds (⌊b.value / 10 ^ e⌋₊ * 10 ^ e) ∨ b.Rounds ((⌊b.value / 10 ^ e⌋₊ + 1 : ℕ) * 10 ^ e) := by
  have hp : (0 : ℚ) < 10 ^ e := zpow_pos (by norm_num) e
  have hv : 0 < b.value := lt_of_lt_of_le (by positivity) he
  obtain ⟨hlow, hhigh⟩ := value_mul_le hb
  -- half a step of the grid is less than that distance
  have hstep : (10 : ℚ) ^ e / 2 < b.value * (1 / 2 ^ 54) := by linarith
  have hfloor : (⌊b.value / 10 ^ e⌋₊ : ℚ) * 10 ^ e ≤ b.value :=
    (le_div_iff₀ hp).mp (Nat.floor_le (by positivity))
  have hceil : b.value < (⌊b.value / 10 ^ e⌋₊ + 1) * 10 ^ e :=
    (div_lt_iff₀ hp).mp (Nat.lt_floor_add_one _)
  push_cast
  by_cases hnear : b.value - ⌊b.value / 10 ^ e⌋₊ * 10 ^ e ≤ 10 ^ e / 2
  · exact .inl ⟨.inl (by linarith), .inl (by linarith)⟩
  · exact .inr ⟨.inl (by linarith), .inl (by linarith)⟩

/-! ## The place of the leading digit -/

/-- The estimate of a decimal logarithm, two places less, for the powers of two that are met. -/
theorem estimate_powers : ∀ n : Nat, n < 2200 →
    Nat.pow 10 (((n : ℤ) - 1100) * 30103 / 100000 - 2).toNat * Nat.pow 2 (-((n : ℤ) - 1100)).toNat ≤
      Nat.pow 2 ((n : ℤ) - 1100).toNat *
        Nat.pow 10 (-(((n : ℤ) - 1100) * 30103 / 100000 - 2)).toNat := by
  decide +kernel

theorem ten_pow_estimate_le {t : ℤ} (hlow : -1100 ≤ t) (hhigh : t < 1100) :
    (10 : ℚ) ^ (t * 30103 / 100000 - 2) ≤ 2 ^ t := by
  have h := estimate_powers (t + 1100).toNat (by omega)
  rw [show (((t + 1100).toNat : ℕ) : ℤ) - 1100 = t by omega] at h
  simp only [Nat.pow_eq] at h
  rw [zpow_eq_div 10 (by norm_num), zpow_eq_div 2 (by norm_num),
    div_le_div_iff₀ (by positivity) (by positivity)]
  exact_mod_cast h

/-- The binary logarithm of a double, from those of numerator and denominator. -/
def bits (b : Binary) : ℤ := (b.interval.value.log2 : ℤ) - b.interval.denominator.log2

theorem two_pow_bits_le {b : Binary} (hm : 0 < b.significand) : (2 : ℚ) ^ (b.bits - 1) ≤ b.value := by
  have hv := interval_value_pos hm
  have hd := b.interval_denominator_pos
  have hlow : ((2 ^ b.interval.value.log2 : ℕ) : ℚ) ≤ b.interval.value :=
    Nat.cast_le.mpr (Nat.log2_self_le hv.ne')
  have hhigh : (b.interval.denominator : ℚ) ≤ (2 ^ (b.interval.denominator.log2 + 1) : ℕ) :=
    Nat.cast_le.mpr Nat.lt_log2_self.le
  rw [← interval_value, bits, sub_sub, zpow_sub₀ (by norm_num)]
  refine div_le_div₀ (by positivity) ?_ (by exact_mod_cast hd) ?_
  · exact_mod_cast hlow
  · exact_mod_cast hhigh

theorem bits_bounds {b : Binary} (hb : b.Canonical) (hm : 0 < b.significand) :
    -1077 ≤ b.bits ∧ b.bits ≤ 1027 := by
  have hlt := hb.significand_lt
  have hexp := hb.le_exponent
  have hexp' := hb.exponent_le
  have hv : b.interval.value.log2 < 1028 := by
    rw [Nat.log2_lt (interval_value_pos hm).ne']
    calc b.interval.value ≤ 2 ^ 55 * 2 ^ 971 :=
          Nat.mul_le_mul (by omega) (Nat.pow_le_pow_right (by decide) (by omega))
      _ < 2 ^ 1028 := by decide +kernel
  have hd : b.interval.denominator.log2 < 1078 := by
    rw [Nat.log2_lt b.interval_denominator_pos.ne']
    calc b.interval.denominator ≤ 4 * 2 ^ 1074 :=
          Nat.mul_le_mul_left _ (Nat.pow_le_pow_right (by decide) (by omega))
      _ < 2 ^ 1078 := by decide +kernel
  unfold bits
  omega

/-- The scale is no more than one place too large, and the digits before it none too few. -/
theorem pow_scale_le {b : Binary} (hb : b.Canonical) (hm : 0 < b.significand) :
    (10 : ℚ) ^ (b.interval.scale - 1) ≤ b.value := by
  have hd : (0 : ℚ) < b.interval.denominator := by exact_mod_cast b.interval_denominator_pos
  have below (k : ℤ) : b.interval.value * Nat.pow 10 (-k).toNat <
      Nat.pow 10 k.toNat * b.interval.denominator ↔ b.value < 10 ^ k := by
    have hp : (0 : ℚ) < (Nat.pow 10 (-k).toNat : ℕ) := by exact_mod_cast Nat.pow_pos (by decide)
    rw [← interval_value, pow_eq_div, div_lt_div_iff₀ hd hp]
    norm_cast
  have hbits := bits_bounds hb hm
  have hfirst : (10 : ℚ) ^ ((b.bits - 1) * 30103 / 100000 - 1 - 1) ≤ b.value := by
    rw [sub_sub]
    exact (ten_pow_estimate_le (by omega) (by omega)).trans (two_pow_bits_le hm)
  have hscale : b.interval.scale = (((List.range 6).map fun (k : ℕ) =>
      (b.bits - 1) * 30103 / 100000 - 1 + (k : ℤ)).find? fun k => decide (b.value < 10 ^ k)).getD
        ((b.bits - 1) * 30103 / 100000) := by
    simp only [Interval.scale, below, bits]
  rw [hscale, List.find?_map]
  cases hf : (List.range 6).find? ((fun k => decide (b.value < 10 ^ k)) ∘ fun (k : ℕ) =>
      (b.bits - 1) * 30103 / 100000 - 1 + (k : ℤ)) with
  | none =>
    have := List.find?_eq_none.mp hf 0 (by simp)
    simpa using this
  | some j =>
    obtain ⟨-, -, hj⟩ := List.find?_range_eq_some.mp hf
    simp only [Option.map_some, Option.getD_some]
    rcases j with _ | j
    · simpa using hfirst
    · have := hj j (by omega)
      simp only [Function.comp_apply, Bool.not_eq_true', decide_eq_false_iff_not, not_lt] at this
      rwa [show (b.bits - 1) * 30103 / 100000 - 1 + ((j + 1 : ℕ) : ℤ) - 1 =
        (b.bits - 1) * 30103 / 100000 - 1 + (j : ℤ) by push_cast; omega]

/-- **The shortest digits round to the double**. -/
theorem shortest_rounds {b : Binary} (hb : b.Canonical) (hm : 0 < b.significand) :
    ∃ (n : ℕ) (e : ℤ), b.shortest = Digits.ofScaled n e ∧ b.Rounds (n * 10 ^ e) := by
  have hlast : (b.interval.onGrid? (b.interval.scale - ((16 : ℕ) + 1))).isSome := by
    refine onGrid?_isSome hm (seventeen_rounds hb ?_)
    have := pow_scale_le hb hm
    rw [← zpow_natCast, ← zpow_add₀ (by norm_num)]
    rwa [show ((16 : ℕ) : ℤ) + (b.interval.scale - ((16 : ℕ) + 1)) = b.interval.scale - 1 by
      push_cast; omega]
  have hfound : ((List.range 17).findSome? fun (n : ℕ) =>
      (b.interval.onGrid? (b.interval.scale - ((n : ℤ) + 1))).map fun c =>
        Digits.ofScaled c (b.interval.scale - ((n : ℤ) + 1))).isSome := by
    refine List.findSome?_isSome_iff.mpr ⟨16, by simp, ?_⟩
    simpa using hlast
  obtain ⟨d, hd⟩ := Option.isSome_iff_exists.mp hfound
  obtain ⟨n, -, hn⟩ := List.exists_of_findSome?_eq_some hd
  obtain ⟨c, hc, rfl⟩ := Option.map_eq_some_iff.mp hn
  refine ⟨c, _, ?_, rounds_of_onGrid? hm hc⟩
  simp only [shortest, hd, Option.getD_some]

end Binary

end Joinery.Decimal
