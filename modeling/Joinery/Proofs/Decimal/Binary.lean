/-
A finite double is its sign and its magnitude.

The magnitudes of doubles are m · 2^q in one canonical form each (`Canonical`),
and no two doubles of one sign share theirs (`eq_of_magnitude`).
-/
import Joinery.Decimal.Binary
import Mathlib

namespace Joinery.Decimal

/-! ## The bits -/

theorem isNegative_iff (x : Float) : isNegative x = true ↔ 2 ^ 63 ≤ x.toBits.toNat := by
  have := x.toBits.toNat_lt
  simp only [isNegative, beq_iff_eq, ← UInt64.toNat_inj, UInt64.toNat_shiftRight,
    UInt64.reduceToNat, Nat.reduceMod, Nat.shiftRight_eq_div_pow]
  omega

/-- The exponent bits. -/
def biased (x : Float) : Nat := x.toBits.toNat / 2 ^ 52 % 2 ^ 11

/-- The bits after the leading one of the significand. -/
def fraction (x : Float) : Nat := x.toBits.toNat % 2 ^ 52

theorem toNat_biased (x : Float) : ((x.toBits >>> 52) &&& 0x7FF).toNat = biased x := by
  simp only [UInt64.toNat_and, UInt64.toNat_shiftRight, UInt64.reduceToNat, Nat.reduceMod,
    Nat.shiftRight_eq_div_pow, biased]
  exact Nat.and_two_pow_sub_one_eq_mod _ 11

theorem toNat_fraction (x : Float) : (x.toBits &&& 0xFFFFFFFFFFFFF).toNat = fraction x := by
  simp only [UInt64.toNat_and, UInt64.reduceToNat, fraction]
  exact Nat.and_two_pow_sub_one_eq_mod _ 52

theorem isFinite_iff (x : Float) : isFinite x = true ↔ biased x ≠ 0x7FF := by
  simp only [isFinite, bne_iff_ne, ne_eq, ← UInt64.toNat_inj, toNat_biased, UInt64.reduceToNat]

theorem biased_lt (x : Float) : biased x < 2 ^ 11 := Nat.mod_lt _ (by decide)

theorem fraction_lt (x : Float) : fraction x < 2 ^ 52 := Nat.mod_lt _ (by decide)

theorem magnitude_subnormal {x : Float} (h : biased x = 0) :
    magnitude x = ⟨fraction x, -1074, false⟩ := by
  simp only [magnitude, toNat_biased, toNat_fraction, h, if_pos]

theorem magnitude_normal {x : Float} (h : biased x ≠ 0) :
    magnitude x = ⟨2 ^ 52 + fraction x, biased x - 1075,
      decide (fraction x = 0) && decide (1 < biased x)⟩ := by
  simp only [magnitude, toNat_biased, toNat_fraction, h, if_false]
  rfl

/-! ## Canonical magnitudes -/

/-- The form m · 2^q in which a double is held: m has 53 bits unless q is the least exponent. -/
structure Binary.Canonical (b : Binary) : Prop where
  significand_lt : b.significand < 2 ^ 53
  le_exponent : -1074 ≤ b.exponent
  exponent_le : b.exponent ≤ 971
  normal : -1074 < b.exponent → 2 ^ 52 ≤ b.significand
  narrow : b.narrowBelow = true ↔ b.significand = 2 ^ 52 ∧ -1074 < b.exponent

theorem magnitude_canonical {x : Float} (h : isFinite x = true) : (magnitude x).Canonical := by
  have hfinite := (isFinite_iff x).mp h
  have hb := biased_lt x
  have hf := fraction_lt x
  by_cases h0 : biased x = 0
  · rw [magnitude_subnormal h0]
    constructor <;> simp
    omega
  · rw [magnitude_normal h0]
    constructor <;> simp
    all_goals omega

theorem eq_of_magnitude {x y : Float} (hs : isNegative x = isNegative y)
    (hm : (magnitude x).significand = (magnitude y).significand)
    (he : (magnitude x).exponent = (magnitude y).exponent) : x = y := by
  rw [← Float.toBits_inj, ← UInt64.toNat_inj]
  have hx := x.toBits.toNat_lt
  have hy := y.toBits.toNat_lt
  have hs : 2 ^ 63 ≤ x.toBits.toNat ↔ 2 ^ 63 ≤ y.toBits.toNat := by
    rw [← isNegative_iff, ← isNegative_iff, hs]
  have hfx := fraction_lt x
  have hfy := fraction_lt y
  have hbf : biased x = biased y ∧ fraction x = fraction y := by
    by_cases h0x : biased x = 0 <;> by_cases h0y : biased y = 0 <;>
      simp only [magnitude_subnormal, magnitude_normal, h0x, h0y, ne_eq, not_false_eq_true] at hm he <;>
      omega
  unfold biased fraction at hbf
  omega

end Joinery.Decimal
