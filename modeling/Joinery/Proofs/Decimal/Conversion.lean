/-
Which doubles are integers, and which integers are doubles.

Arithmetic on doubles unpacks them into sign, significand and exponent, rounds
and packs the result. The parts are those of `magnitude` (`unpack_eq`), and
rounding leaves alone what has a canonical form already (`round_exact`). So
the conversion of an integer gives the double of that value where there is one
(`ofInt_integer?`), as there is up to 2^53 (`integer?_ofInt`).
-/
import Joinery.Proofs.Decimal.Shortest

namespace Joinery.Decimal

open Float.Model Float.Model.UnpackedFloat

/-! ## Unpacking -/

theorem toNat_unpackExponent (x : Float) :
    (@unpackExponent .binary64 x.toModel.toBits.toBitVec).toNat = biased x := by
  rw [unpackExponent_def, BitVec.extractLsb'_toNat, Nat.shiftRight_eq_div_pow]
  rfl

theorem toNat_unpackMantissa (x : Float) :
    (@unpackMantissa .binary64 x.toModel.toBits.toBitVec).toNat = fraction x := by
  rw [unpackMantissa_def, BitVec.extractLsb'_toNat, Nat.shiftRight_zero]
  rfl

/-- The sign of a double, -0.0 being negative. -/
def sign (x : Float) : Sign := if isNegative x then .negative else .positive

theorem unpackSign_eq (x : Float) :
    Sign.ofBitVec (@unpackSign .binary64 x.toModel.toBits.toBitVec) = sign x := by
  have hlt := x.toBits.toNat_lt
  have hn : (@unpackSign .binary64 x.toModel.toBits.toBitVec).toNat =
      x.toBits.toNat / 2 ^ 63 % 2 := by
    rw [unpackSign_def, BitVec.extractLsb'_toNat, Nat.shiftRight_eq_div_pow]
    rfl
  simp only [sign, Sign.ofBitVec, isNegative_iff, ← BitVec.toNat_inj, hn, BitVec.toNat_ofNat]
  by_cases h : 2 ^ 63 ≤ x.toBits.toNat
  · rw [if_pos h, if_neg (by omega)]
  · rw [if_neg h, if_pos (by omega)]

theorem toNat_one_append (v : BitVec 52) : (1#1 ++ v).toNat = 2 ^ 52 + v.toNat := by
  rw [BitVec.toNat_append, ← Nat.shiftLeft_add_eq_or_of_lt v.isLt]
  rfl

theorem finite_congr {s : Sign} {m n : Nat} {d e : Int} {hm : 0 < m} {hn : 0 < n} (h : m = n)
    (he : d = e) : UnpackedFloat.finite s m d hm = .finite s n e hn := by
  subst h he
  rfl

theorem unpack_eq {x : Float} (h : isFinite x = true) : x.toModel.unpack =
    if hm : (magnitude x).significand = 0 then .zero (sign x)
    else .finite (sign x) (magnitude x).significand (magnitude x).exponent (Nat.pos_of_ne_zero hm) := by
  have hb := toNat_unpackExponent x
  have hf := toNat_unpackMantissa x
  have hfinite := (isFinite_iff x).mp h
  have hall : @unpackExponent .binary64 x.toModel.toBits.toBitVec ≠ -1#11 := fun h =>
    hfinite (hb ▸ congrArg BitVec.toNat h)
  unfold Float.Model.unpack UnpackedFloat.unpack
  rw [if_neg hall, unpackSign_eq]
  by_cases h0 : biased x = 0
  · have hzero : @unpackExponent .binary64 x.toModel.toBits.toBitVec = 0#11 :=
      BitVec.toNat_inj.mp (hb.trans h0)
    rw [if_pos hzero]
    simp only [magnitude_subnormal h0]
    by_cases hf0 : fraction x = 0
    · have hzero : @unpackMantissa .binary64 x.toModel.toBits.toBitVec = 0#52 :=
        BitVec.toNat_inj.mp (hf.trans hf0)
      rw [dif_pos hzero, dif_pos hf0]
    · rw [dif_neg fun h => hf0 (hf ▸ congrArg BitVec.toNat h), dif_neg hf0]
      exact finite_congr hf (by rw [hb, h0]; rfl)
  · have hnz : @unpackExponent .binary64 x.toModel.toBits.toBitVec ≠ 0#11 := fun h =>
      h0 (hb ▸ congrArg BitVec.toNat h)
    rw [if_neg hnz]
    simp only [magnitude_normal h0]
    rw [dif_neg (by omega)]
    exact finite_congr (by rw [toNat_one_append, hf]) (by rw [hb]; rfl)

/-! ## Packing -/

/-- A significand of 53 bits and an exponent in range. -/
structure Normal (m : Nat) (e : Int) : Prop where
  le_significand : 2 ^ 52 ≤ m
  significand_lt : m < 2 ^ 53
  le_exponent : -1074 ≤ e
  exponent_le : e ≤ 971

variable {m : Nat} {e : Int}

theorem Normal.pos (h : Normal m e) : 0 < m := Nat.lt_of_lt_of_le (by decide) h.le_significand

theorem log2_mul_two_pow {n : Nat} (h : n ≠ 0) (k : Nat) : (n * 2 ^ k).log2 = n.log2 + k := by
  induction k with
  | zero => rw [Nat.pow_zero, Nat.mul_one, Nat.add_zero]
  | succ k ih =>
    rw [Nat.pow_succ', Nat.mul_left_comm, Nat.log2_two_mul (by positivity), ih, Nat.add_assoc]

theorem Normal.log2 (h : Normal m e) : m.log2 = 52 :=
  (Nat.log2_eq_iff h.pos.ne').mpr ⟨h.le_significand, h.significand_lt⟩

theorem pack_normal (h : Normal m e) (s : Sign) :
    UnpackedFloat.pack .binary64 (.finite s m e h.pos) =
      packComponents .binary64 s (BitVec.ofNat 11 (e + 1075).toNat) (BitVec.ofNat 52 m) := by
  have := h.le_exponent
  have := h.exponent_le
  have hbias : (e + (Format.binary64.exponentBias : Int) +
      (Format.binary64.mantissaBitsWithoutImplicit : Int)).toNat = (e + 1075).toNat := by
    show (e + 1023 + 52).toNat = _
    omega
  simp only [UnpackedFloat.pack, hbias, h.log2]
  rw [if_neg (by omega), if_pos (by decide)]

theorem unpack_pack (h : Normal m e) (s : Sign) :
    (Float.Model.pack (.finite s m e h.pos)).unpack = .finite s m e h.pos := by
  have hlo := h.le_significand
  have hhi := h.significand_lt
  have helo := h.le_exponent
  have hehi := h.exponent_le
  have hexp : (BitVec.ofNat 11 (e + 1075).toNat).toNat = (e + 1075).toNat := by
    rw [BitVec.toNat_ofNat, Nat.mod_eq_of_lt (by omega)]
  have hall : BitVec.ofNat 11 (e + 1075).toNat ≠ -1#11 := fun h => by
    have h : _ = 2047 := congrArg BitVec.toNat h
    omega
  have hzero : BitVec.ofNat 11 (e + 1075).toNat ≠ 0#11 := fun h => by
    have h : _ = 0 := congrArg BitVec.toNat h
    omega
  show UnpackedFloat.unpack .binary64 (UnpackedFloat.pack .binary64 _) = _
  rw [pack_normal h, UnpackedFloat.unpack]
  simp only [unpackExponent_packComponents, unpackMantissa_packComponents,
    unpackSign_packComponents, Sign.ofBitVec_toBitVec]
  rw [if_neg hall, if_neg hzero]
  refine finite_congr ?_ ?_
  · rw [toNat_one_append, BitVec.toNat_ofNat]
    omega
  · rw [hexp]
    show ((e + 1075).toNat : Int) - (1023 + 52) = e
    omega

/-! ## Rounding -/

theorem shift_exact (m k : Nat) :
    ((⟨m * 2 ^ k, false, false⟩ : ExtendedMantissa) >>> k) = ⟨m, false, false⟩ := by
  show k.repeat ExtendedMantissa.shiftRightOne _ = _
  induction k generalizing m with
  | zero => rw [Nat.pow_zero, Nat.mul_one]; rfl
  | succ k ih =>
    rw [Nat.repeat, Nat.pow_succ', ← Nat.mul_assoc, ih]
    simp [ExtendedMantissa.shiftRightOne]

theorem shiftToTargetExponent_exact (h : Normal m e) (k : Nat) :
    shiftToTargetExponent .binary64 (m * 2 ^ k) (e - k) .exact = (⟨m, false, false⟩, e) := by
  have := h.le_exponent
  have htarget : Format.binary64.targetExponent (totalExponent (m * 2 ^ k) (e - k)) = e := by
    rw [totalExponent, log2_mul_two_pow h.pos.ne', h.log2]
    show max (((52 + k : Nat) : Int) + 1 + (e - k) - 53) (-1074) = e
    omega
  have hshift : (e - (e - k)).toNat = k := by omega
  simp only [shiftToTargetExponent, htarget, shiftToExponent, hshift,
    ExtendedMantissa.ofMantissaAndAccuracy, shift_exact]
  rw [Int.sub_add_cancel]

theorem round_exact (h : Normal m e) (s : Sign) (k : Nat) :
    roundWithAccuracy .binary64 s (m * 2 ^ k) (e - k) .exact = .finite s m e h.pos := by
  have h2 := shiftToTargetExponent_exact h 0
  rw [Nat.pow_zero, Nat.mul_one, Int.natCast_zero, Int.sub_zero] at h2
  have hm : m ≠ 0 := h.pos.ne'
  simp only [roundWithAccuracy, shiftToTargetExponent_exact h k, ExtendedMantissa.roundedMantissa,
    ExtendedMantissa.accuracy, Accuracy.roundToNearestEven, h2, hm, dif_neg, not_false_eq_true]

/-! ## Natural numbers -/

/-- The double m · 2^e. -/
def ofNormal (h : Normal m e) (s : Sign) : Float := .ofModel (.pack (.finite s m e h.pos))

/-- One of 53 bits, before it is multiplied by one. -/
theorem toFloat_eq {n : Nat} (h : Normal m e) (hn : n < 2 ^ 53) (hm : m = n * 2 ^ (-e).toNat)
    (he : e ≤ 0) : n.toUInt64.toFloat = ofNormal h .positive := by
  have hpos : 0 < n := Nat.pos_of_ne_zero fun h0 => h.pos.ne' (by rw [hm, h0, Nat.zero_mul])
  have hlog : n.log2 + (-e).toNat = 52 := by
    rw [← log2_mul_two_pow hpos.ne', ← hm, h.log2]
  have htoNat : n.toUInt64.toNat = n := by
    rw [UInt64.toNat_ofNat']
    omega
  have htarget : Format.binary64.targetExponent (totalExponent n 0) = e := by
    show max ((n.log2 : Int) + 1 + 0 - 53) (-1074) = e
    omega
  have hround : UnpackedFloat.round .binary64 .positive n 0 = .finite .positive m e h.pos := by
    have hexact := round_exact h .positive 0
    rw [Nat.pow_zero, Nat.mul_one, Int.natCast_zero, Int.sub_zero] at hexact
    simp only [UnpackedFloat.round, htarget, decreaseExponent, Int.zero_sub, Nat.shiftLeft_eq, ← hm]
    rw [show -((-e).toNat : Int) = e by omega, hexact]
  show Float.ofModel (.pack (UnpackedFloat.normalize .binary64 (n.toUInt64.toNat : Int) 0 .positive)) = _
  rw [htoNat, UnpackedFloat.normalize]
  have hcompare : compare (n : Int) 0 = .gt := by
    rw [Int.compare_eq_gt]
    omega
  simp only [hcompare, Int.toNat_natCast, hround]
  rfl

theorem mul_one_eq (h : Normal m e) :
    ofNormal h .positive * Float.ofBits 0x3FF0000000000000 = ofNormal h .positive := by
  have hone : (Float.ofBits 0x3FF0000000000000).toModel.unpack =
      .finite .positive (2 ^ 52) (-52) (by decide) := rfl
  show Float.ofModel (.pack (UnpackedFloat.mul .binary64 (Float.Model.pack _).unpack _)) = _
  rw [unpack_pack h, hone]
  show Float.ofModel (.pack (roundWithAccuracy .binary64 .positive (m * 2 ^ 52) (e - (52 : Nat)) .exact)) = _
  rw [round_exact h]
  rfl

/-- One of more than 53 bits is rounded. -/
theorem ofNat_large {n : Nat} (hn : ¬ n < 2 ^ 53) : Float.ofNat n =
    .ofModel (.pack (roundWithAccuracy .binary64 .positive (n * 2 ^ 53) (-53) .exact)) := by
  have hrange : ¬ (0 : Int) < -((2 : Int) ^ 11 + (n.log2 : Int)) := by omega
  show Float.ofScientific n false 0 = _
  unfold Float.ofScientific
  rw [dif_neg (by omega)]
  simp only [Bool.false_eq_true, if_false]
  show Float.ofModel (.pack (UnpackedFloat.ofScientific .binary64 n 0)) = _
  rw [UnpackedFloat.ofScientific, dif_neg (by omega), if_neg (by decide), if_neg hrange,
    if_pos (by decide)]
  show Float.ofModel (.pack (roundWithAccuracy .binary64 .positive (n <<< 53 * 1) (-53 + 0) .exact)) = _
  rw [Nat.mul_one, Nat.shiftLeft_eq, Int.add_zero]

/-- **An integer with a canonical form is converted to that.** -/
theorem ofNat_eq {n : Nat} (h : Normal m e) (hn : m * 2 ^ e.toNat = n * 2 ^ (-e).toNat) :
    Float.ofNat n = ofNormal h .positive := by
  have hlo := h.le_significand
  have hhi := h.significand_lt
  by_cases hsmall : n < 2 ^ 53
  · have he : e ≤ 0 := by
      by_contra he
      have hdown : (-e).toNat = 0 := by omega
      have hup : 2 ^ 1 ≤ 2 ^ e.toNat := Nat.pow_le_pow_right (by decide) (by omega)
      rw [hdown, Nat.pow_zero, Nat.mul_one] at hn
      have := Nat.mul_le_mul hlo hup
      omega
    have hup : e.toNat = 0 := by omega
    rw [hup, Nat.pow_zero, Nat.mul_one] at hn
    show Float.ofScientific n false 0 = _
    unfold Float.ofScientific
    rw [dif_pos ⟨hsmall, by decide⟩]
    simp only [Bool.false_eq_true, if_false]
    rw [toFloat_eq h hsmall hn he]
    exact mul_one_eq h
  · have he : 0 < e := by
      by_contra he
      have hup : e.toNat = 0 := by omega
      rw [hup, Nat.pow_zero, Nat.mul_one] at hn
      have := Nat.le_mul_of_pos_right n (Nat.two_pow_pos (-e).toNat)
      omega
    have hdown : (-e).toNat = 0 := by omega
    rw [hdown, Nat.pow_zero, Nat.mul_one] at hn
    have hexponent : (-53 : Int) = e - (e.toNat + 53 : Nat) := by omega
    rw [ofNat_large hsmall, hexponent, ← hn, Nat.mul_assoc, ← Nat.pow_add, round_exact h]
    rfl

/-! ## Integers -/

/-- The sign of an integer, that of zero being positive. -/
def signOf (n : Int) : Sign := if n < 0 then .negative else .positive

theorem neg_ofNormal (h : Normal m e) (s : Sign) : (ofNormal h s).neg = ofNormal h (-s) := by
  show Float.ofModel (.pack (UnpackedFloat.neg (Float.Model.pack (.finite s m e h.pos)).unpack)) = _
  rw [unpack_pack h]
  rfl

theorem ofInt_eq {n : Int} (h : Normal m e) (hn : m * 2 ^ e.toNat = n.natAbs * 2 ^ (-e).toNat) :
    Float.ofInt n = ofNormal h (signOf n) := by
  cases n with
  | ofNat n => exact ofNat_eq h hn
  | negSucc n =>
    have hneg : signOf (Int.negSucc n) = -.positive := if_pos (Int.negSucc_lt_zero n)
    rw [hneg, ← neg_ofNormal, ← ofNat_eq h hn]
    rfl

theorem biased_ofNormal (h : Normal m e) (s : Sign) : biased (ofNormal h s) = (e + 1075).toNat := by
  have := h.le_exponent
  have := h.exponent_le
  rw [← toNat_unpackExponent]
  show (unpackExponent (UnpackedFloat.pack .binary64 _)).toNat = _
  rw [pack_normal h, unpackExponent_packComponents, BitVec.toNat_ofNat]
  exact Nat.mod_eq_of_lt (show _ < 2 ^ 11 by omega)

theorem isFinite_ofNormal (h : Normal m e) (s : Sign) : isFinite (ofNormal h s) = true := by
  have := h.exponent_le
  rw [isFinite_iff, biased_ofNormal]
  omega

theorem magnitude_ofNormal (h : Normal m e) (s : Sign) : sign (ofNormal h s) = s ∧
    (magnitude (ofNormal h s)).significand = m ∧ (magnitude (ofNormal h s)).exponent = e := by
  have hunpack := unpack_eq (isFinite_ofNormal h s)
  rw [show (ofNormal h s).toModel.unpack = _ from unpack_pack h s] at hunpack
  split at hunpack
  · cases hunpack
  · obtain ⟨hs, hm, he⟩ := UnpackedFloat.finite.inj hunpack
    exact ⟨hs.symm, hm.symm, he.symm⟩

theorem sign_eq_negative_iff (x : Float) : sign x = .negative ↔ isNegative x = true := by
  unfold sign
  split <;> simp_all

theorem eq_ofNormal {x : Float} (h : Normal (magnitude x).significand (magnitude x).exponent) :
    x = ofNormal h (sign x) := by
  obtain ⟨hs, hm, he⟩ := magnitude_ofNormal h (sign x)
  refine eq_of_magnitude ?_ hm.symm he.symm
  rw [Bool.eq_iff_iff, ← sign_eq_negative_iff, ← sign_eq_negative_iff, hs]

theorem whole?_eq_some_iff {b : Binary} {n : Nat} : b.whole? = some n ↔
    b.significand * 2 ^ b.exponent.toNat = n * 2 ^ (-b.exponent).toNat := by
  have hup : 0 < 2 ^ b.exponent.toNat := Nat.two_pow_pos _
  have hdown : 0 < 2 ^ (-b.exponent).toNat := Nat.two_pow_pos _
  simp only [Binary.whole?, Nat.pow_eq]
  rcases Int.le_total 0 b.exponent with he | he
  · have h : (-b.exponent).toNat = 0 := by omega
    simp [h, Nat.mod_one]
  · have h : b.exponent.toNat = 0 := by omega
    rw [h, Nat.pow_zero, Nat.mul_one, Nat.mul_one]
    constructor
    · intro hn
      split at hn
      · next hmod => cases hn; exact (Nat.div_mul_cancel (Nat.dvd_of_mod_eq_zero hmod)).symm
      · cases hn
    · intro hn
      rw [hn, Nat.mul_mod_left, if_pos rfl, Nat.mul_div_cancel _ hdown]

theorem integer?_eq_some_iff {x : Float} {n : Int} : integer? x = some n ↔ isFinite x = true ∧
    (magnitude x).whole? = some n.natAbs ∧ (n ≠ 0 → (isNegative x = true ↔ n < 0)) := by
  unfold integer?
  split
  · next hfinite =>
    simp only [Option.map_eq_some_iff, Option.bind_eq_bind, Option.bind_eq_some_iff,
      Option.pure_def, Option.some.injEq]
    constructor
    · rintro ⟨_, ⟨k, hk, rfl⟩, rfl⟩
      cases hs : isNegative x
      · exact ⟨hfinite, by simpa using hk, by simp⟩
      · exact ⟨hfinite, by simpa using hk, by simp; omega⟩
    · rintro ⟨-, hk, hs⟩
      refine ⟨_, ⟨_, hk, rfl⟩, ?_⟩
      cases hsx : isNegative x
      · have hn : ¬ n < 0 := fun h => by simpa [hsx] using (hs (by omega)).mpr h
        simp only [Bool.false_eq_true, if_false]
        omega
      · have hn : n ≤ 0 := Int.not_lt.mp fun h => by have := (hs (by omega)).mp hsx; omega
        simp only [if_true]
        omega
  · next hfinite => simp [hfinite]

theorem normal_of_whole {x : Float} (hx : isFinite x = true) {n : Nat} (hn : n ≠ 0)
    (h : (magnitude x).whole? = some n) : Normal (magnitude x).significand (magnitude x).exponent := by
  obtain ⟨hlt, hlo, hhi, hnormal, -⟩ := magnitude_canonical hx
  refine ⟨?_, hlt, hlo, hhi⟩
  by_contra hsmall
  -- the least exponent, and no multiple of 2^1074 in the significand
  have he : (magnitude x).exponent = -1074 := by
    by_contra he
    exact hsmall (hnormal (by omega))
  have hup : (magnitude x).exponent.toNat = 0 := by omega
  have hdown : 2 ^ 53 ≤ 2 ^ (-(magnitude x).exponent).toNat :=
    Nat.pow_le_pow_right (by decide) (by omega)
  rw [whole?_eq_some_iff, hup, Nat.pow_zero, Nat.mul_one] at h
  have := Nat.le_mul_of_pos_left (2 ^ (-(magnitude x).exponent).toNat) (Nat.pos_of_ne_zero hn)
  omega

theorem ne_nan_of_isFinite {x : Float} (h : isFinite x = true) : x ≠ Float.nan := by
  rintro rfl
  revert h
  decide +kernel

/-- **Conversion of an integer that a double is** gives that double, or the other zero. -/
theorem ofInt_integer? {x : Float} {n : Int} (h : integer? x = some n) :
    (Float.ofInt n == x) = true := by
  obtain ⟨hx, hwhole, hsign⟩ := integer?_eq_some_iff.mp h
  by_cases hn : n = 0
  · have hm : (magnitude x).significand = 0 := by
      rw [whole?_eq_some_iff, hn, Int.natAbs_zero, Nat.zero_mul] at hwhole
      exact (Nat.mul_eq_zero.mp hwhole).resolve_right (Nat.two_pow_pos _).ne'
    have hunpack := unpack_eq hx
    rw [dif_pos hm] at hunpack
    show UnpackedFloat.beq (Float.ofInt n).toModel.unpack x.toModel.unpack = true
    rw [hunpack, hn]
    rfl
  · have hnormal := normal_of_whole hx (Int.natAbs_ne_zero.mpr hn) hwhole
    have hs : sign x = signOf n := by simp only [sign, signOf, hsign hn]
    rw [ofInt_eq hnormal (whole?_eq_some_iff.mp hwhole), ← hs, ← eq_ofNormal hnormal,
      Float.beq_self_iff]
    exact ne_nan_of_isFinite hx

/-- An integer of up to 53 bits has a canonical form, and so has 2^53. -/
theorem exists_normal {n : Nat} (hpos : 0 < n) (hle : n ≤ 2 ^ 53) :
    ∃ m e, ∃ _ : Normal m e, m * 2 ^ e.toNat = n * 2 ^ (-e).toNat := by
  by_cases hlt : n < 2 ^ 53
  · have hlog : n.log2 < 53 := (Nat.log2_lt hpos.ne').mpr hlt
    have hm := log2_mul_two_pow hpos.ne' (52 - n.log2)
    rw [show n.log2 + (52 - n.log2) = 52 by omega, Nat.log2_eq_iff (by positivity)] at hm
    refine ⟨n * 2 ^ (52 - n.log2), (n.log2 : Int) - 52, ⟨hm.1, hm.2, by omega, by omega⟩, ?_⟩
    rw [show ((n.log2 : Int) - 52).toNat = 0 by omega,
      show (-((n.log2 : Int) - 52)).toNat = 52 - n.log2 by omega, Nat.pow_zero, Nat.mul_one]
  · exact ⟨2 ^ 52, 1, ⟨by decide, by decide, by decide, by decide⟩, by
      rw [show n = 2 ^ 53 by omega]; rfl⟩

/-- **Conversion is exact up to 2^53.** -/
theorem integer?_ofInt {n : Int} (h : n.natAbs ≤ 2 ^ 53) : integer? (Float.ofInt n) = some n := by
  by_cases hn : n = 0
  · rw [hn]
    decide +kernel
  · obtain ⟨m, e, hnormal, hm⟩ := exists_normal (Int.natAbs_pos.mpr hn) h
    rw [ofInt_eq hnormal hm, integer?_eq_some_iff]
    obtain ⟨hs, hsig, hexp⟩ := magnitude_ofNormal hnormal (signOf n)
    refine ⟨isFinite_ofNormal hnormal _, ?_, fun _ => ?_⟩
    · rw [whole?_eq_some_iff, hsig, hexp, hm]
    · rw [← sign_eq_negative_iff, hs]
      unfold signOf
      split <;> simp_all

/-! ## Not a number -/

theorem pack_ne_nan {u : UnpackedFloat} (h : u ≠ .notANumber) :
    UnpackedFloat.pack .binary64 u ≠ packedNaN .binary64 := by
  have infinity (s : Sign) : packedInfinity .binary64 s ≠ packedNaN .binary64 := by
    cases s <;> decide
  have finite (s : Sign) {exponent : BitVec 11} (mantissa : BitVec 52) (he : exponent ≠ -1#11) :
      packComponents .binary64 s exponent mantissa ≠ packedNaN .binary64 := fun hp =>
    he (by simpa [packedNaN] using congrArg unpackExponent hp)
  cases u with
  | notANumber => exact absurd rfl h
  | infinity s => exact infinity s
  | zero s => exact finite s _ (by decide)
  | finite s m e hm =>
    simp only [UnpackedFloat.pack]
    split
    · exact infinity s
    · next hb =>
      split
      · refine finite s _ fun he => ?_
        have he : _ = 2047 := congrArg BitVec.toNat he
        rw [BitVec.toNat_ofNat] at he
        have := Nat.mod_le (e + (Format.binary64.exponentBias : Int) +
          (Format.binary64.mantissaBitsWithoutImplicit : Int)).toNat (2 ^ 11)
        omega
      · exact finite s _ (by decide)

theorem ofModel_ne_nan {u : UnpackedFloat} (h : u ≠ .notANumber) :
    Float.ofModel (.pack u) ≠ Float.nan := fun hn =>
  pack_ne_nan h (congrArg (fun x => x.toModel.toBits.toBitVec) hn)

theorem roundWithAccuracy_ne_nan (s : Sign) (m : Nat) (e : Int) (a : Accuracy) :
    roundWithAccuracy .binary64 s m e a ≠ .notANumber := by
  simp only [roundWithAccuracy]
  split <;> exact nofun

theorem ofNat_ne_nan (n : Nat) : Float.ofNat n ≠ Float.nan := by
  by_cases hsmall : n < 2 ^ 53
  · rcases Nat.eq_zero_or_pos n with rfl | hpos
    · exact ofModel_ne_nan (u := .zero .positive) nofun
    · obtain ⟨m, e, hnormal, hm⟩ := exists_normal hpos hsmall.le
      rw [ofNat_eq hnormal hm]
      exact ne_nan_of_isFinite (isFinite_ofNormal hnormal _)
  · rw [ofNat_large hsmall]
    exact ofModel_ne_nan (roundWithAccuracy_ne_nan _ _ _ _)

theorem ofInt_ne_nan (n : Int) : Float.ofInt n ≠ Float.nan := by
  cases n with
  | ofNat n => exact ofNat_ne_nan n
  | negSucc n =>
    have hn := ofNat_ne_nan (n + 1)
    refine ofModel_ne_nan fun h => hn ?_
    have hnan : (Float.ofNat (n + 1)).toModel.unpack = .notANumber := by
      cases hu : (Float.ofNat (n + 1)).toModel.unpack with
      | notANumber => rfl
      | _ => rw [hu] at h; cases h
    rw [← decide_eq_true_eq (p := Float.ofNat (n + 1) = Float.nan), ← Float.isNaN_eq_decide_eq_nan]
    exact isNaN_iff.mpr hnan

end Joinery.Decimal
