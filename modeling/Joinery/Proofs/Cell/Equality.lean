/-
When cells that are equal are grouped together.

Cells of one signature are equal: a signature shows a cell but for the kind of a
whole number, and conversion to a double finds that number again. Equal cells
may still have different signatures. An integer is rounded when it is compared
as a double, a whole double from 2^63 on is not written as an integer, and
within arrays and objects 0.0 equals -0.0, which is written differently. Where
none of this happens (`Exact`), equality and signatures agree
(`equal_iff_signature`).
-/
import Joinery.Cell
import Joinery.Proofs.Cell.Sum
import Joinery.Proofs.Decimal.Conversion
import Joinery.Proofs.Json.Writer

namespace Joinery

namespace Json

/-! ## Structural equality -/

theorem eq_or_zeros {x y : Float} (h : (x == y) = true) :
    x = y ∨ (x = 0.0 ∧ y = -0.0) ∨ (x = -0.0 ∧ y = 0.0) :=
  (Float.beq_iff_ne_nan_and_eq.mp h).2.2

theorem Number.same_refl {n : Number} (h : n.IsFinite) : n.same n = true := by
  cases n with
  | int n => exact beq_self_eq_true n
  | double x => exact Float.beq_self_iff.mpr (Decimal.ne_nan_of_isFinite h)

theorem Number.eq_of_same {a b : Number} (h : a.same b = true) (ha : a ≠ .double (-0.0))
    (hb : b ≠ .double (-0.0)) : a = b := by
  cases a <;> cases b
  · exact congrArg Number.int (eq_of_beq h)
  · cases h
  · cases h
  · rcases eq_or_zeros h with rfl | ⟨-, rfl⟩ | ⟨rfl, -⟩
    · rfl
    · exact absurd rfl hb
    · exact absurd rfl ha

namespace Value

mutual
/-- No double that is a part of the value is -0.0. -/
def ZeroUnsigned : Value → Prop
  | .number n => n ≠ .double (-0.0)
  | .array items => ItemsZeroUnsigned items
  | .object members => MembersZeroUnsigned members
  | _ => True

/-- No item has a negative zero in it. -/
def ItemsZeroUnsigned : List Value → Prop
  | [] => True
  | v :: vs => ZeroUnsigned v ∧ ItemsZeroUnsigned vs

/-- No member has a negative zero in it. -/
def MembersZeroUnsigned : List (String × Value) → Prop
  | [] => True
  | (_, v) :: ms => ZeroUnsigned v ∧ MembersZeroUnsigned ms
end

mutual
theorem same_refl : ∀ {v : Value}, v.IsFinite → v.same v = true
  | .null, _ => rfl
  | .bool b, _ => beq_self_eq_true b
  | .number _, h => Number.same_refl h
  | .string s, _ => beq_self_eq_true s
  | .array _, h => sameItems_refl h
  | .object _, h => sameMembers_refl h

theorem sameItems_refl : ∀ {vs : List Value}, ItemsFinite vs → sameItems vs vs = true
  | [], _ => rfl
  | _ :: _, h => by rw [sameItems, same_refl h.1, sameItems_refl h.2]; rfl

theorem sameMembers_refl : ∀ {ms : List (String × Value)}, MembersFinite ms → sameMembers ms ms = true
  | [], _ => rfl
  | (n, _) :: _, h => by
    rw [sameMembers, beq_self_eq_true n, same_refl h.1, sameMembers_refl h.2]; rfl
end

mutual
theorem eq_of_same : ∀ {v w : Value}, v.ZeroUnsigned → w.ZeroUnsigned → v.same w = true → v = w
  | .null, .null, _, _, _ => rfl
  | .bool _, .bool _, _, _, h => congrArg bool (eq_of_beq h)
  | .number _, .number _, hv, hw, h => congrArg number (Number.eq_of_same h hv hw)
  | .string _, .string _, _, _, h => congrArg string (eq_of_beq h)
  | .array _, .array _, hv, hw, h => congrArg array (eq_of_sameItems hv hw h)
  | .object _, .object _, hv, hw, h => congrArg object (eq_of_sameMembers hv hw h)

theorem eq_of_sameItems : ∀ {vs ws : List Value}, ItemsZeroUnsigned vs → ItemsZeroUnsigned ws →
    sameItems vs ws = true → vs = ws
  | [], [], _, _, _ => rfl
  | v :: vs, w :: ws, hv, hw, h => by
    rw [sameItems, Bool.and_eq_true] at h
    rw [eq_of_same hv.1 hw.1 h.1, eq_of_sameItems hv.2 hw.2 h.2]

theorem eq_of_sameMembers : ∀ {ms ns : List (String × Value)}, MembersZeroUnsigned ms →
    MembersZeroUnsigned ns → sameMembers ms ns = true → ms = ns
  | [], [], _, _, _ => rfl
  | (m, v) :: ms, (n, w) :: ns, hv, hw, h => by
    rw [sameMembers, Bool.and_eq_true, Bool.and_eq_true] at h
    rw [eq_of_beq h.1.1, eq_of_same hv.1 hw.1 h.1.2, eq_of_sameMembers hv.2 hw.2 h.2]
end

end Value

end Json

namespace Cell

open Json (Value Number)

/-! ## Signatures -/

theorem normal_isFinite {v : Value} (h : v.IsFinite) : (normal v).IsFinite := by
  unfold normal
  split
  · split
    · trivial
    · exact h
  · exact h

theorem signature_eq_iff {v w : Value} (hv : v.IsFinite) (hw : w.IsFinite) :
    signature [v] = signature [w] ↔ normal v = normal w := by
  unfold signature
  rw [Value.array_text_iff]
  constructor
  · intro h
    cases h with
    | cons h _ => exact h.eq (normal_isFinite hv) (normal_isFinite hw)
  · intro h
    exact .cons (h ▸ .refl _) .nil

theorem normal_int (n : Int) : normal (.number (.int n)) = .number (.int n) := rfl

theorem normal_double (x : Float) : normal (.number (.double x)) =
    match wholeDouble? x with
    | some n => .number (.int n)
    | none => .number (.double x) := rfl

theorem wholeDouble?_eq_some_iff {x : Float} {n : Int} :
    wholeDouble? x = some n ↔ Decimal.integer? x = some n ∧ n.natAbs < 2 ^ 63 := by
  simp [wholeDouble?, Option.filter_eq_some_iff]

theorem normal_of_number?_eq_none {v : Value} (h : v.number? = none) : normal v = v := by
  cases v <;> first | rfl | cases h

/-! ## Numbers -/

theorem equalNumbers_int_double (n : Int) (x : Float) :
    equalNumbers (.int n) (.double x) = (Float.ofInt n == x) := by
  unfold equalNumbers
  cases (Number.int n).int64? <;> rfl

theorem equalNumbers_double_int (x : Float) (n : Int) :
    equalNumbers (.double x) (.int n) = (x == Float.ofInt n) := rfl

/-- In a signature a number stands as a number that is the same as a double. -/
theorem exists_normal_number {a : Number} (h : a.IsFinite) : ∃ m : Number,
    normal (.number a) = .number m ∧ (m.toDouble == a.toDouble) = true := by
  cases a with
  | int n => exact ⟨.int n, rfl, Float.beq_self_iff.mpr (Decimal.ofInt_ne_nan n)⟩
  | double x =>
    rw [normal_double]
    split
    · next n hn => exact ⟨.int n, rfl, Decimal.ofInt_integer? (wholeDouble?_eq_some_iff.mp hn).1⟩
    · exact ⟨.double x, rfl, Float.beq_self_iff.mpr (Decimal.ne_nan_of_isFinite h)⟩

theorem int64?_eq_some {a : Number} {n : Int} (h : a.int64? = some n) : a = .int n := by
  cases a with
  | int m => rw [(int64?_int_eq_some_iff.mp h).2]
  | double x => cases h

theorem equalNumbers_of_normal {a b : Number} (ha : a.IsFinite) (hb : b.IsFinite)
    (h : normal (.number a) = normal (.number b)) : equalNumbers a b = true := by
  unfold equalNumbers
  split
  · next m n hm hn =>
    rw [int64?_eq_some hm, int64?_eq_some hn, normal_int, normal_int] at h
    cases h
    exact beq_self_eq_true m
  · obtain ⟨m, hm, hma⟩ := exists_normal_number ha
    obtain ⟨n, hn, hnb⟩ := exists_normal_number hb
    rw [hm, hn] at h
    cases h
    exact PartialEquivBEq.trans (PartialEquivBEq.symm hma) hnb

/-- Neither number is rounded when the two are compared. -/
def ExactNumbers : Number → Number → Prop
  | .int m, .int n => IsInt64 m ∧ IsInt64 n
  | .int n, .double _ => n.natAbs ≤ 2 ^ 53
  | .double _, .int n => n.natAbs ≤ 2 ^ 53
  | .double _, .double _ => True

theorem integer?_of_beq {x y : Float} (h : (x == y) = true) : Decimal.integer? x = Decimal.integer? y := by
  have zeros : Decimal.integer? 0.0 = Decimal.integer? (-0.0) := by decide +kernel
  rcases Json.eq_or_zeros h with rfl | ⟨rfl, rfl⟩ | ⟨rfl, rfl⟩
  · rfl
  · exact zeros
  · exact zeros.symm

theorem normal_of_integer? {x : Float} {n : Int} (h : Decimal.integer? x = some n)
    (hn : n.natAbs < 2 ^ 63) : normal (.number (.double x)) = .number (.int n) := by
  simp only [normal_double, wholeDouble?_eq_some_iff.mpr ⟨h, hn⟩]

theorem normal_of_converts {n : Int} {x : Float} (hn : n.natAbs ≤ 2 ^ 53)
    (h : (Float.ofInt n == x) = true) : normal (.number (.double x)) = .number (.int n) := by
  have hx : Decimal.integer? x = some n := integer?_of_beq h ▸ Decimal.integer?_ofInt hn
  exact normal_of_integer? hx (Nat.lt_of_le_of_lt hn (by decide))

theorem normal_of_equalNumbers {a b : Number} (hexact : ExactNumbers a b)
    (h : equalNumbers a b = true) : normal (.number a) = normal (.number b) := by
  cases a with
  | int m =>
    cases b with
    | int n =>
      have hm := int64?_int_eq_some_iff.mpr ⟨hexact.1, rfl⟩
      have hn := int64?_int_eq_some_iff.mpr ⟨hexact.2, rfl⟩
      simp only [equalNumbers, hm, hn, beq_iff_eq] at h
      rw [h]
    | double y =>
      rw [equalNumbers_int_double] at h
      exact (normal_of_converts hexact h).symm
  | double x =>
    cases b with
    | int n =>
      rw [equalNumbers_double_int] at h
      exact normal_of_converts hexact (PartialEquivBEq.symm h)
    | double y =>
      have zero : normal (.number (.double 0.0)) = .number (.int 0) :=
        normal_of_integer? (by decide +kernel) (by decide)
      have negativeZero : normal (.number (.double (-0.0))) = .number (.int 0) :=
        normal_of_integer? (by decide +kernel) (by decide)
      rcases Json.eq_or_zeros (show (x == y) = true from h) with rfl | ⟨rfl, rfl⟩ | ⟨rfl, rfl⟩
      · rfl
      · exact zero.trans negativeZero.symm
      · exact negativeZero.trans zero.symm

/-! ## Cells -/

/-- Neither rounding nor the sign of a zero within stands between two cells. -/
def Exact : Value → Value → Prop
  | .number a, .number b => ExactNumbers a b
  | a, b => a.ZeroUnsigned ∧ b.ZeroUnsigned

theorem number?_normal (v : Value) : (normal v).number?.isSome = v.number?.isSome := by
  rcases v with _ | _ | (n | x) | _ | _ | _
  all_goals first
    | rfl
    | rw [normal_double]; split <;> rfl

theorem numbers_or_same (a b : Value) : (∃ m n, a = .number m ∧ b = .number n) ∨
    (a.number? = none ∨ b.number? = none) ∧ equal a b = a.same b ∧
      (Exact a b ↔ a.ZeroUnsigned ∧ b.ZeroUnsigned) := by
  cases a with
  | number m => cases b with
    | number n => exact .inl ⟨m, n, rfl, rfl⟩
    | _ => exact .inr ⟨.inr rfl, rfl, Iff.rfl⟩
  | _ => cases b <;> exact .inr ⟨.inl rfl, rfl, Iff.rfl⟩

theorem equal_of_normal {a b : Value} (ha : a.IsFinite) (hb : b.IsFinite)
    (h : normal a = normal b) : equal a b = true := by
  rcases numbers_or_same a b with ⟨m, n, rfl, rfl⟩ | ⟨hnone, hequal, -⟩
  · exact equalNumbers_of_normal ha hb h
  · have hsome : a.number?.isSome = b.number?.isSome := by
      rw [← number?_normal a, h, number?_normal b]
    have hboth : a.number? = none ∧ b.number? = none := by
      rcases hnone with h0 | h0
      · exact ⟨h0, by simpa [h0] using hsome.symm⟩
      · exact ⟨by simpa [h0] using hsome, h0⟩
    rw [normal_of_number?_eq_none hboth.1, normal_of_number?_eq_none hboth.2] at h
    rw [hequal, h]
    exact Value.same_refl hb

theorem normal_of_equal {a b : Value} (hexact : Exact a b) (h : equal a b = true) :
    normal a = normal b := by
  rcases numbers_or_same a b with ⟨m, n, rfl, rfl⟩ | ⟨-, hequal, hiff⟩
  · exact normal_of_equalNumbers hexact h
  · obtain ⟨za, zb⟩ := hiff.mp hexact
    rw [Value.eq_of_same za zb (hequal ▸ h)]

/-- **Cells that are grouped together are equal**, and equal cells are grouped together where
neither rounding nor the sign of a zero stands between them. -/
theorem equal_iff_signature {a b : Value} (ha : a.IsFinite) (hb : b.IsFinite) :
    (signature [a] = signature [b] → equal a b = true) ∧
    (Exact a b → (equal a b = true ↔ signature [a] = signature [b])) := by
  rw [signature_eq_iff ha hb]
  exact ⟨equal_of_normal ha hb, fun hexact => ⟨normal_of_equal hexact, equal_of_normal ha hb⟩⟩

/-- A whole double and its integer, with the fraction next to it. -/
theorem equal_iff_signature_halves :
    signature [.int (-3)] = signature [.number (.double (-3.0))] ∧
    equal (.int (-3)) (.number (.double (-3.0))) = true ∧
    signature [.int (-3)] ≠ signature [.number (.double (-3.5))] := by
  have finite (x : Float) (h : Decimal.isFinite x = true) : (Value.number (.double x)).IsFinite := h
  have whole := equal_iff_signature (a := .int (-3)) (b := .number (.double (-3.0))) trivial
    (finite _ (by decide +kernel))
  have half := equal_iff_signature (a := .int (-3)) (b := .number (.double (-3.5))) trivial
    (finite _ (by decide +kernel))
  have hequal : equal (.int (-3)) (.number (.double (-3.0))) = true := by decide +kernel
  have hne : equal (.int (-3)) (.number (.double (-3.5))) = false := by decide +kernel
  refine ⟨(whole.2 (show (3 : Nat) ≤ _ by decide)).mp hequal, hequal, fun h => ?_⟩
  rw [half.1 h] at hne
  cases hne

/-- Cells that are equal, and not null, but are not grouped together. -/
theorem equal_apart :
    (equal (.int 0x8000000000000000) (.number (.double 9223372036854775808.0)) = true ∧
      signature [.int 0x8000000000000000] = "[9223372036854775808]" ∧
      signature [.number (.double 9223372036854775808.0)] = "[9.223372036854776e+18]") ∧
    (equal (.int 0x20000000000001) (.number (.double 9007199254740992.0)) = true ∧
      signature [.int 0x20000000000001] = "[9007199254740993]" ∧
      signature [.number (.double 9007199254740992.0)] = "[9007199254740992]") ∧
    (equal (.array [.number (.double 0.0)]) (.array [.number (.double (-0.0))]) = true ∧
      signature [.array [.number (.double 0.0)]] = "[[0.0]]" ∧
      signature [.array [.number (.double (-0.0))]] = "[[-0.0]]") := by
  decide +kernel

end Cell

end Joinery
