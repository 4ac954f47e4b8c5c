/-
A double can be told from its text.

However the digits of a number are laid out, the text stands for the number
(`reading_text`): what it stands for is read from the digits before and after
the point and from the exponent. The shortest digits stand for a number that
rounds to one double only, so finite doubles have different texts (`text_inj`),
and none of these is the text of an integer (`text_marked`).
-/
import Joinery.Proofs.Decimal.Shortest
import Mathlib.Data.List.TakeWhile

namespace Joinery.Decimal

/-! ## Numbers of digits -/

/-- The number that digits with an exponent stand for. -/
def Digits.amount (d : Digits) : ℚ :=
  (Nat.ofDigitChars 10 d.digits 0 : ℕ) * 10 ^ (d.exponent + 1 - d.digits.length)

theorem ofDigitChars_zeros (cs : List Char) (n : ℕ) :
    Nat.ofDigitChars 10 (cs ++ List.replicate n '0') 0 = 10 ^ n * Nat.ofDigitChars 10 cs 0 := by
  rw [Nat.ofDigitChars_append, Nat.ofDigitChars_replicate_zero]

theorem ofDigitChars_leading (cs : List Char) (n : ℕ) :
    Nat.ofDigitChars 10 (List.replicate n '0' ++ cs) 0 = Nat.ofDigitChars 10 cs 0 := by
  rw [Nat.ofDigitChars_append, Nat.ofDigitChars_replicate_zero, Nat.mul_zero]

theorem ofScaled_zeros (n : ℕ) (e : ℤ) :
    ∃ zeros, Nat.toDigits 10 n = (Digits.ofScaled n e).digits ++ List.replicate zeros '0' := by
  refine ⟨((Nat.toDigits 10 n).reverse.takeWhile (· == '0')).length, ?_⟩
  have hzeros : (Nat.toDigits 10 n).reverse.takeWhile (· == '0') =
      List.replicate ((Nat.toDigits 10 n).reverse.takeWhile (· == '0')).length '0' :=
    List.eq_replicate_of_mem fun c hc => by simpa using List.mem_takeWhile_imp hc
  rw [← List.reverse_inj, List.reverse_append, List.reverse_replicate, ← hzeros]
  simp only [Digits.ofScaled, List.reverse_reverse, List.takeWhile_append_dropWhile]

theorem ofScaled_amount (n : ℕ) (e : ℤ) : (Digits.ofScaled n e).amount = n * 10 ^ e := by
  obtain ⟨zeros, h⟩ := ofScaled_zeros n e
  have hn : n = 10 ^ zeros * Nat.ofDigitChars 10 (Digits.ofScaled n e).digits 0 := by
    rw [← ofDigitChars_zeros, ← h, Nat.ofDigitChars_ten_toDigits]
  have hlen : (Digits.ofScaled n e).exponent + 1 - (Digits.ofScaled n e).digits.length = zeros + e := by
    have := congrArg List.length h
    simp only [List.length_append, List.length_replicate] at this
    show ((Nat.toDigits 10 n).length : ℤ) - 1 + e + 1 - _ = _
    omega
  have hn' : (n : ℚ) = 10 ^ zeros * (Nat.ofDigitChars 10 (Digits.ofScaled n e).digits 0 : ℕ) := by
    exact_mod_cast hn
  rw [Digits.amount, hlen, zpow_add₀ (by norm_num), zpow_natCast]
  conv_rhs => rw [hn']
  ring

theorem ofScaled_isDigit (n : ℕ) (e : ℤ) : ∀ c ∈ (Digits.ofScaled n e).digits, c.isDigit = true := by
  obtain ⟨zeros, h⟩ := ofScaled_zeros n e
  intro c hc
  exact Nat.isDigit_of_mem_toDigits (by decide) (by decide) (h ▸ List.mem_append_left _ hc)

/-! ## Reading a text -/

/-- The number after the mark of the exponent, if there is one. -/
def exponentOf : List Char → ℤ
  | '-' :: cs => -(Nat.ofDigitChars 10 cs 0 : ℕ)
  | '+' :: cs => (Nat.ofDigitChars 10 cs 0 : ℕ)
  | _ => 0

/-- The number that a text without sign stands for. -/
def reading (text : List Char) : ℚ :=
  let mantissa := text.takeWhile (· != 'e')
  let whole := mantissa.takeWhile (· != '.')
  let fraction := (mantissa.dropWhile (· != '.')).tail
  (Nat.ofDigitChars 10 (whole ++ fraction) 0 : ℕ) *
    10 ^ (exponentOf (text.dropWhile (· != 'e')).tail - fraction.length)

theorem takeWhile_split {α : Type} {p : α → Bool} {xs ys : List α} (hx : ∀ x ∈ xs, p x = true)
    (hy : ∀ y ∈ ys.head?, p y = false) :
    (xs ++ ys).takeWhile p = xs ∧ (xs ++ ys).dropWhile p = ys := by
  rw [List.takeWhile_append_of_pos hx, List.dropWhile_append_of_pos hx]
  cases ys with
  | nil => simp
  | cons y ys => simp [hy y rfl]

theorem ne_of_isDigit {c d : Char} (h : c.isDigit = true) (hd : d.isDigit = false) :
    (c != d) = true := by
  rw [bne_iff_ne]
  rintro rfl
  simp [h] at hd

/-- The parts of a text: digits, perhaps a point with more digits, perhaps an exponent. -/
theorem reading_parts {whole point exponent : List Char} (hw : ∀ c ∈ whole, c.isDigit = true)
    (hp : point = [] ∨ ∃ fraction, point = '.' :: fraction ∧ ∀ c ∈ fraction, c.isDigit = true)
    (he : exponent = [] ∨ ∃ digits, exponent = 'e' :: digits) :
    reading (whole ++ point ++ exponent) = (Nat.ofDigitChars 10 (whole ++ point.tail) 0 : ℕ) *
      10 ^ (exponentOf exponent.tail - point.tail.length) := by
  have hmantissa : ∀ c ∈ whole ++ point, (c != 'e') = true := by
    intro c hc
    rcases List.mem_append.mp hc with hc | hc
    · exact ne_of_isDigit (hw c hc) (by decide)
    · rcases hp with rfl | ⟨fraction, rfl, hf⟩
      · simp at hc
      · rcases List.mem_cons.mp hc with rfl | hc
        · decide
        · exact ne_of_isDigit (hf c hc) (by decide)
  have hexponent : ∀ c ∈ exponent.head?, (c != 'e') = false := by
    rcases he with rfl | ⟨digits, rfl⟩ <;> simp
  have hwhole : ∀ c ∈ whole, (c != '.') = true := fun c hc => ne_of_isDigit (hw c hc) (by decide)
  have hpoint : ∀ c ∈ point.head?, (c != '.') = false := by
    rcases hp with rfl | ⟨fraction, rfl, -⟩ <;> simp
  have h := takeWhile_split hmantissa hexponent
  have h' := takeWhile_split hwhole hpoint
  simp only [reading, h.1, h.2, h'.1, h'.2]

theorem replicate_isDigit (n : ℕ) : ∀ c ∈ List.replicate n '0', c.isDigit = true := fun c hc => by
  rw [List.eq_of_mem_replicate hc]
  decide

theorem zero_isDigit : ∀ c ∈ ['0'], c.isDigit = true := replicate_isDigit 1

theorem reading_point {whole fraction : List Char} (hw : ∀ c ∈ whole, c.isDigit = true)
    (hf : ∀ c ∈ fraction, c.isDigit = true) :
    reading (whole ++ '.' :: fraction) =
      (Nat.ofDigitChars 10 (whole ++ fraction) 0 : ℕ) * 10 ^ (-(fraction.length : ℤ)) := by
  have h := reading_parts hw (.inr ⟨fraction, rfl, hf⟩) (.inl rfl)
  rw [List.append_nil] at h
  simpa [exponentOf] using h

theorem reading_below_one {d : Digits} (hd : ∀ c ∈ d.digits, c.isDigit = true)
    (he : d.exponent < 0) : reading d.plain = d.amount := by
  have hf : ∀ c ∈ List.replicate (-d.exponent - 1).toNat '0' ++ d.digits, c.isDigit = true :=
    List.forall_mem_append.mpr ⟨replicate_isDigit _, hd⟩
  have hlen : -((List.replicate (-d.exponent - 1).toNat '0' ++ d.digits).length : ℤ) =
      d.exponent + 1 - d.digits.length := by
    rw [List.length_append, List.length_replicate]
    omega
  have h := reading_point zero_isDigit hf
  rw [hlen, ← List.append_assoc, List.singleton_append, List.singleton_append,
    ← List.replicate_succ, ofDigitChars_leading] at h
  rw [Digits.plain, if_pos he]
  exact h

theorem reading_above_one {d : Digits} (hd : ∀ c ∈ d.digits, c.isDigit = true)
    (he : ¬ d.exponent < 0) : reading d.plain = d.amount := by
  rw [Digits.plain, if_neg he]
  have hw : ∀ c ∈ d.digits.take (d.exponent.toNat + 1) ++
      List.replicate (d.exponent.toNat + 1 - d.digits.length) '0', c.isDigit = true :=
    List.forall_mem_append.mpr ⟨fun c hc => hd c (List.mem_of_mem_take hc), replicate_isDigit _⟩
  by_cases hlen : d.digits.length ≤ d.exponent.toNat + 1
  · have hdigits : d.digits.take (d.exponent.toNat + 1) ++
        List.replicate (d.exponent.toNat + 1 - d.digits.length) '0' ++ ['0'] =
          d.digits ++ List.replicate (d.exponent.toNat + 2 - d.digits.length) '0' := by
      rw [List.take_of_length_le hlen, List.append_assoc, ← List.replicate_succ',
        show d.exponent.toNat + 2 - d.digits.length = d.exponent.toNat + 1 - d.digits.length + 1 by omega]
    have hpow : ((d.exponent.toNat + 2 - d.digits.length : ℕ) : ℤ) + -1 =
        d.exponent + 1 - d.digits.length := by omega
    simp only [List.drop_eq_nil_of_le hlen, List.isEmpty_nil, if_true]
    rw [reading_point hw zero_isDigit, hdigits, ofDigitChars_zeros, Digits.amount, ← hpow,
      zpow_add₀ (by norm_num), zpow_natCast]
    push_cast
    simp only [List.length_singleton, Nat.cast_one]
    ring
  · have hdrop : d.digits.drop (d.exponent.toNat + 1) ≠ [] := by simpa using hlen
    have hf : ∀ c ∈ d.digits.drop (d.exponent.toNat + 1), c.isDigit = true :=
      fun c hc => hd c (List.mem_of_mem_drop hc)
    have hzeros : d.exponent.toNat + 1 - d.digits.length = 0 := by omega
    simp only [List.isEmpty_iff, hdrop, if_false]
    rw [reading_point hw hf, hzeros, List.replicate_zero, List.append_nil, List.take_append_drop,
      Digits.amount]
    congr 2
    rw [List.length_drop]
    omega

theorem exponentOf_mark (e : ℤ) :
    exponentOf ((if e < 0 then '-' else '+') :: Nat.toDigits 10 e.natAbs) = e := by
  split
  · simp only [exponentOf, Nat.ofDigitChars_ten_toDigits]
    omega
  · simp only [exponentOf, Nat.ofDigitChars_ten_toDigits]
    omega

theorem reading_scientific {d : Digits} (hd : ∀ c ∈ d.digits, c.isDigit = true) :
    reading d.scientific = d.amount := by
  have hw : ∀ c ∈ d.digits.take 1, c.isDigit = true := fun c hc => hd c (List.mem_of_mem_take hc)
  have hf : ∀ c ∈ d.digits.drop 1, c.isDigit = true := fun c hc => hd c (List.mem_of_mem_drop hc)
  have htail : (if (d.digits.drop 1).isEmpty then [] else '.' :: d.digits.drop 1).tail =
      d.digits.drop 1 := by
    split
    · next h => rw [List.isEmpty_iff.mp h]; rfl
    · rfl
  have hpoint : (if (d.digits.drop 1).isEmpty then [] else '.' :: d.digits.drop 1) = [] ∨
      ∃ fraction, (if (d.digits.drop 1).isEmpty then [] else '.' :: d.digits.drop 1) =
        '.' :: fraction ∧ ∀ c ∈ fraction, c.isDigit = true := by
    split
    · exact .inl rfl
    · exact .inr ⟨_, rfl, hf⟩
  refine (reading_parts hw hpoint (.inr ⟨_, rfl⟩)).trans ?_
  rw [htail, List.take_append_drop, List.tail_cons, exponentOf_mark, Digits.amount]
  by_cases hnil : d.digits = []
  · simp [hnil]
  · have := List.length_pos_iff.mpr hnil
    rw [show d.exponent - ((d.digits.drop 1).length : ℤ) = d.exponent + 1 - d.digits.length by
      rw [List.length_drop]; omega]

/-- **A text stands for its digits**, in either layout. -/
theorem reading_text {d : Digits} (hd : ∀ c ∈ d.digits, c.isDigit = true) :
    reading d.text = d.amount := by
  unfold Digits.text
  split
  · by_cases he : d.exponent < 0
    · exact reading_below_one hd he
    · exact reading_above_one hd he
  · exact reading_scientific hd

/-! ## Doubles -/

/-- The text of a double without its sign. -/
def unsigned (b : Binary) : List Char :=
  if b.significand = 0 then ['0', '.', '0'] else b.shortest.text

theorem text_eq (x : Float) : text x =
    if isNegative x then '-' :: unsigned (magnitude x) else unsigned (magnitude x) := rfl

theorem reading_zero : reading ['0', '.', '0'] = 0 := by
  have h := reading_point zero_isDigit zero_isDigit
  simpa [Nat.ofDigitChars] using h

theorem reading_unsigned {b : Binary} (hb : b.Canonical) (hm : b.significand ≠ 0) :
    b.Rounds (reading (unsigned b)) := by
  obtain ⟨n, e, hs, hr⟩ := Binary.shortest_rounds hb (Nat.pos_of_ne_zero hm)
  have hd : ∀ c ∈ b.shortest.digits, c.isDigit = true := hs ▸ ofScaled_isDigit n e
  rwa [unsigned, if_neg hm, reading_text hd, hs, ofScaled_amount]

theorem unsigned_inj {b c : Binary} (hb : b.Canonical) (hc : c.Canonical)
    (h : unsigned b = unsigned c) : b.significand = c.significand ∧ b.exponent = c.exponent := by
  by_cases hb0 : b.significand = 0 <;> by_cases hc0 : c.significand = 0
  · have hb' := hb.normal
    have hc' := hc.normal
    have := hb.le_exponent
    have := hc.le_exponent
    omega
  · have hr := reading_unsigned hc hc0
    rw [← h, unsigned, if_pos hb0, reading_zero] at hr
    exact absurd (hr.pos (Nat.pos_of_ne_zero hc0)) (lt_irrefl 0)
  · have hr := reading_unsigned hb hb0
    rw [h, unsigned, if_pos hc0, reading_zero] at hr
    exact absurd (hr.pos (Nat.pos_of_ne_zero hb0)) (lt_irrefl 0)
  · exact Binary.rounds_unique hb hc (reading_unsigned hb hb0) (h ▸ reading_unsigned hc hc0)

theorem layout_marked (d : Digits) : '.' ∈ d.text ∨ 'e' ∈ d.text := by
  unfold Digits.text Digits.plain Digits.scientific
  split
  · exact .inl (by split <;> simp)
  · exact .inr (by simp)

/-- The text of a double has a point or an exponent, which that of an integer has not. -/
theorem text_marked (x : Float) : '.' ∈ text x ∨ 'e' ∈ text x := by
  have hunsigned : '.' ∈ unsigned (magnitude x) ∨ 'e' ∈ unsigned (magnitude x) := by
    unfold unsigned
    split
    · exact .inl (by decide)
    · exact layout_marked _
  rw [text_eq]
  split
  · exact hunsigned.imp (List.mem_cons_of_mem _) (List.mem_cons_of_mem _)
  · exact hunsigned

theorem layout_ne_minus {d : Digits} (hd : ∀ c ∈ d.digits, c.isDigit = true) (cs : List Char) :
    d.text ≠ '-' :: cs := by
  have hminus : '-' ∉ d.digits := fun h => absurd (hd '-' h) (by decide)
  unfold Digits.text Digits.plain Digits.scientific
  rcases hds : d.digits with _ | ⟨c, ds⟩
  · repeat' split
    all_goals simp [List.replicate_succ]
  · have hc : c ≠ '-' := fun h => hminus (by simp [hds, h])
    repeat' split
    all_goals simp [hc]

theorem unsigned_ne_minus {b : Binary} (hb : b.Canonical) (cs : List Char) :
    unsigned b ≠ '-' :: cs := by
  unfold unsigned
  split
  · simp
  · next hm =>
    obtain ⟨n, e, hs, -⟩ := Binary.shortest_rounds hb (Nat.pos_of_ne_zero hm)
    exact layout_ne_minus (hs ▸ ofScaled_isDigit n e) cs

/-- **A finite double can be told from its text.** -/
theorem text_inj {x y : Float} (hx : isFinite x = true) (hy : isFinite y = true)
    (h : text x = text y) : x = y := by
  have hbx := magnitude_canonical hx
  have hby := magnitude_canonical hy
  rw [text_eq, text_eq] at h
  cases hsx : isNegative x <;> cases hsy : isNegative y <;>
    simp only [hsx, hsy, if_true, Bool.false_eq_true, if_false, List.cons.injEq, true_and] at h
  · have hm := unsigned_inj hbx hby h
    exact eq_of_magnitude (hsx.trans hsy.symm) hm.1 hm.2
  · exact absurd h (unsigned_ne_minus hbx _)
  · exact absurd h.symm (unsigned_ne_minus hby _)
  · have hm := unsigned_inj hbx hby h
    exact eq_of_magnitude (hsx.trans hsy.symm) hm.1 hm.2

end Joinery.Decimal
