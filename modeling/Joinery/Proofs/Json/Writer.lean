/-
A value can be told from its text.

A string is read back from its quotes (`quoted_inj`), and what is written
without quotes and brackets ends where a separator stands. So the text of a
value, wherever it stands in a longer text, shows where it ends
(`write_split`), the text of an array shows those of its items
(`array_text_iff`), and values are told apart by their texts unless a part of
them is infinite or no number (`text_inj`).
-/
import Joinery.Json.Token
import Joinery.Json.Writer
import Joinery.Proofs.Decimal.Layout
import Mathlib.Data.List.Forall2
import Mathlib.Tactic.ByContra

namespace Joinery.Json

/-! ## Strings -/

theorem hexValue?_hexDigit : ∀ n, n < 16 → hexValue? (hexDigit n) = some n := by decide

theorem unit?_hexDigit {n : Nat} (h : n < 32) :
    unit? '0' '0' (hexDigit (n / 16)) (hexDigit (n % 16)) = some n := by
  have zero : hexValue? '0' = some 0 := by decide
  have high := hexValue?_hexDigit (n / 16) (by omega)
  have low := hexValue?_hexDigit (n % 16) (by omega)
  simp only [unit?, zero, high, low, Option.bind_eq_bind, Option.bind_some, Option.pure_def,
    Option.some.injEq]
  omega

theorem assemble?_char (c : Char) (ps : List Piece) :
    assemble? (.char c :: ps) = (assemble? ps).map (c :: ·) := by
  cases h : assemble? ps <;> simp [assemble?, h]

theorem assemble?_unit {n : Nat} (h : n < 0xD800) (ps : List Piece) :
    assemble? (.unit n :: ps) = (assemble? ps).map (Char.ofNat n :: ·) := by
  have high : ¬ (0xD800 ≤ n) := by omega
  have low : ¬ (0xDC00 ≤ n) := by omega
  rcases ps with _ | ⟨p | u, ps⟩
  · simp [assemble?, high]
  · cases hp : assemble? ps <;> simp [assemble?, high, hp]
  · cases hp : assemble? (.unit u :: ps) <;> simp [assemble?, high, low, hp]

theorem pieces?_letter {l c : Char} (h : escapeLetter? l = some c) (hu : l ≠ 'u') (s : List Char) :
    pieces? ('\\' :: l :: s) = (pieces? s).map fun (ps, rest) => (.char c :: ps, rest) := by
  rw [pieces?]
  · cases hs : pieces? s <;> simp [h]
  · simp [hu]

/-- A character that is escaped is read as one piece, which stands for the character. -/
theorem pieces?_escaped (c : Char) (s : List Char) :
    ∃ p, pieces? (escaped c ++ s) = (pieces? s).map (fun (ps, rest) => (p :: ps, rest)) ∧
      ∀ ps, assemble? (p :: ps) = (assemble? ps).map (c :: ·) := by
  have letter {l d : Char} (h : escapeLetter? l = some d) (hu : l ≠ 'u') (hd : c = d) :
      ∃ p, pieces? ('\\' :: l :: s) = (pieces? s).map (fun (ps, rest) => (p :: ps, rest)) ∧
        ∀ ps, assemble? (p :: ps) = (assemble? ps).map (c :: ·) :=
    ⟨.char d, pieces?_letter h hu s, hd ▸ assemble?_char d⟩
  unfold escaped
  split
  · next h => exact letter (by decide) (by decide) h
  split
  · next h => exact letter (by decide) (by decide) h
  split
  · next h => exact letter (by decide) (by decide) h
  split
  · next h => exact letter (by decide) (by decide) h
  split
  · next h => exact letter (by decide) (by decide) h
  split
  · next h => exact letter (d := '\x08') (by decide) (by decide) (Char.toNat_inj.mp h)
  split
  · next h => exact letter (d := '\x0c') (by decide) (by decide) (Char.toNat_inj.mp h)
  split
  · next h =>
    refine ⟨.unit c.toNat, ?_, fun ps => ?_⟩
    · cases hs : pieces? s <;> simp [pieces?, unit?_hexDigit h, hs]
    · rw [assemble?_unit (by omega), Char.ofNat_toNat]
  · next hq hb _ _ _ _ _ hc =>
    refine ⟨.char c, ?_, assemble?_char c⟩
    show pieces? (c :: s) = _
    rw [pieces?]
    · cases hs : pieces? s <;> simp [hb, hc]
    all_goals simp [hq, hb]

/-- What a quoted string is read as. -/
theorem pieces?_quoted (cs rest : List Char) :
    ∃ ps, pieces? (cs.flatMap escaped ++ '"' :: rest) = some (ps, rest) ∧ assemble? ps = some cs := by
  induction cs with
  | nil => exact ⟨[], by simp [pieces?], by simp [assemble?]⟩
  | cons c cs ih =>
    obtain ⟨ps, hp, ha⟩ := ih
    obtain ⟨p, hc, hps⟩ := pieces?_escaped c (cs.flatMap escaped ++ '"' :: rest)
    refine ⟨p :: ps, ?_, ?_⟩
    · rw [List.flatMap_cons, List.append_assoc, hc, hp]
      rfl
    · rw [hps, ha]
      rfl

/-- A quoted string shows where it ends, and what it is. -/
theorem quoted_inj {s t : String} {r q : List Char} (h : quoted s r = quoted t q) :
    s = t ∧ r = q := by
  obtain ⟨ps, hp, hs⟩ := pieces?_quoted s.toList r
  obtain ⟨qs, hq, ht⟩ := pieces?_quoted t.toList q
  simp only [quoted, List.cons_append, List.cons.injEq, true_and] at h
  rw [h, hq] at hp
  cases hp
  rw [hs] at ht
  exact ⟨String.toList_inj.mp (Option.some.inj ht), rfl⟩

/-! ## Numbers and names -/

/-- No quote, bracket or separator. -/
def isPlain (c : Char) : Bool := !(['"', '[', ']', '{', '}', ',', ':'].contains c)

/-- A digit, a sign, a point or the mark of an exponent. -/
def isNumeric (c : Char) : Bool := c.isDigit || ['.', '-', '+', 'e'].contains c

theorem isNumeric_of_isDigit {c : Char} (h : c.isDigit = true) : isNumeric c = true := by
  simp [isNumeric, h]

theorem isPlain_of_isNumeric {c : Char} (h : isNumeric c = true) : isPlain c = true := by
  by_contra hc
  simp only [isPlain, Bool.not_eq_true', Bool.not_eq_false, List.contains_eq_mem, List.mem_cons,
    List.not_mem_nil, or_false, decide_eq_true_eq] at hc
  rcases hc with rfl | rfl | rfl | rfl | rfl | rfl | rfl <;> revert h <;> decide

theorem toDigits_isNumeric {n : Nat} {c : Char} (h : c ∈ Nat.toDigits 10 n) : isNumeric c = true :=
  isNumeric_of_isDigit (Nat.isDigit_of_mem_toDigits (by decide) (by decide) h)

theorem toDigits_inj {m n : Nat} (h : Nat.toDigits 10 m = Nat.toDigits 10 n) : m = n := by
  rw [← Nat.ofDigitChars_ten_toDigits (n := m), h, Nat.ofDigitChars_ten_toDigits]

theorem shortest_isNumeric (b : Decimal.Binary) : ∀ c ∈ b.shortest.digits, isNumeric c = true := by
  have scaled (n : Nat) (e : Int) : ∀ c ∈ (Decimal.Digits.ofScaled n e).digits, isNumeric c = true := by
    intro c hc
    have hc := (List.dropWhile_sublist _).mem (List.mem_reverse.mp hc)
    exact toDigits_isNumeric (List.mem_reverse.mp hc)
  unfold Decimal.Binary.shortest
  intro c hc
  cases hf : (List.range 17).findSome? fun (n : Nat) =>
      (b.interval.onGrid? (b.interval.scale - ((n : Int) + 1))).map fun m =>
        Decimal.Digits.ofScaled m (b.interval.scale - ((n : Int) + 1)) with
  | none =>
    simp only [hf, Option.getD_none] at hc
    exact scaled _ _ c hc
  | some d =>
    simp only [hf, Option.getD_some] at hc
    obtain ⟨n, -, hn⟩ := List.exists_of_findSome?_eq_some hf
    obtain ⟨m, -, rfl⟩ := Option.map_eq_some_iff.mp hn
    exact scaled _ _ c hc

/-- However they are laid out, digits stay numeric. -/
theorem layout_isNumeric {d : Decimal.Digits} (h : ∀ c ∈ d.digits, isNumeric c = true) :
    ∀ c ∈ d.text, isNumeric c = true := by
  have zeros (n : Nat) : ∀ c ∈ List.replicate n '0', isNumeric c = true := fun c hc => by
    rw [List.eq_of_mem_replicate hc]; decide
  intro c hc
  unfold Decimal.Digits.text at hc
  split at hc
  · unfold Decimal.Digits.plain at hc
    split at hc
    · simp only [List.cons_append, List.mem_cons, List.mem_append] at hc
      rcases hc with rfl | rfl | hc | hc
      · decide
      · decide
      · exact zeros _ c hc
      · exact h c hc
    · simp only [List.mem_append, List.mem_cons] at hc
      rcases hc with (hc | hc) | rfl | hc
      · exact h c (List.mem_of_mem_take hc)
      · exact zeros _ c hc
      · decide
      · split at hc
        · rw [List.mem_singleton.mp hc]; decide
        · exact h c (List.mem_of_mem_drop hc)
  · unfold Decimal.Digits.scientific at hc
    simp only [List.mem_append, List.mem_cons] at hc
    rcases hc with (hc | hc) | rfl | rfl | hc
    · exact h c (List.mem_of_mem_take hc)
    · split at hc
      · simp at hc
      · rcases List.mem_cons.mp hc with rfl | hc
        · decide
        · exact h c (List.mem_of_mem_drop hc)
    · decide
    · split <;> decide
    · exact toDigits_isNumeric hc

theorem decimal_isNumeric (x : Float) : ∀ c ∈ Decimal.text x, isNumeric c = true := by
  have unsigned : ∀ c ∈ (if (Decimal.magnitude x).significand = 0 then ['0', '.', '0']
      else (Decimal.magnitude x).shortest.text), isNumeric c = true := by
    split
    · exact List.all_eq_true.mp (by decide)
    · exact layout_isNumeric (shortest_isNumeric _)
  intro c hc
  unfold Decimal.text at hc
  split at hc
  · rcases List.mem_cons.mp hc with rfl | hc
    · decide
    · exact unsigned c hc
  · exact unsigned c hc

theorem layout_ne_nil (d : Decimal.Digits) : d.text ≠ [] := by
  unfold Decimal.Digits.text Decimal.Digits.plain Decimal.Digits.scientific
  split
  · split <;> simp
  · simp

theorem decimal_ne_nil (x : Float) : Decimal.text x ≠ [] := by
  have unsigned : (if (Decimal.magnitude x).significand = 0 then ['0', '.', '0']
      else (Decimal.magnitude x).shortest.text) ≠ [] := by
    split
    · simp
    · exact layout_ne_nil _
  unfold Decimal.text
  split
  · simp
  · exact unsigned

namespace Number

theorem text_isPlain (n : Number) : ∀ c ∈ n.text, isPlain c = true := by
  intro c hc
  rcases n with (n | n) | x
  · exact isPlain_of_isNumeric (toDigits_isNumeric hc)
  · rcases List.mem_cons.mp hc with rfl | hc
    · decide
    · exact isPlain_of_isNumeric (toDigits_isNumeric hc)
  · simp only [text] at hc
    split at hc
    · exact isPlain_of_isNumeric (decimal_isNumeric x c hc)
    · exact List.all_eq_true.mp (by decide) c hc

theorem text_ne_nil (n : Number) : n.text ≠ [] := by
  rcases n with (n | n) | x
  · exact Nat.toDigits_ne_nil
  · simp [text]
  · simp only [text]
    split
    · exact decimal_ne_nil x
    · simp

/-- An integer, or a double that is finite. -/
def IsFinite : Number → Prop
  | .int _ => True
  | .double x => Decimal.isFinite x = true

theorem int_text_isDigit (n : Int) : ∀ c ∈ (int n).text, c.isDigit = true ∨ c = '-' := by
  intro c hc
  rcases n with n | n
  · exact .inl (Nat.isDigit_of_mem_toDigits (by decide) (by decide) hc)
  · rcases List.mem_cons.mp hc with rfl | hc
    · exact .inr rfl
    · exact .inl (Nat.isDigit_of_mem_toDigits (by decide) (by decide) hc)

theorem text_isNumeric {n : Number} (h : n.IsFinite) : ∀ c ∈ n.text, isNumeric c = true := by
  intro c hc
  cases n with
  | int n =>
    rcases int_text_isDigit n c hc with hd | rfl
    · exact isNumeric_of_isDigit hd
    · decide
  | double x =>
    have h : Decimal.isFinite x = true := h
    rw [text, if_pos h] at hc
    exact decimal_isNumeric x c hc

theorem int_text_inj {m n : Int} (h : (int m).text = (int n).text) : m = n := by
  have unsigned (k : Nat) : ∀ l, '-' :: l ≠ Nat.toDigits 10 k := fun l hl => by
    have := Nat.isDigit_of_mem_toDigits (by decide) (by decide) (hl ▸ List.mem_cons_self)
    revert this
    decide
  rcases m with m | m <;> rcases n with n | n
  · exact congrArg Int.ofNat (toDigits_inj h)
  · exact absurd h.symm (unsigned m _)
  · exact absurd h (unsigned n _)
  · have := toDigits_inj (List.cons.inj h).2
    rw [Nat.succ.inj this]

theorem int_text_ne_double (n : Int) {x : Float} (h : Decimal.isFinite x = true) :
    (int n).text ≠ (double x).text := by
  intro he
  rw [text.eq_def (double x)] at he
  simp only [if_pos h] at he
  rcases Decimal.text_marked x with hc | hc
  · rcases int_text_isDigit n _ (he ▸ hc) with hd | hd <;> revert hd <;> decide
  · rcases int_text_isDigit n _ (he ▸ hc) with hd | hd <;> revert hd <;> decide

theorem text_inj {m n : Number} (hm : m.IsFinite) (hn : n.IsFinite) (h : m.text = n.text) : m = n := by
  cases m with
  | int m =>
    cases n with
    | int n => rw [int_text_inj h]
    | double y => exact absurd h (int_text_ne_double m hn)
  | double x =>
    cases n with
    | int n => exact absurd h.symm (int_text_ne_double n hm)
    | double y =>
      have hm : Decimal.isFinite x = true := hm
      have hn : Decimal.isFinite y = true := hn
      rw [text, text, if_pos hm, if_pos hn] at h
      rw [Decimal.text_inj hm hn h]

end Number

/-! ## Values -/

/-- A rest of text in front of which a value ends: it is empty or starts with a separator or
a closing bracket. -/
def Closed (rest : List Char) : Prop := ∀ c ∈ rest.head?, isPlain c = false

theorem Closed.nil : Closed [] := by simp [Closed]

theorem Closed.cons {c : Char} {rest : List Char} (h : isPlain c = false) : Closed (c :: rest) := by
  simpa [Closed] using h

/-- What is plain ends in front of a closed rest. -/
theorem Closed.split : ∀ {a b r q : List Char}, Closed r → Closed q →
    (∀ c ∈ a, isPlain c = true) → (∀ c ∈ b, isPlain c = true) → a ++ r = b ++ q → a = b ∧ r = q
  | [], [], _, _, _, _, _, _, h => ⟨rfl, h⟩
  | [], c :: b, _, _, hr, _, _, hb, h => by
    have hc := hr c (by simp only [List.nil_append] at h; simp [h])
    simp [hb c List.mem_cons_self] at hc
  | c :: a, [], _, _, _, hq, ha, _, h => by
    have hc := hq c (by simp only [List.nil_append] at h; simp [← h])
    simp [ha c List.mem_cons_self] at hc
  | c :: a, d :: b, r, q, hr, hq, ha, hb, h => by
    simp only [List.cons_append, List.cons.injEq] at h
    obtain ⟨rfl, h⟩ := h
    have ih := Closed.split hr hq (fun x hx => ha x (List.mem_cons_of_mem c hx))
      (fun x hx => hb x (List.mem_cons_of_mem c hx)) h
    exact ⟨by rw [ih.1], ih.2⟩

namespace Value

mutual
/-- Every double that is a part of the value is finite. -/
def IsFinite : Value → Prop
  | .number n => n.IsFinite
  | .array items => ItemsFinite items
  | .object members => MembersFinite members
  | _ => True

/-- All items are finite. -/
def ItemsFinite : List Value → Prop
  | [] => True
  | v :: vs => IsFinite v ∧ ItemsFinite vs

/-- All members are finite. -/
def MembersFinite : List (String × Value) → Prop
  | [] => True
  | (_, v) :: ms => IsFinite v ∧ MembersFinite ms
end

/-- The text of a value that is written without quotes and brackets. -/
def atom? : Value → Option (List Char)
  | .null => some ['n', 'u', 'l', 'l']
  | .bool b => some (writeBool b [])
  | .number n => some n.text
  | _ => none

theorem write_atom {v : Value} {a : List Char} (h : v.atom? = some a) (rest : List Char) :
    v.write rest = a ++ rest := by
  cases v with
  | null => cases h; rfl
  | bool b => cases h; cases b <;> rfl
  | number n => cases h; rw [write]
  | _ => cases h

theorem atom_isPlain {v : Value} {a : List Char} (h : v.atom? = some a) :
    a ≠ [] ∧ ∀ c ∈ a, isPlain c = true := by
  cases v with
  | null => cases h; exact ⟨by simp, List.all_eq_true.mp (by decide)⟩
  | bool b => cases h; cases b <;> exact ⟨by simp [writeBool], List.all_eq_true.mp (by decide)⟩
  | number n => cases h; exact ⟨n.text_ne_nil, n.text_isPlain⟩
  | _ => cases h

/-- What is no atom starts with a quote or an opening bracket. -/
theorem write_opens {v : Value} (h : v.atom? = none) (rest : List Char) :
    ∃ c s, v.write rest = c :: s ∧ isPlain c = false ∧ c ≠ ']' := by
  cases v with
  | string s => exact ⟨'"', _, by rw [write, quoted]; rfl, by decide, by decide⟩
  | array vs => cases vs <;> exact ⟨'[', _, by rw [write], by decide, by decide⟩
  | object ms =>
    rcases ms with _ | ⟨⟨n, v⟩, ms⟩ <;> exact ⟨'{', _, by rw [write], by decide, by decide⟩
  | _ => cases h

/-- No value starts with the bracket that closes an array. -/
theorem write_ne_closing (v : Value) (rest s : List Char) : v.write rest ≠ ']' :: s := by
  intro h
  cases hv : v.atom? with
  | some a =>
    obtain ⟨hne, hplain⟩ := atom_isPlain hv
    obtain ⟨c, a, rfl⟩ := List.exists_cons_of_ne_nil hne
    rw [write_atom hv] at h
    obtain rfl := (List.cons.inj h).1
    exact absurd (hplain ']' List.mem_cons_self) (by decide)
  | none =>
    obtain ⟨c, t, ht, -, hc⟩ := write_opens hv rest
    exact hc (List.cons.inj (ht.symm.trans h)).1

/-- Two texts of one beginning are both texts of atoms or both not. -/
theorem atom?_of_write {v w : Value} {r q : List Char} (h : v.write r = w.write q) :
    v.atom?.isSome = w.atom?.isSome := by
  have opens {v w : Value} {a r q : List Char} (ha : v.atom? = some a) (hw : w.atom? = none) :
      v.write r ≠ w.write q := by
    obtain ⟨hne, hplain⟩ := atom_isPlain ha
    obtain ⟨c, s, hs, hc, -⟩ := write_opens hw q
    obtain ⟨d, a, rfl⟩ := List.exists_cons_of_ne_nil hne
    rw [write_atom ha, hs]
    intro hd
    rw [(List.cons.inj hd).1] at hplain
    simp [hplain c List.mem_cons_self] at hc
  cases hv : v.atom? <;> cases hw : w.atom?
  · rfl
  · exact absurd h.symm (opens hw hv)
  · exact absurd h (opens hv hw)
  · rfl

theorem atom_inj {v w : Value} {a : List Char} (hv : v.atom? = some a) (hw : w.atom? = some a)
    (fv : v.IsFinite) (fw : w.IsFinite) : v = w := by
  have numeric {n : Number} {c : Char} {s : List Char} (fn : (number n).IsFinite)
      (hc : isNumeric c = false) : n.text ≠ c :: s := fun hn => by
    have := Number.text_isNumeric fn c (hn ▸ List.mem_cons_self)
    simp [hc] at this
  have h : v.atom? = w.atom? := hv.trans hw.symm
  rcases v with _ | (_ | _) | m | _ | _ | _ <;> rcases w with _ | (_ | _) | n | _ | _ | _
  all_goals first
    | rfl
    | cases hv; done
    | cases hw; done
    | cases h
    | exact absurd (Option.some.inj h) (numeric fv (by decide))
    | exact absurd (Option.some.inj h).symm (numeric fw (by decide))
    | exact congrArg number (Number.text_inj fv fw (Option.some.inj h))

/-- Two values are written alike, and are one value if they are finite. -/
structure Alike (v w : Value) : Prop where
  write : ∀ rest, v.write rest = w.write rest
  eq : v.IsFinite → w.IsFinite → v = w

theorem Alike.refl (v : Value) : Alike v v := ⟨fun _ => rfl, fun _ _ => rfl⟩

theorem alike_atoms {v w : Value} {r q : List Char} (hv : v.atom?.isSome) (hr : Closed r)
    (hq : Closed q) (h : v.write r = w.write q) : Alike v w ∧ r = q := by
  obtain ⟨a, ha⟩ := Option.isSome_iff_exists.mp hv
  obtain ⟨b, hb⟩ := Option.isSome_iff_exists.mp (atom?_of_write h ▸ hv)
  rw [write_atom ha, write_atom hb] at h
  obtain ⟨rfl, hrest⟩ := hr.split hq (atom_isPlain ha).2 (atom_isPlain hb).2 h
  exact ⟨⟨fun rest => by rw [write_atom ha, write_atom hb], atom_inj ha hb⟩, hrest⟩

/-- The items of two arrays are written alike. -/
structure ItemsAlike (vs ws : List Value) : Prop where
  write : ∀ rest, writeItems vs rest = writeItems ws rest
  eq : ItemsFinite vs → ItemsFinite ws → vs = ws

/-- Members are written alike, and are the same ones if they are finite. -/
structure MembersAlike (ms ns : List (String × Value)) : Prop where
  write : ∀ rest, writeMembers ms rest = writeMembers ns rest
  eq : MembersFinite ms → MembersFinite ns → ms = ns

theorem writeItems_closed (vs : List Value) (rest : List Char) :
    Closed (writeItems vs (']' :: rest)) := by
  cases vs <;> exact Closed.cons (by decide)

theorem writeMembers_closed (ms : List (String × Value)) (rest : List Char) :
    Closed (writeMembers ms ('}' :: rest)) := by
  rcases ms with _ | ⟨⟨n, v⟩, ms⟩ <;> exact Closed.cons (by decide)

mutual
/-- **A value shows where it ends**: if the texts of two values are followed by closed rests and
the whole texts are one, then so are the texts of the values, and the rests. -/
theorem write_split : ∀ (v w : Value) {r q : List Char}, Closed r → Closed q →
    v.write r = w.write q → Alike v w ∧ r = q
  | .null, w, r, q, hr, hq, h => alike_atoms rfl hr hq h
  | .bool b, w, r, q, hr, hq, h => alike_atoms rfl hr hq h
  | .number n, w, r, q, hr, hq, h => alike_atoms rfl hr hq h
  | .string s, w, r, q, hr, hq, h => by
    have hw := atom?_of_write h
    cases w with
    | string t =>
      simp only [write] at h
      obtain ⟨rfl, hrest⟩ := quoted_inj h
      exact ⟨Alike.refl _, hrest⟩
    | array ws => cases ws <;> simp [write, quoted] at h
    | object ns => rcases ns with _ | ⟨⟨n, w⟩, ns⟩ <;> simp [write, quoted] at h
    | _ => cases hw
  | .array [], w, r, q, hr, hq, h => by
    have hw := atom?_of_write h
    cases w with
    | string t => simp [write, quoted] at h
    | array ws =>
      cases ws with
      | nil => exact ⟨Alike.refl _, by simpa [write] using h⟩
      | cons w ws =>
        simp only [write, List.cons.injEq, true_and] at h
        exact absurd h.symm (write_ne_closing w _ _)
    | object ns => rcases ns with _ | ⟨⟨n, w⟩, ns⟩ <;> simp [write, quoted] at h
    | _ => cases hw
  | .array (v :: vs), w, r, q, hr, hq, h => by
    have hw := atom?_of_write h
    cases w with
    | string t => simp [write, quoted] at h
    | array ws =>
      cases ws with
      | nil =>
        simp only [write, List.cons.injEq, true_and] at h
        exact absurd h (write_ne_closing v _ _)
      | cons w ws =>
        simp only [write, List.cons.injEq, true_and] at h
        obtain ⟨hv, hrest⟩ := write_split v w (writeItems_closed vs r) (writeItems_closed ws q) h
        obtain ⟨hvs, hrest⟩ := writeItems_split vs ws hrest
        exact ⟨⟨fun rest => by simp only [write, hvs.write, hv.write], fun fv fw => by
          rw [hv.eq fv.1 fw.1, hvs.eq fv.2 fw.2]⟩, hrest⟩
    | object ns => rcases ns with _ | ⟨⟨n, w⟩, ns⟩ <;> simp [write, quoted] at h
    | _ => cases hw
  | .object [], w, r, q, hr, hq, h => by
    have hw := atom?_of_write h
    cases w with
    | string t => simp [write, quoted] at h
    | array ws => cases ws <;> simp [write] at h
    | object ns =>
      rcases ns with _ | ⟨⟨n, w⟩, ns⟩
      · exact ⟨Alike.refl _, by simpa [write] using h⟩
      · simp [write, quoted] at h
    | _ => cases hw
  | .object ((n, v) :: ms), w, r, q, hr, hq, h => by
    have hw := atom?_of_write h
    cases w with
    | string t => simp [write, quoted] at h
    | array ws => cases ws <;> simp [write] at h
    | object ns =>
      rcases ns with _ | ⟨⟨n', w⟩, ns⟩
      · simp [write, quoted] at h
      · simp only [write, List.cons.injEq, true_and] at h
        obtain ⟨rfl, hm⟩ := quoted_inj h
        obtain ⟨hv, hrest⟩ :=
          write_split v w (writeMembers_closed ms r) (writeMembers_closed ns q) (List.cons.inj hm).2
        obtain ⟨hms, hrest⟩ := writeMembers_split ms ns hrest
        exact ⟨⟨fun rest => by simp only [write, hms.write, hv.write], fun fv fw => by
          rw [hv.eq fv.1 fw.1, hms.eq fv.2 fw.2]⟩, hrest⟩
    | _ => cases hw

theorem writeItems_split : ∀ (vs ws : List Value) {r q : List Char},
    writeItems vs (']' :: r) = writeItems ws (']' :: q) → ItemsAlike vs ws ∧ r = q
  | [], [], r, q, h => ⟨⟨fun _ => rfl, fun _ _ => rfl⟩, by simpa [writeItems] using h⟩
  | [], w :: ws, r, q, h => by simp [writeItems] at h
  | v :: vs, [], r, q, h => by simp [writeItems] at h
  | v :: vs, w :: ws, r, q, h => by
    simp only [writeItems, List.cons.injEq, true_and] at h
    obtain ⟨hv, hrest⟩ := write_split v w (writeItems_closed vs r) (writeItems_closed ws q) h
    obtain ⟨hvs, hrest⟩ := writeItems_split vs ws hrest
    exact ⟨⟨fun rest => by simp only [writeItems, hvs.write, hv.write], fun fv fw => by
      rw [hv.eq fv.1 fw.1, hvs.eq fv.2 fw.2]⟩, hrest⟩

theorem writeMembers_split : ∀ (ms ns : List (String × Value)) {r q : List Char},
    writeMembers ms ('}' :: r) = writeMembers ns ('}' :: q) → MembersAlike ms ns ∧ r = q
  | [], [], r, q, h => ⟨⟨fun _ => rfl, fun _ _ => rfl⟩, by simpa [writeMembers] using h⟩
  | [], (n, w) :: ns, r, q, h => by simp [writeMembers] at h
  | (n, v) :: ms, [], r, q, h => by simp [writeMembers] at h
  | (n, v) :: ms, (n', w) :: ns, r, q, h => by
    simp only [writeMembers, List.cons.injEq, true_and] at h
    obtain ⟨rfl, hm⟩ := quoted_inj h
    obtain ⟨hv, hrest⟩ :=
      write_split v w (writeMembers_closed ms r) (writeMembers_closed ns q) (List.cons.inj hm).2
    obtain ⟨hms, hrest⟩ := writeMembers_split ms ns hrest
    exact ⟨⟨fun rest => by simp only [writeMembers, hms.write, hv.write], fun fv fw => by
      rw [hv.eq fv.1 fw.1, hms.eq fv.2 fw.2]⟩, hrest⟩
end

theorem writeItems_alike : ∀ (vs ws : List Value) {r q : List Char},
    writeItems vs (']' :: r) = writeItems ws (']' :: q) → List.Forall₂ Alike vs ws
  | [], [], _, _, _ => .nil
  | [], w :: ws, r, q, h => by simp [writeItems] at h
  | v :: vs, [], r, q, h => by simp [writeItems] at h
  | v :: vs, w :: ws, r, q, h => by
    simp only [writeItems, List.cons.injEq, true_and] at h
    obtain ⟨hv, hrest⟩ := write_split v w (writeItems_closed vs r) (writeItems_closed ws q) h
    exact .cons hv (writeItems_alike vs ws hrest)

theorem writeItems_congr {vs ws : List Value} (h : List.Forall₂ Alike vs ws) (rest : List Char) :
    writeItems vs rest = writeItems ws rest := by
  induction h with
  | nil => rfl
  | cons hv _ ih => simp only [writeItems, ih, hv.write]

/-- **An array shows its items**: the texts of two arrays are one when their items are written alike,
one by one. -/
theorem array_text_iff {vs ws : List Value} :
    (array vs).text = (array ws).text ↔ List.Forall₂ Alike vs ws := by
  constructor
  · intro h
    have h : (array vs).write [] = (array ws).write [] := String.ofList_inj.mp h
    cases vs with
    | nil =>
      cases ws with
      | nil => exact .nil
      | cons w ws =>
        simp only [write, List.cons.injEq, true_and] at h
        exact absurd h.symm (write_ne_closing w _ _)
    | cons v vs =>
      cases ws with
      | nil =>
        simp only [write, List.cons.injEq, true_and] at h
        exact absurd h (write_ne_closing v _ _)
      | cons w ws =>
        simp only [write, List.cons.injEq, true_and] at h
        obtain ⟨hv, hrest⟩ := write_split v w (writeItems_closed vs []) (writeItems_closed ws []) h
        exact .cons hv (writeItems_alike vs ws hrest)
  · intro h
    cases h with
    | nil => rfl
    | cons hv hvs => simp only [text, write, writeItems_congr hvs, hv.write]

/-- **Finite values are told apart by their texts.** -/
theorem text_inj {v w : Value} (fv : v.IsFinite) (fw : w.IsFinite) (h : v.text = w.text) :
    v = w :=
  (write_split v w Closed.nil Closed.nil (String.ofList_inj.mp h)).1.eq fv fw

end Value

end Joinery.Json
