/-
The tokens of a JSON text.

`tokens?` cuts a text into brackets, separators, literals, numbers and strings,
with blanks between them. Each step takes at least one character, which is why
it ends. A number keeps its digits until it is read as an integer that fits 64
bits or else as a double.
-/
import Joinery.Decimal.Scaled
import Joinery.Json.Value

namespace Joinery.Json

/-- What a JSON text is made of. -/
inductive Token where
  | beginArray
  | endArray
  | beginObject
  | endObject
  | comma
  | colon
  | null
  | bool (b : Bool)
  /-- Nothing if it is too large for a double. -/
  | number (n : Option Number)
  /-- Nothing if it has half of a surrogate pair. -/
  | string (s : Option String)
  deriving DecidableEq

/-- Space, tab, line feed and carriage return. -/
def isSpace (c : Char) : Bool := c = ' ' || c = '\t' || c = '\n' || c = '\r'

/-! ## Numbers -/

/-- A number as it is written: sign, digits before the point, digits after it, exponent. -/
structure Numeral where
  negative : Bool
  whole : List Nat
  fraction : Option (List Nat)
  exponent : Option Int

/-- The value of an ASCII digit. -/
def digitValue (c : Char) : Nat := c.toNat - 48

/-- The number that some digits write in base ten. -/
def decimalValue (digits : List Nat) : Nat := digits.foldl (fun n d => 10 * n + d) 0

/-- Without point and exponent a number is an integer if it fits 64 bits, with or without a sign;
otherwise, and for `-0`, it is a double, or nothing if it is too large for one. -/
def Numeral.number? (l : Numeral) : Option Number :=
  let n := decimalValue l.whole
  let integral := l.fraction.isNone && l.exponent.isNone
  if integral && !l.negative && n < 0x10000000000000000 then some (.int n)
  else if integral && l.negative && 0 < n && n ≤ 0x8000000000000000 then some (.int (-n))
  else do
    let x ← Decimal.read? l.whole (l.fraction.getD []) (l.exponent.getD 0)
    return .double (if l.negative then -x else x)

/-- A run of at least one digit at the start, and the rest. -/
def digits? (s : List Char) : Option (List Nat × List Char) :=
  match s.takeWhile Char.isDigit with
  | [] => none
  | run => some (run.map digitValue, s.drop run.length)

/-- The digits before the point: zero alone, or a run that does not start with zero. -/
def wholePart? (s : List Char) : Option (List Nat × List Char) := do
  let (digits, rest) ← digits? s
  if digits.head? = some 0 && digits.length ≠ 1 then none else some (digits, rest)

/-- The point and at least one digit, if there is a point. -/
def fractionPart? (s : List Char) : Option (Option (List Nat) × List Char) :=
  match s with
  | '.' :: s => (digits? s).map fun (digits, rest) => (some digits, rest)
  | s => some (none, s)

/-- The sign of an exponent, which may be absent. -/
def exponentSign (s : List Char) : Bool × List Char :=
  match s with
  | '-' :: s => (true, s)
  | '+' :: s => (false, s)
  | s => (false, s)

/-- The exponent: a mark, perhaps a sign, at least one digit. -/
def exponentPart? (s : List Char) : Option (Option Int × List Char) :=
  match s with
  | [] => some (none, [])
  | c :: s =>
    if c = 'e' ∨ c = 'E' then
      (digits? (exponentSign s).2).map fun (digits, rest) =>
        let n : Int := decimalValue digits
        (some (if (exponentSign s).1 then -n else n), rest)
    else some (none, c :: s)

/-- A number at the start of the text, after its sign. -/
def unsigned? (negative : Bool) (s : List Char) : Option (Numeral × List Char) := do
  let (whole, s) ← wholePart? s
  let (fraction, s) ← fractionPart? s
  let (exponent, s) ← exponentPart? s
  return (⟨negative, whole, fraction, exponent⟩, s)

/-- A number at the start of the text. -/
def numeral? : List Char → Option (Numeral × List Char)
  | '-' :: s => unsigned? true s
  | s => unsigned? false s

/-! ## Strings -/

/-- The value of a hexadecimal digit, in either case. -/
def hexValue? (c : Char) : Option Nat :=
  if c.isDigit then some (c.toNat - 48)
  else if 'a' ≤ c ∧ c ≤ 'f' then some (c.toNat - 87)
  else if 'A' ≤ c ∧ c ≤ 'F' then some (c.toNat - 55)
  else none

/-- A 16-bit unit written with four hexadecimal digits. -/
def unit? (a b c d : Char) : Option Nat := do
  return (((← hexValue? a) * 16 + (← hexValue? b)) * 16 + (← hexValue? c)) * 16 + (← hexValue? d)

/-- The character that a letter after a backslash stands for. -/
def escapeLetter? : Char → Option Char
  | '"' => some '"'
  | '\\' => some '\\'
  | '/' => some '/'
  | 'b' => some '\x08'
  | 'f' => some '\x0c'
  | 'n' => some '\n'
  | 'r' => some '\r'
  | 't' => some '\t'
  | _ => none

/-- A part of a string: a character, or one 16-bit unit of an escape. -/
inductive Piece where
  | char (c : Char)
  | unit (n : Nat)
  deriving DecidableEq

/-- The parts of a string up to its closing quote, and the rest of the text. -/
def pieces? : List Char → Option (List Piece × List Char)
  | [] => none
  | '"' :: s => some ([], s)
  | '\\' :: 'u' :: a :: b :: c :: d :: s => do
    let n ← unit? a b c d
    let (ps, rest) ← pieces? s
    return (.unit n :: ps, rest)
  | '\\' :: c :: s => do
    let e ← escapeLetter? c
    let (ps, rest) ← pieces? s
    return (.char e :: ps, rest)
  | c :: s =>
    if c = '\\' ∨ c.toNat < 32 then none
    else do
      let (ps, rest) ← pieces? s
      return (.char c :: ps, rest)

/-- The characters of the parts: a high and a low surrogate make one character, and either of
them alone makes none. -/
def assemble? : List Piece → Option (List Char)
  | [] => some []
  | .char c :: ps => do return c :: (← assemble? ps)
  | .unit h :: .unit l :: ps =>
    if 0xD800 ≤ h ∧ h < 0xDC00 then
      if 0xDC00 ≤ l ∧ l < 0xE000 then do
        return Char.ofNat (0x10000 + (h - 0xD800) * 0x400 + (l - 0xDC00)) :: (← assemble? ps)
      else none
    else if 0xDC00 ≤ h ∧ h < 0xE000 then none
    else do return Char.ofNat h :: (← assemble? (.unit l :: ps))
  | .unit h :: ps =>
    if 0xD800 ≤ h ∧ h < 0xE000 then none
    else do return Char.ofNat h :: (← assemble? ps)

/-! ## The text -/

/-- A token at the start of a text, and the rest. -/
def token? : List Char → Option (Token × List Char)
  | '[' :: s => some (.beginArray, s)
  | ']' :: s => some (.endArray, s)
  | '{' :: s => some (.beginObject, s)
  | '}' :: s => some (.endObject, s)
  | ',' :: s => some (.comma, s)
  | ':' :: s => some (.colon, s)
  | 'n' :: 'u' :: 'l' :: 'l' :: s => some (.null, s)
  | 't' :: 'r' :: 'u' :: 'e' :: s => some (.bool true, s)
  | 'f' :: 'a' :: 'l' :: 's' :: 'e' :: s => some (.bool false, s)
  | '"' :: s => do
    let (ps, rest) ← pieces? s
    return (.string ((assemble? ps).map String.ofList), rest)
  | s => do
    let (l, rest) ← numeral? s
    return (.number l.number?, rest)

/-! ## Every token takes a character -/

theorem digits?_length {s rest : List Char} {d : List Nat} (h : digits? s = some (d, rest)) :
    rest.length < s.length := by
  simp only [digits?] at h
  split at h
  · cases h
  · next run hne =>
    cases h
    have hpos : 0 < (s.takeWhile Char.isDigit).length := List.length_pos_iff.mpr hne
    have hle := (List.takeWhile_sublist Char.isDigit (l := s)).length_le
    simp only [List.length_drop]
    omega

theorem wholePart?_length {s rest : List Char} {w : List Nat} (h : wholePart? s = some (w, rest)) :
    rest.length < s.length := by
  simp only [wholePart?, Option.bind_eq_bind, Option.bind_eq_some_iff, Prod.exists] at h
  obtain ⟨d, r, hd, h⟩ := h
  split at h
  · cases h
  · cases h; exact digits?_length hd

theorem fractionPart?_length {s rest : List Char} {f : Option (List Nat)}
    (h : fractionPart? s = some (f, rest)) : rest.length ≤ s.length := by
  simp only [fractionPart?] at h
  split at h
  · simp only [Option.map_eq_some_iff, Prod.exists, Prod.mk.injEq] at h
    obtain ⟨d, r, hd, -, rfl⟩ := h
    have := digits?_length hd
    simp only [List.length_cons]
    omega
  · cases h; exact Nat.le_refl _

theorem exponentSign_length (s : List Char) : (exponentSign s).2.length ≤ s.length := by
  simp only [exponentSign]
  split <;> simp

theorem exponentPart?_length {s rest : List Char} {e : Option Int}
    (h : exponentPart? s = some (e, rest)) : rest.length ≤ s.length := by
  simp only [exponentPart?] at h
  split at h
  · cases h; exact Nat.le_refl _
  · next c s =>
    split at h
    · simp only [Option.map_eq_some_iff, Prod.exists, Prod.mk.injEq] at h
      obtain ⟨d, r, hd, -, rfl⟩ := h
      have := digits?_length hd
      have := exponentSign_length s
      simp only [List.length_cons]
      omega
    · cases h; exact Nat.le_refl _

theorem unsigned?_length {negative : Bool} {s rest : List Char} {l : Numeral}
    (h : unsigned? negative s = some (l, rest)) : rest.length < s.length := by
  simp only [unsigned?, Option.bind_eq_bind, Option.bind_eq_some_iff, Option.pure_def,
    Option.some.injEq, Prod.exists, Prod.mk.injEq] at h
  obtain ⟨w, s₁, hw, f, s₂, hf, e, s₃, he, -, rfl⟩ := h
  have := wholePart?_length hw
  have := fractionPart?_length hf
  have := exponentPart?_length he
  omega

theorem numeral?_length {s rest : List Char} {l : Numeral} (h : numeral? s = some (l, rest)) :
    rest.length < s.length := by
  simp only [numeral?] at h
  split at h
  · have := unsigned?_length h
    simp only [List.length_cons]
    omega
  · exact unsigned?_length h

theorem pieces?_length {s : List Char} :
    ∀ {ps : List Piece} {rest : List Char}, pieces? s = some (ps, rest) → rest.length < s.length := by
  fun_induction pieces? s with
  | case1 => intro _ _ h; cases h
  | case2 s => intro _ _ h; cases h; simp
  | case3 a b c d s ih =>
    intro _ _ h
    simp only [Option.bind_eq_bind, Option.bind_eq_some_iff, Option.pure_def, Option.some.injEq,
      Prod.exists, Prod.mk.injEq] at h
    obtain ⟨n, -, ps, r, hp, -, rfl⟩ := h
    have := ih hp
    simp only [List.length_cons]
    omega
  | case4 c s _ ih =>
    intro _ _ h
    simp only [Option.bind_eq_bind, Option.bind_eq_some_iff, Option.pure_def, Option.some.injEq,
      Prod.exists, Prod.mk.injEq] at h
    obtain ⟨n, -, ps, r, hp, -, rfl⟩ := h
    have := ih hp
    simp only [List.length_cons]
    omega
  | case5 => intro _ _ h; cases h
  | case6 c s _ _ _ _ ih =>
    intro _ _ h
    simp only [Option.bind_eq_bind, Option.bind_eq_some_iff, Option.pure_def, Option.some.injEq,
      Prod.exists, Prod.mk.injEq] at h
    obtain ⟨ps, r, hp, -, rfl⟩ := h
    have := ih hp
    simp only [List.length_cons]
    omega

theorem token?_length {s rest : List Char} {t : Token} (h : token? s = some (t, rest)) :
    rest.length < s.length := by
  simp only [token?] at h
  split at h
  case h_10 s =>
    simp only [Option.bind_eq_bind, Option.bind_eq_some_iff, Option.pure_def, Option.some.injEq,
      Prod.exists, Prod.mk.injEq] at h
    obtain ⟨ps, r, hp, -, rfl⟩ := h
    have := pieces?_length hp
    simp only [List.length_cons]
    omega
  case h_11 s _ _ _ _ _ _ _ _ _ _ =>
    simp only [Option.bind_eq_bind, Option.bind_eq_some_iff, Option.pure_def, Option.some.injEq,
      Prod.exists, Prod.mk.injEq] at h
    obtain ⟨l, r, hl, -, rfl⟩ := h
    exact numeral?_length hl
  all_goals
    cases h
    simp only [List.length_cons]
    omega

/-- The tokens of a text. -/
def tokens? (s : List Char) : Option (List Token) :=
  match s with
  | [] => some []
  | c :: cs =>
    if isSpace c then tokens? cs
    else match h : token? (c :: cs) with
      | none => none
      | some (t, rest) =>
        have : rest.length ≤ cs.length := Nat.le_of_lt_succ (token?_length h)
        (tokens? rest).map (t :: ·)
termination_by s.length

end Joinery.Json
