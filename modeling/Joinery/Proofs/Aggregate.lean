/-
What the text of an aggregate request is read as.

What stands after the name is always read back (`Written.parseExpression`): the
brackets and the dots that were written are the ones that are found. A name may
hold anything, and the text is cut at the first ` is `, so one that ends in ` is`
gives its end to the ` is ` that follows it. Every other request that was read
from a text is read back from its own (`parse_text_iff`).
-/
import Joinery.Aggregate
import Joinery.Proofs.Outcome
import Joinery.Proofs.Path

namespace Joinery

theorem Operator.parse_name (op : Operator) : Operator.parse op.name = .ok op := by
  cases op <;> decide

theorem Operator.bracket_not_mem (op : Operator) : '(' ∉ op.name.toList := by
  cases op <;> decide

theorem Operator.blank_not_mem (op : Operator) : ' ' ∉ op.name.toList := by
  cases op <;> decide

theorem Operator.tidy_name (op : Operator) : Text.Tidy op.name.toList := by
  cases op <;> exact ⟨by decide, by decide⟩

namespace AggregateRequest

/-- How a text is read that stands after a name: as a path, or as an operator with what is in the
brackets behind it. -/
theorem parseExpression_cases {whole : String} {e : List Char} {op : Option Operator}
    {path : Option Path} (h : parseExpression whole e = .ok (op, path)) :
    (op = none ∧ ¬ ['('] <:+: e ∧ ∃ p, path = some p ∧ Path.parse (String.ofList e) = .ok p) ∨
    (∃ o, op = some o) ∧ ∀ p, path = some p →
      ∃ argument, argument <:+: e ∧ Path.parse (String.ofList argument) = .ok p := by
  simp only [parseExpression] at h
  split at h
  · next hcut =>
    obtain ⟨p, hp, h⟩ := bind_eq_ok_iff.mp h
    cases h
    exact .inl ⟨rfl, Text.cutAt_eq_none_iff.mp hcut, p, rfl, hp⟩
  · next operator rest hcut =>
    have hargument : Text.trim rest.dropLast <:+: e := by
      rw [Text.cutAt_eq_some hcut]
      exact (Text.trim_infix _).trans
        ((List.dropLast_prefix rest).isInfix.trans (List.suffix_append _ rest).isInfix)
    split at h
    · obtain ⟨o, -, h⟩ := bind_eq_ok_iff.mp h
      split at h
      · cases h
        exact .inr ⟨⟨o, rfl⟩, nofun⟩
      · obtain ⟨p, hp, h⟩ := bind_eq_ok_iff.mp h
        cases h
        refine .inr ⟨⟨o, rfl⟩, fun q hq => ⟨_, hargument, ?_⟩⟩
        cases hq
        exact hp
    · cases h

/-- What can be written after a name: a path without an opening bracket, or an operator with a path or
without one. -/
structure Written (r : AggregateRequest) : Prop where
  tidy : ∀ p, r.path = some p → p.Tidy
  bare : r.op = none → ∃ p, r.path = some p ∧ ¬ ['('] <:+: p.text.toList

theorem parseExpression_parsed {whole : String} {e : List Char} {op : Option Operator}
    {path : Option Path} (h : parseExpression whole e = .ok (op, path)) : ∀ p ∈ path, p.Parsed := by
  rcases parseExpression_cases h with ⟨-, -, p, rfl, hp⟩ | ⟨-, hargument⟩
  · rintro _ ⟨⟩
    exact ⟨_, hp⟩
  · intro p hpath
    obtain ⟨argument, -, hp⟩ := hargument p hpath
    exact ⟨_, hp⟩

theorem written_of_parseExpression {whole : String} {e : List Char} {r : AggregateRequest}
    (h : parseExpression whole e = .ok (r.op, r.path)) : r.Written := by
  refine ⟨fun p hp => (parseExpression_parsed h p hp).tidy, fun hnone => ?_⟩
  rcases parseExpression_cases h with ⟨-, hbracket, p, hpath, hp⟩ | ⟨⟨o, hop⟩, -⟩
  · refine ⟨p, hpath, fun hin => hbracket ?_⟩
    simpa using Path.infix_of_infix_text hp (by decide) hin
  · cases hop.symm.trans hnone

/-- The text between the brackets: none for the rows. -/
def argument (r : AggregateRequest) : List Char := r.path.elim [] (·.text.toList)

theorem toList_expression {r : AggregateRequest} {op : Operator} (hop : r.op = some op) :
    r.expression.toList = op.name.toList ++ ['('] ++ (r.argument ++ [')']) := by
  have hstring : ∀ s : String, toString s = s := fun _ => rfl
  cases hpath : r.path <;> simp [expression, argument, hop, hpath, hstring]

theorem Written.tidy_expression {r : AggregateRequest} (h : r.Written) :
    Text.Tidy r.expression.toList := by
  cases hop : r.op with
  | some op =>
    have hclose : Text.Tidy [')'] := ⟨by decide, by decide⟩
    have := op.tidy_name.between hclose (['('] ++ r.argument)
    simpa [toList_expression hop] using this
  | none =>
    obtain ⟨p, hp, -⟩ := h.bare hop
    have := (h.tidy p hp).text
    simpa [expression, hop, hp] using this

/-- What is written after a name is read back, whatever text it is a part of. -/
theorem Written.parseExpression {r : AggregateRequest} (h : r.Written) (whole : String) :
    parseExpression whole r.expression.toList = .ok (r.op, r.path) := by
  cases hop : r.op with
  | some op =>
    have hfirst : ¬ ['('] <:+: op.name.toList ++ ['('].dropLast := fun hin =>
      op.bracket_not_mem (by simpa using hin.subset (List.mem_singleton_self '('))
    have hcut : Text.cutAt ['('] r.expression.toList = some (op.name.toList, r.argument ++ [')']) :=
      toList_expression hop ▸ Text.cutAt_append (by decide) _ hfirst
    simp only [AggregateRequest.parseExpression, hcut, List.getLast?_concat, if_true,
      List.dropLast_concat, String.ofList_toList, op.parse_name]
    cases hpath : r.path with
    | none =>
      have hargument : r.argument = [] := by rw [argument, hpath]; rfl
      rw [hargument]
      rfl
    | some p =>
      have hargument : r.argument = p.text.toList := by rw [argument, hpath]; rfl
      have hp := h.tidy p hpath
      have hne : p.text.toList.isEmpty = false := by simpa using hp.text.1
      simp [hargument, hp.text.2, hne, hp.parse_text, bind, Except.bind, pure, Except.pure]
  | none =>
    obtain ⟨p, hp, hbracket⟩ := h.bare hop
    have hexpression : r.expression = p.text := by rw [expression, hop, hp]
    have hcut := Text.cutAt_eq_none_iff.mpr hbracket
    simp [AggregateRequest.parseExpression, hexpression, hcut, (h.tidy p hp).parse_text, hp, bind,
      Except.bind, pure, Except.pure]

/-- What has a blank in it and no separator, and stands in the expression, stands in the text that was
read: it is in no operator, and not across brackets or dots. -/
theorem infix_of_infix_expression {whole : String} {e : List Char} {r : AggregateRequest}
    (h : AggregateRequest.parseExpression whole e = .ok (r.op, r.path)) {m : List Char}
    (hblank : ' ' ∈ m) (hdot : '.' ∉ m) (hopen : '(' ∉ m) (hclose : ')' ∉ m)
    (hin : m <:+: r.expression.toList) : m <:+: e := by
  rcases parseExpression_cases h with ⟨hop, -, p, hpath, hp⟩ | ⟨⟨op, hop⟩, hargument⟩
  · rw [expression, hop, hpath] at hin
    simpa using Path.infix_of_infix_text hp hdot hin
  · rw [toList_expression hop, ← List.append_nil (r.argument ++ [')'])] at hin
    rcases Text.infix_of_infix_between hopen hin with hin | hin
    · exact absurd (hin.subset hblank) op.blank_not_mem
    · rcases Text.infix_of_infix_between hclose hin with hin | hin
      · cases hpath : r.path with
        | none =>
          rw [argument, hpath] at hin
          exact absurd (hin.subset hblank) List.not_mem_nil
        | some p =>
          obtain ⟨a, ha, hp⟩ := hargument p hpath
          rw [argument, hpath] at hin
          exact (by simpa using Path.infix_of_infix_text hp hdot hin : m <:+: a).trans ha
      · exact absurd (hin.subset hblank) List.not_mem_nil

/-- A text without ` is ` has one together with a further ` is` just if it ends in ` is` itself. -/
theorem infix_append_is_iff {n : List Char} (hn : ¬ [' ', 'i', 's', ' '] <:+: n) :
    [' ', 'i', 's', ' '] <:+: n ++ [' ', 'i', 's'] ↔ [' ', 'i', 's'] <:+ n := by
  constructor
  · intro h
    rcases List.infix_append_iff.mp h with h | h | ⟨front, back, heq, hfront, hback⟩
    · exact absurd h hn
    · exact absurd h.length_le (by decide)
    · -- of the ways to part the marker, only the one before its last blank ends in a part of ` is`
      simp only [List.prefix_cons_iff, List.prefix_nil] at hback
      rcases hback with rfl | ⟨_, rfl, rfl | ⟨_, rfl, rfl | ⟨_, rfl, rfl⟩⟩⟩
      · rw [List.append_nil] at heq
        exact absurd (heq ▸ hfront.isInfix) hn
      · have hfrom : front = [' ', 'i', 's'] := (List.append_inj_left' heq rfl).symm
        exact hfrom ▸ hfront
      · exact absurd (congrArg List.getLast? heq) (by simp)
      · exact absurd (congrArg List.getLast? heq) (by simp)
  · rintro ⟨front, rfl⟩
    exact ⟨front, ['i', 's'], by simp⟩

/-- How a text is read: what is before the first ` is ` is the name. -/
theorem parse_cases {text : String} {r : AggregateRequest} (h : parse text = .ok r) :
    (r.name = none ∧ ¬ [' ', 'i', 's', ' '] <:+: text.toList ∧
      AggregateRequest.parseExpression text (Text.trim text.toList) = .ok (r.op, r.path)) ∨
    ∃ before rest, Text.cutAt [' ', 'i', 's', ' '] text.toList = some (before, rest) ∧
      r.name = some (String.ofList (Text.trim before)) ∧
      AggregateRequest.parseExpression text (Text.trim rest) = .ok (r.op, r.path) := by
  rw [parse] at h
  split at h
  · next before rest hcut =>
    obtain ⟨⟨op, path⟩, he, h⟩ := bind_eq_ok_iff.mp h
    cases h
    exact .inr ⟨before, rest, hcut, rfl, he⟩
  · next hcut =>
    obtain ⟨⟨op, path⟩, he, h⟩ := bind_eq_ok_iff.mp h
    cases h
    exact .inl ⟨rfl, Text.cutAt_eq_none_iff.mp hcut, he⟩

theorem Written.parse_unnamed {r : AggregateRequest} (h : r.Written)
    (hno : ¬ [' ', 'i', 's', ' '] <:+: r.expression.toList) :
    parse r.expression = .ok ⟨none, r.op, r.path⟩ := by
  have hcut := Text.cutAt_eq_none_iff.mpr hno
  simp [parse, hcut, h.tidy_expression.2, h.parseExpression, bind, Except.bind, pure, Except.pure]

theorem Written.parse_named {r : AggregateRequest} (h : r.Written) {text : String} {before : List Char}
    (hcut : Text.cutAt [' ', 'i', 's', ' '] text.toList = some (before, r.expression.toList)) :
    parse text = .ok ⟨some (String.ofList (Text.trim before)), r.op, r.path⟩ := by
  simp [parse, hcut, h.tidy_expression.2, h.parseExpression, bind, Except.bind, pure, Except.pure]

theorem toList_text {r : AggregateRequest} {name : String} (hname : r.name = some name) :
    r.text.toList = name.toList ++ [' ', 'i', 's', ' '] ++ r.expression.toList := by
  have hstring : ∀ s : String, toString s = s := fun _ => rfl
  simp [text, hname, hstring]

/-- A request with a name is read back if the ` is ` behind the name is the first in its text. -/
theorem Written.parse_text_of_named {r : AggregateRequest} (h : r.Written) {name : String}
    (hname : r.name = some name) (htrim : Text.trim name.toList = name.toList) :
    parse r.text = .ok r ↔ ¬ [' ', 'i', 's', ' '] <:+: name.toList ++ [' ', 'i', 's'] := by
  have hmarker : ([' ', 'i', 's', ' '] : List Char) ≠ [] := by decide
  have htext := toList_text hname
  constructor
  · intro hread hin
    rcases parse_cases hread with ⟨hnone, -, -⟩ | ⟨before, rest, hcut, hbefore, -⟩
    · cases hname.symm.trans hnone
    · -- the name is no longer than what was cut off, so with ` is` behind it, it is a front of that
      obtain rfl : name = String.ofList (Text.trim before) := Option.some.inj (hname.symm.trans hbefore)
      obtain ⟨hparts, hfirst⟩ := (Text.cutAt_eq_some_iff hmarker).mp hcut
      rw [String.toList_ofList] at htext hin
      have hlen := (Text.trim_infix before).length_le
      have hname : Text.trim before ++ [' ', 'i', 's'] <+: r.text.toList :=
        htext ▸ ⟨' ' :: r.expression.toList, by simp⟩
      have hcutoff : before ++ [' ', 'i', 's'] <+: r.text.toList := hparts ▸ ⟨' ' :: rest, by simp⟩
      have hfront := List.prefix_of_prefix_length_le hname hcutoff (by simpa using hlen)
      exact hfirst (hin.trans hfront.isInfix)
  · intro hin
    rw [h.parse_named (htext ▸ Text.cutAt_append hmarker _ hin), htrim, String.ofList_toList, ← hname]

/-- **A request is read back from its own text**, if it was read from any, just if it has no name that
ends in ` is`. -/
theorem parse_text_iff {text : String} {r : AggregateRequest} (h : parse text = .ok r) :
    parse r.text = .ok r ↔ ∀ name, r.name = some name → ¬ " is".toList <:+ name.toList := by
  rcases parse_cases h with ⟨hname, hno, he⟩ | ⟨before, rest, hcut, hname, he⟩
  · -- the marker does not come into an expression that was read without one
    have hread := (written_of_parseExpression he).parse_unnamed fun hin => hno <|
      (infix_of_infix_expression he (by decide) (by decide) (by decide) (by decide) hin).trans
        (Text.trim_infix text.toList)
    have htext : r.text = r.expression := by rw [AggregateRequest.text, hname]
    simp only [hname, reduceCtorEq, false_implies, implies_true, iff_true]
    rw [htext, hread, ← hname]
  · have hfirst : ¬ [' ', 'i', 's', ' '] <:+: Text.trim before := fun hin =>
      Text.cutAt_first (by decide) hcut
        ((hin.trans (Text.trim_infix before)).trans (List.prefix_append _ _).isInfix)
    rw [(written_of_parseExpression he).parse_text_of_named hname
      (by rw [String.toList_ofList, Text.trim_trim])]
    simp only [hname, Option.some.injEq, forall_eq', String.toList_ofList]
    exact not_congr (infix_append_is_iff hfirst)

/-- Written with blanks to trim, and read back from the text without them. -/
theorem parse_text_of_trimmed :
    let r : AggregateRequest := ⟨some "total", some .sum, some ⟨["lines", "amount"]⟩⟩
    parse "total  is SUM( lines . amount ) " = .ok r ∧ r.text = "total is sum(lines.amount)" ∧
      (parse r.text = .ok r ↔ ∀ name, r.name = some name → ¬ " is".toList <:+ name.toList) ∧
      parse r.text = .ok r :=
  have h : parse "total  is SUM( lines . amount ) " =
      .ok ⟨some "total", some .sum, some ⟨["lines", "amount"]⟩⟩ := by decide
  ⟨h, by decide, parse_text_iff h, by decide⟩

/-- A tab keeps the ` is` of a name from being cut at. It is trimmed off, and the name's ` is` is the first
in the text of the request. -/
theorem name_ending_in_is :
    let r : AggregateRequest := ⟨some "x is", some .count, none⟩
    parse "x is\t is count()" = .ok r ∧ r.text = "x is is count()" ∧
      parse r.text = .error (.unknownOperator "is count") := by
  decide

end AggregateRequest

end Joinery
