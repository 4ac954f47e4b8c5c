/-
The dotted format of paths, both ways.

A path is read from its own text exactly if it has a segment and all its segments
are `PlainSegment`s; every path that is read is such a path. A text is refused as empty
exactly if it is blank, and for an empty segment exactly if a piece of it between
dots is blank and the whole is not (`Path.format_exact`). Where the pieces of a text
are is said without cutting it (`Text.IsPiece`, `Text.mem_pieces_iff`).
-/
import Joinery.Proofs.Path

namespace Joinery

/-! ## Pieces -/

namespace Text

/-- A text of white space alone. The empty text is one. -/
def Blank (s : List Char) : Prop := ∀ c ∈ s, isBlank c = true

/-- A stretch of a text without separators, which a separator or the end of the text bounds on either
side. -/
structure IsPiece (separator : Char) (s p : List Char) : Prop where
  absent : separator ∉ p
  bounded : ∃ before after, s = before ++ p ++ after ∧
    (∀ c ∈ before.getLast?, c = separator) ∧ ∀ c ∈ after.head?, c = separator

/-- What is joined stands between separators. -/
theorem joined_of_mem (separator : Char) {p : List Char} : ∀ {ps : List (List Char)}, p ∈ ps →
    ∃ before after, joined [separator] ps = before ++ p ++ after ∧
      (∀ c ∈ before.getLast?, c = separator) ∧ ∀ c ∈ after.head?, c = separator
  | [q], h => by
    rw [List.mem_singleton.mp h]
    exact ⟨[], [], by simp [joined], by simp, by simp⟩
  | q :: r :: ps, h => by
    rw [List.mem_cons] at h
    rcases h with rfl | h
    · exact ⟨[], separator :: joined [separator] (r :: ps), by simp [joined], by simp, by simp⟩
    · obtain ⟨before, after, htext, hbefore, hafter⟩ := joined_of_mem separator h
      refine ⟨q ++ separator :: before, after, by simp [joined, htext], ?_, hafter⟩
      intro c hc
      cases hb : before.getLast? with
      | none =>
        rw [List.getLast?_eq_none_iff] at hb
        simpa [hb] using hc.symm
      | some d =>
        have hlast : (q ++ separator :: before).getLast? = some d := by
          simp [List.getLast?_append, List.getLast?_cons, hb]
        rw [hlast] at hc
        exact hbefore c (hb.trans hc)

theorem mem_pieces_iff {separator : Char} {s p : List Char} :
    p ∈ pieces separator s ↔ IsPiece separator s p := by
  constructor
  · intro h
    refine ⟨not_mem_pieces h, ?_⟩
    have hp := joined_of_mem separator h
    rwa [joined_pieces] at hp
  · intro h
    obtain ⟨before, after, rfl, hbefore, hafter⟩ := h.bounded
    -- the separator at either end cuts the text there
    have hback : p ∈ pieces separator (p ++ after) := by
      cases after with
      | nil => simp [pieces_of_not_mem h.absent]
      | cons c after =>
        have hc : c = separator := hafter c rfl
        simp [hc, pieces_append, pieces_of_not_mem h.absent]
    rcases List.eq_nil_or_concat before with rfl | ⟨init, c, rfl⟩
    · simpa using hback
    · have hc : c = separator := hbefore c (by simp)
      rw [hc, List.concat_eq_append, List.append_assoc, List.append_assoc, List.singleton_append,
        pieces_append, List.mem_append]
      exact .inr hback

end Text

/-! ## Paths -/

namespace Path

/-- A segment that stands for itself in the text of a path: it is not empty, no dot stands in it, and it
neither starts nor ends with white space. -/
structure PlainSegment (s : String) : Prop where
  ne_empty : s ≠ ""
  dots : '.' ∉ s.toList
  front : ∀ c ∈ s.toList.head?, Text.isBlank c = false
  back : ∀ c ∈ s.toList.getLast?, Text.isBlank c = false

theorem tidy_iff_ends {s : String} : Text.Tidy s.toList ↔ s ≠ "" ∧
    (∀ c ∈ s.toList.head?, Text.isBlank c = false) ∧ ∀ c ∈ s.toList.getLast?, Text.isBlank c = false := by
  have hempty : s.toList ≠ [] ↔ s ≠ "" := by simp
  unfold Text.Tidy
  rw [Text.trim_eq_self_iff, ← hempty]
  constructor
  · rintro ⟨hne, hends⟩
    obtain ⟨hfront, hback⟩ := hends hne
    refine ⟨hne, ?_, ?_⟩
    · simpa [List.head?_eq_some_head hne] using hfront
    · simpa [List.getLast?_eq_some_getLast hne] using hback
  · rintro ⟨hne, hfront, hback⟩
    refine ⟨hne, fun _ => ⟨hfront _ ?_, hback _ ?_⟩⟩
    · exact List.head?_eq_some_head hne
    · exact List.getLast?_eq_some_getLast hne

theorem tidy_iff_plain {p : Path} : p.Tidy ↔ p.segments ≠ [] ∧ ∀ s ∈ p.segments, PlainSegment s := by
  constructor
  · intro h
    refine ⟨h.ne_nil, fun s hs => ?_⟩
    obtain ⟨hne, hfront, hback⟩ := tidy_iff_ends.mp (h.tidy s hs)
    exact ⟨hne, h.dots s hs, hfront, hback⟩
  · rintro ⟨hne, hplain⟩
    refine ⟨⟨hne, fun s hs => (hplain s hs).dots⟩, fun s hs => ?_⟩
    exact tidy_iff_ends.mpr ⟨(hplain s hs).ne_empty, (hplain s hs).front, (hplain s hs).back⟩

/-- What is refused, and why. -/
theorem parse_eq_error_iff {text : String} {e : ParseError} : parse text = .error e ↔
    (e = .empty ∧ Text.Blank text.toList) ∨
    (e = .emptySegment text ∧ ¬ Text.Blank text.toList ∧
      ∃ p, Text.IsPiece '.' text.toList p ∧ Text.Blank p) := by
  have hblank : (Text.trim text.toList).isEmpty = true ↔ Text.Blank text.toList := by
    rw [List.isEmpty_iff, Text.trim_eq_nil_iff]
    rfl
  have hpiece : ((Text.pieces '.' text.toList).map Text.trim).any List.isEmpty = true ↔
      ∃ p, Text.IsPiece '.' text.toList p ∧ Text.Blank p := by
    simp only [List.any_map, List.any_eq_true, Function.comp_apply, List.isEmpty_iff,
      Text.trim_eq_nil_iff, Text.mem_pieces_iff]
    rfl
  simp only [parse]
  by_cases hb : Text.Blank text.toList
  · rw [if_pos (hblank.mpr hb)]
    constructor
    · intro h
      cases h
      exact .inl ⟨rfl, hb⟩
    · rintro (⟨rfl, -⟩ | ⟨-, hnot, -⟩)
      · rfl
      · exact absurd hb hnot
  rw [if_neg (mt hblank.mp hb)]
  by_cases hp : ∃ p, Text.IsPiece '.' text.toList p ∧ Text.Blank p
  · rw [if_pos (hpiece.mpr hp)]
    constructor
    · intro h
      cases h
      exact .inr ⟨rfl, hb, hp⟩
    · rintro (⟨-, h⟩ | ⟨rfl, -⟩)
      · exact absurd h hb
      · rfl
  · rw [if_neg (mt hpiece.mp hp)]
    constructor
    · intro h
      cases h
    · rintro (⟨-, h⟩ | ⟨-, -, h⟩)
      · exact absurd h hb
      · exact absurd h hp

/-- **The dotted format is exact**: which paths their texts give back, that every path that is read is one
of them and is told by its text, and which texts are refused. -/
theorem format_exact :
    (∀ segments : List String, parse (Path.mk segments).text = .ok ⟨segments⟩ ↔
      segments ≠ [] ∧ ∀ s ∈ segments, PlainSegment s) ∧
    (∀ (text : String) (p : Path), parse text = .ok p →
      (p.segments ≠ [] ∧ ∀ s ∈ p.segments, PlainSegment s) ∧ parse p.text = .ok p) ∧
    (∀ (t u : String) (p q : Path), parse t = .ok p → parse u = .ok q → p ≠ q → p.text ≠ q.text) ∧
    (∀ text : String, parse text = .error .empty ↔ Text.Blank text.toList) ∧
    (∀ text whole : String, parse text = .error (.emptySegment whole) ↔ whole = text ∧
      ¬ Text.Blank text.toList ∧ ∃ p, Text.IsPiece '.' text.toList p ∧ Text.Blank p) ∧
    (∀ (text : String) (e : ParseError), parse text = .error e → e = .empty ∨ e = .emptySegment text) := by
  refine ⟨fun segments => ?_, fun text p h => ?_, fun t u p q hp hq hne htext => ?_, fun text => ?_,
    fun text whole => ?_, fun text e h => ?_⟩
  · rw [← tidy_iff_plain (p := ⟨segments⟩)]
    constructor
    · intro h
      exact Parsed.tidy ⟨_, h⟩
    · exact Tidy.parse_text
  · have htidy : p.Tidy := Parsed.tidy ⟨text, h⟩
    exact ⟨tidy_iff_plain.mp htidy, htidy.parse_text⟩
  · -- both are read from the one text
    have hread : parse p.text = .ok p := (Parsed.tidy ⟨t, hp⟩).parse_text
    rw [htext, (Parsed.tidy ⟨u, hq⟩).parse_text] at hread
    exact hne (Except.ok.inj hread).symm
  · simp [parse_eq_error_iff]
  · simp [parse_eq_error_iff]
  · rcases parse_eq_error_iff.mp h with ⟨he, -⟩ | ⟨he, -⟩
    · exact .inl he
    · exact .inr he

example : parse "\u3000a . b\u00a0" = .ok ⟨["a", "b"]⟩ := by decide

example : parse (Path.mk ["a", "", "b"]).text = .error (.emptySegment "a..b") := by decide

end Path

end Joinery
