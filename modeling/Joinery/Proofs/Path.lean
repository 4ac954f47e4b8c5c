/-
What the text of a path tells of it.

The text does not tell a dot in a segment from one between segments: paths have
one text exactly if they are the same once their segments are cut at their dots
(`Path.text_eq_iff`). A path that was read from a text has a segment, no dot
stands in one, and no blank at its ends (`Path.Parsed.tidy`), so nothing in it is
cut (`Path.Undotted.cut`) and its text is read as the path again
(`Path.Tidy.parse_text`).
-/
import Joinery.Path
import Joinery.Proofs.Text

namespace Joinery

namespace Path

/-- The path with its segments cut at their dots. One without segments, whose text is empty like that of
an empty segment, becomes that segment. -/
def cut (p : Path) : Path :=
  match p.segments with
  | [] => ⟨[""]⟩
  | segments => ⟨segments.flatMap fun s => (Text.pieces '.' s.toList).map String.ofList⟩

theorem cut_eq (p : Path) : p.cut = ⟨(Text.pieces '.' p.text.toList).map String.ofList⟩ := by
  obtain ⟨segments⟩ := p
  cases segments with
  | nil => rfl
  | cons s ss =>
    rw [text, String.toList_ofList, Text.pieces_joined (by simp), List.flatMap_map, List.map_flatMap]
    rfl

/-- The text tells a path up to its dots, and no more. -/
theorem text_eq_iff {p q : Path} : p.text = q.text ↔ p.cut = q.cut := by
  constructor
  · intro h
    rw [cut_eq, cut_eq, h]
  · intro h
    rw [cut_eq, cut_eq, Path.mk.injEq] at h
    have hpieces := (List.map_inj_right fun _ _ => String.ofList_inj.mp).mp h
    have hchars : p.text.toList = q.text.toList := by
      rw [← Text.joined_pieces '.' p.text.toList, hpieces, Text.joined_pieces]
    exact String.toList_inj.mp hchars

/-- The path has a segment, and no dot stands in a segment. -/
structure Undotted (p : Path) : Prop where
  ne_nil : p.segments ≠ []
  dots : ∀ s ∈ p.segments, '.' ∉ s.toList

theorem Undotted.cut {p : Path} (h : p.Undotted) : p.cut = p := by
  obtain ⟨segments⟩ := p
  cases segments with
  | nil => exact absurd rfl h.ne_nil
  | cons s ss =>
    have hpieces : ∀ x ∈ s :: ss, (Text.pieces '.' x.toList).map String.ofList = [x] := by
      intro x hx
      rw [Text.pieces_of_not_mem (h.dots x hx), List.map_singleton, String.ofList_toList]
    have hcut : (s :: ss).flatMap (fun x => (Text.pieces '.' x.toList).map String.ofList) = s :: ss := by
      rw [List.flatMap_def, List.map_congr_left hpieces, ← List.flatMap_def, List.flatMap_singleton']
    exact congrArg Path.mk hcut

/-- Some text is read as the path. -/
def Parsed (p : Path) : Prop := ∃ text, Path.parse text = .ok p

/-- No segment is empty, has a dot in it or a blank at its ends. -/
structure Tidy (p : Path) : Prop extends p.Undotted where
  tidy : ∀ s ∈ p.segments, Text.Tidy s.toList

theorem Tidy.text {p : Path} (h : p.Tidy) : Text.Tidy p.text.toList := by
  rw [Path.text, String.toList_ofList]
  refine Text.tidy_joined (by simpa using h.ne_nil) fun piece hpiece => ?_
  obtain ⟨s, hs, rfl⟩ := List.mem_map.mp hpiece
  exact h.tidy s hs

theorem Undotted.pieces {p : Path} (h : p.Undotted) :
    Text.pieces '.' p.text.toList = p.segments.map String.toList := by
  have hcut := congrArg segments (cut_eq p ▸ h.cut)
  rw [← hcut, List.map_map]
  simp

/-- A text is read as its pieces, trimmed, none of which may be empty. -/
theorem parse_eq_ok {text : String} {p : Path} : Path.parse text = .ok p ↔
    p.segments.map String.toList = (Text.pieces '.' text.toList).map Text.trim ∧
      ∀ s ∈ p.segments, s.toList ≠ [] := by
  constructor
  · intro h
    simp only [parse] at h
    split at h
    · cases h
    · split at h
      · cases h
      · next hfull =>
        cases h
        refine ⟨by simp, fun s hs hnil => hfull ?_⟩
        obtain ⟨piece, hpiece, rfl⟩ := List.mem_map.mp hs
        exact List.any_eq_true.mpr ⟨piece, hpiece, by simpa using hnil⟩
  · rintro ⟨hsegments, hfull⟩
    have hpieces : ∀ piece ∈ Text.pieces '.' text.toList, Text.trim piece ≠ [] := by
      intro piece hpiece
      have hmem := List.mem_map_of_mem (f := Text.trim) hpiece
      rw [← hsegments] at hmem
      obtain ⟨s, hs, htrim⟩ := List.mem_map.mp hmem
      exact htrim ▸ hfull s hs
    -- a text of blanks has pieces of blanks
    have hblank : Text.trim text.toList ≠ [] := by
      intro hnil
      obtain ⟨piece, hpiece⟩ := List.exists_mem_of_ne_nil _ (Text.pieces_ne_nil '.' text.toList)
      refine hpieces piece hpiece (Text.trim_eq_nil_iff.mpr fun c hc => ?_)
      exact Text.trim_eq_nil_iff.mp hnil c ((Text.infix_of_mem_pieces hpiece).subset hc)
    have hany : ((Text.pieces '.' text.toList).map Text.trim).any List.isEmpty = false := by
      simpa using hpieces
    have hread : ((Text.pieces '.' text.toList).map Text.trim).map String.ofList = p.segments := by
      rw [← hsegments, List.map_map]
      simp
    simp only [parse, List.isEmpty_iff, if_neg hblank, hany, hread, Bool.false_eq_true, if_false]

theorem Parsed.tidy {p : Path} (h : p.Parsed) : p.Tidy := by
  obtain ⟨text, h⟩ := h
  obtain ⟨hsegments, hfull⟩ := parse_eq_ok.mp h
  have hpieces : ∀ s ∈ p.segments, ∃ piece ∈ Text.pieces '.' text.toList, Text.trim piece = s.toList := by
    intro s hs
    have hs := List.mem_map_of_mem (f := String.toList) hs
    rw [hsegments] at hs
    exact List.mem_map.mp hs
  refine ⟨⟨?_, fun s hs hdot => ?_⟩, fun s hs => ⟨hfull s hs, ?_⟩⟩
  · intro hnil
    rw [hnil] at hsegments
    exact Text.pieces_ne_nil '.' text.toList (by simpa using hsegments.symm)
  · obtain ⟨piece, hpiece, htrim⟩ := hpieces s hs
    exact Text.not_mem_pieces hpiece ((Text.trim_infix piece).subset (htrim ▸ hdot))
  · obtain ⟨piece, -, htrim⟩ := hpieces s hs
    rw [← htrim, Text.trim_trim]

theorem Parsed.undotted {p : Path} (h : p.Parsed) : p.Undotted := h.tidy.toUndotted

/-- The text of such a path is read as the path. -/
theorem Tidy.parse_text {p : Path} (h : p.Tidy) : Path.parse p.text = .ok p := by
  refine parse_eq_ok.mpr ⟨?_, fun s hs => (h.tidy s hs).1⟩
  rw [h.pieces, List.map_map]
  exact List.map_congr_left fun s hs => (h.tidy s hs).2.symm

theorem infix_of_infix_text {text : String} {p : Path} (h : Path.parse text = .ok p) {m : List Char}
    (hm : '.' ∉ m) (hin : m <:+: p.text.toList) : m <:+: text.toList := by
  have hsegments := (parse_eq_ok.mp h).1
  rw [Path.text, String.toList_ofList, hsegments] at hin
  obtain ⟨s, hs, hin⟩ := Text.infix_of_infix_joined hm (by simpa using Text.pieces_ne_nil _ _) hin
  obtain ⟨piece, hpiece, rfl⟩ := List.mem_map.mp hs
  exact hin.trans ((Text.trim_infix piece).trans (Text.infix_of_mem_pieces hpiece))

end Path

end Joinery
