/-
The order of cells, and the least and the greatest of some.

Cells are compared in four ways: integers, strings and Booleans by value, and any
other two by their texts. If no cell is null or has a double in it, the first
character of a text shows the kind of the cell, so that all four are parts of one
order: by kind, then by number, then by text (`compare_eq_ordered`). Cells
are told apart by it, and the first cell that no other precedes is the same
however the cells are arranged (`extremes_ordered`).
-/
import Joinery.Proofs.Cell.Equality
import Joinery.Proofs.Relation.Repeats
import Joinery.Relation.Engine
import Mathlib.Data.List.Perm.Basic

namespace Joinery

namespace Json.Value

mutual
/-- No part of the value is a double. -/
def isDoubleFree : Value → Bool
  | .number (.double _) => false
  | .array items => itemsDoubleFree items
  | .object members => membersDoubleFree members
  | _ => true

/-- Are all items free of doubles? -/
def itemsDoubleFree : List Value → Bool
  | [] => true
  | v :: vs => isDoubleFree v && itemsDoubleFree vs

/-- Are all members free of doubles? -/
def membersDoubleFree : List (String × Value) → Bool
  | [] => true
  | (_, v) :: ms => isDoubleFree v && membersDoubleFree ms
end

mutual
theorem isFinite_of_isDoubleFree : ∀ {v : Value}, v.isDoubleFree = true → v.IsFinite
  | .null, _ | .bool _, _ | .string _, _ => trivial
  | .number (.int _), _ => trivial
  | .array _, h => itemsFinite_of_itemsDoubleFree h
  | .object _, h => membersFinite_of_membersDoubleFree h

theorem itemsFinite_of_itemsDoubleFree : ∀ {vs : List Value}, itemsDoubleFree vs = true → ItemsFinite vs
  | [], _ => trivial
  | _ :: _, h =>
    have ⟨hv, hvs⟩ := Bool.and_eq_true_iff.mp h
    ⟨isFinite_of_isDoubleFree hv, itemsFinite_of_itemsDoubleFree hvs⟩

theorem membersFinite_of_membersDoubleFree : ∀ {ms : List (String × Value)},
    membersDoubleFree ms = true → MembersFinite ms
  | [], _ => trivial
  | (_, _) :: _, h =>
    have ⟨hv, hms⟩ := Bool.and_eq_true_iff.mp h
    ⟨isFinite_of_isDoubleFree hv, membersFinite_of_membersDoubleFree hms⟩
end

mutual
theorem zeroUnsigned_of_isDoubleFree : ∀ {v : Value}, v.isDoubleFree = true → v.ZeroUnsigned
  | .null, _ | .bool _, _ | .string _, _ => trivial
  | .number (.int _), _ => by simp [ZeroUnsigned]
  | .array _, h => itemsZeroUnsigned_of_itemsDoubleFree h
  | .object _, h => membersZeroUnsigned_of_membersDoubleFree h

theorem itemsZeroUnsigned_of_itemsDoubleFree : ∀ {vs : List Value},
    itemsDoubleFree vs = true → ItemsZeroUnsigned vs
  | [], _ => trivial
  | _ :: _, h =>
    have ⟨hv, hvs⟩ := Bool.and_eq_true_iff.mp h
    ⟨zeroUnsigned_of_isDoubleFree hv, itemsZeroUnsigned_of_itemsDoubleFree hvs⟩

theorem membersZeroUnsigned_of_membersDoubleFree : ∀ {ms : List (String × Value)},
    membersDoubleFree ms = true → MembersZeroUnsigned ms
  | [], _ => trivial
  | (_, _) :: _, h =>
    have ⟨hv, hms⟩ := Bool.and_eq_true_iff.mp h
    ⟨zeroUnsigned_of_isDoubleFree hv, membersZeroUnsigned_of_membersDoubleFree hms⟩
end

end Json.Value

namespace Cell

open Json (Value Number)

/-- A cell without doubles, of 64 bits if it is an integer. -/
structure Plain (v : Value) : Prop where
  doubleFree : v.isDoubleFree = true
  int64 : ∀ n, v = .int n → IsInt64 n

/-- A plain cell that is not null. -/
structure Comparable (v : Value) : Prop extends Plain v where
  value : v.isNull = false

/-! ## Kinds -/

/-- The kinds of cells in the order of their texts. Null is left out: its text stands between those of
the two Booleans. -/
def rank : Value → Nat
  | .string _ => 0
  | .number _ => 1
  | .array _ => 2
  | .bool _ => 3
  | .object _ => 4
  | .null => 5

/-- The least and the greatest character that a text can start with, by the rank of its cell. -/
def leads : Nat → Char × Char
  | 0 => ('"', '"')
  | 1 => ('-', '9')
  | 2 => ('[', '[')
  | 3 => ('f', 't')
  | _ => ('{', '{')

theorem leads_increasing : ∀ i < 5, ∀ j < 5, i < j → (leads i).2 < (leads j).1 := by decide

theorem rank_lt {v : Value} (h : v.isNull = false) : rank v < 5 := by
  cases v with
  | null => cases h
  | _ => simp [rank]

theorem int_lead (n : Int) : ∃ c s, (Number.int n).text = c :: s ∧ '-' ≤ c ∧ c ≤ '9' := by
  obtain ⟨c, s, h⟩ := List.exists_cons_of_ne_nil (Number.int n).text_ne_nil
  refine ⟨c, s, h, ?_⟩
  rcases Number.int_text_isDigit n c (h ▸ List.mem_cons_self) with hd | rfl
  · simp only [Char.isDigit, Bool.and_eq_true, decide_eq_true_eq] at hd
    exact ⟨le_trans (by decide) hd.1, hd.2⟩
  · decide

theorem write_lead {v : Value} (h : Comparable v) :
    ∃ c s, v.write [] = c :: s ∧ (leads (rank v)).1 ≤ c ∧ c ≤ (leads (rank v)).2 := by
  cases v with
  | null => exact absurd h.value (by decide)
  | bool b => cases b <;> exact ⟨_, _, rfl, by decide +revert, by decide +revert⟩
  | number n =>
    cases n with
    | int n =>
      obtain ⟨c, s, hn, hc⟩ := int_lead n
      exact ⟨c, s, by rw [Value.write, hn, List.append_nil], hc⟩
    | double x => exact absurd h.doubleFree Bool.false_ne_true
  | string s => exact ⟨'"', _, by rw [Value.write, Json.quoted]; rfl, le_refl '"', le_refl '"'⟩
  | array vs => cases vs <;> exact ⟨'[', _, by rw [Value.write], le_refl '[', le_refl '['⟩
  | object ms =>
    rcases ms with _ | ⟨⟨n, v⟩, ms⟩ <;>
      exact ⟨'{', _, by rw [Value.write], le_refl '{', le_refl '{'⟩

theorem text_lt_of_rank_lt {a b : Value} (ha : Comparable a) (hb : Comparable b)
    (h : rank a < rank b) : a.text < b.text := by
  obtain ⟨c, s, hs, -, hc⟩ := write_lead ha
  obtain ⟨d, t, ht, hd, -⟩ := write_lead hb
  have hlt : c < d := lt_of_le_of_lt hc (lt_of_lt_of_le
    (leads_increasing _ (rank_lt ha.value) _ (rank_lt hb.value) h) hd)
  rw [String.lt_iff, Value.text, Value.text, String.toList_ofList, String.toList_ofList, hs, ht,
    List.cons_lt_cons_iff]
  exact .inl hlt

theorem compare_text_of_rank_ne {a b : Value} (ha : Comparable a) (hb : Comparable b)
    (h : rank a ≠ rank b) : Ord.compare a.text b.text = Ord.compare (rank a) (rank b) := by
  rcases Nat.lt_or_gt_of_ne h with hlt | hgt
  · rw [Nat.compare_eq_lt.mpr hlt]
    exact compareOfLessAndEq_eq_lt.mpr (text_lt_of_rank_lt ha hb hlt)
  · rw [Nat.compare_eq_gt.mpr hgt, Std.OrientedOrd.eq_swap (a := a.text)]
    exact congrArg Ordering.swap (compareOfLessAndEq_eq_lt.mpr (text_lt_of_rank_lt hb ha hgt))

/-! ## One order -/

/-- The number by which cells of one kind are ordered. -/
def amount : Value → Int
  | .number (.int n) => n
  | .bool b => b.toNat
  | _ => 0

/-- The text by which cells of one kind are ordered. -/
def label : Value → String
  | .string s => s
  | .array items => (Value.array items).text
  | .object members => (Value.object members).text
  | _ => ""

/-- The order by kind, then by number, then by text. -/
def ordered : Value → Value → Ordering :=
  compareLex (compareOn rank) (compareLex (compareOn amount) (compareOn label))

instance : Std.TransCmp ordered := by
  unfold ordered
  infer_instance

theorem ordered_of_rank_eq {a b : Value} (h : rank a = rank b) :
    ordered a b = (Ord.compare (amount a) (amount b)).then (Ord.compare (label a) (label b)) := by
  simp [ordered, compareLex, compareOn, h]

theorem ordered_of_rank_ne {a b : Value} (h : rank a ≠ rank b) :
    ordered a b = Ord.compare (rank a) (rank b) := by
  rcases Nat.lt_or_gt_of_ne h with hlt | hgt
  · simp [ordered, compareLex, compareOn, Nat.compare_eq_lt.mpr hlt]
  · simp [ordered, compareLex, compareOn, Nat.compare_eq_gt.mpr hgt]

theorem compare_of_rank_ne {a b : Value} (h : rank a ≠ rank b) :
    compare a b = Ord.compare a.text b.text := by
  unfold compare
  split
  · exact absurd rfl h
  · exact absurd rfl h
  · exact absurd rfl h
  · rfl

theorem int64?_int {n : Int} (h : IsInt64 n) : (Number.int n).int64? = some n :=
  int64?_int_eq_some_iff.mpr ⟨h, rfl⟩

theorem compare_of_rank_eq {a b : Value} (ha : Comparable a) (hb : Comparable b)
    (h : rank a = rank b) :
    compare a b = (Ord.compare (amount a) (amount b)).then (Ord.compare (label a) (label b)) := by
  rcases a with _ | a | (m | x) | s | as | ms
  · exact absurd ha.value (by decide)
  · obtain ⟨b, rfl⟩ : ∃ b', b = .bool b' := by cases b <;> first | exact ⟨_, rfl⟩ | cases h
    cases a <;> cases b <;> rfl
  · obtain ⟨n, rfl⟩ : ∃ n, b = .int n := by
      rcases b with _ | _ | (n | y) | _ | _ | _
      all_goals first | exact ⟨_, rfl⟩ | exact absurd hb.doubleFree Bool.false_ne_true | cases h
    simp [compare, compareNumbers, int64?_int (ha.int64 m rfl), int64?_int (hb.int64 n rfl),
      amount, label, Value.int]
  · exact absurd ha.doubleFree Bool.false_ne_true
  all_goals cases b <;> first | (cases h; done) | simp [compare, amount, label]

/-- **Cells are compared by one order**, whatever their kinds. -/
theorem compare_eq_ordered {a b : Value} (ha : Comparable a) (hb : Comparable b) :
    compare a b = ordered a b := by
  by_cases h : rank a = rank b
  · rw [ordered_of_rank_eq h, compare_of_rank_eq ha hb h]
  · rw [compare_of_rank_ne h, ordered_of_rank_ne h, compare_text_of_rank_ne ha hb h]

theorem eq_of_ordered {a b : Value} (ha : Comparable a) (hb : Comparable b)
    (h : ordered a b = .eq) : a = b := by
  simp only [ordered, compareLex, compareOn, Ordering.then_eq_eq, Std.LawfulEqOrd.compare_eq_iff_eq]
    at h
  obtain ⟨hrank, hamount, hlabel⟩ := h
  have hfinite {v : Value} (hv : Comparable v) : v.IsFinite :=
    Value.isFinite_of_isDoubleFree hv.doubleFree
  rcases a with _ | a | (m | x) | s | as | ms
  · exact absurd ha.value (by decide)
  · cases b <;> first | (cases hrank; done) | skip
    rename_i b
    cases a <;> cases b <;> first | rfl | cases hamount
  · rcases b with _ | _ | (n | y) | _ | _ | _
    all_goals first
      | exact congrArg Value.int hamount
      | exact absurd hb.doubleFree Bool.false_ne_true
      | cases hrank
  · exact absurd ha.doubleFree Bool.false_ne_true
  · cases b <;> first | (cases hrank; done) | exact congrArg Value.string hlabel
  · cases b <;> first | (cases hrank; done) | exact Value.text_inj (hfinite ha) (hfinite hb) hlabel
  · cases b <;> first | (cases hrank; done) | exact Value.text_inj (hfinite ha) (hfinite hb) hlabel

/-- A comparison orders some cells linearly. -/
structure LinearOn (cmp : Value → Value → Ordering) (S : Value → Prop) : Prop where
  swap : ∀ a b, S a → S b → cmp b a = (cmp a b).swap
  refl : ∀ a, S a → cmp a a = .eq
  antisymm : ∀ a b, S a → S b → (cmp a b).isLE → (cmp b a).isLE → a = b
  trans : ∀ a b c, S a → S b → S c → (cmp a b).isLE → (cmp b c).isLE → (cmp a c).isLE
  total : ∀ a b, S a → S b → (cmp a b).isLE ∨ (cmp b a).isLE

theorem LinearOn.mono {cmp : Value → Value → Ordering} {S T : Value → Prop} (h : LinearOn cmp T)
    (hST : ∀ a, S a → T a) : LinearOn cmp S where
  swap a b ha hb := h.swap a b (hST a ha) (hST b hb)
  refl a ha := h.refl a (hST a ha)
  antisymm a b ha hb := h.antisymm a b (hST a ha) (hST b hb)
  trans a b c ha hb hc := h.trans a b c (hST a ha) (hST b hb) (hST c hc)
  total a b ha hb := h.total a b (hST a ha) (hST b hb)

theorem ordered_antisymm {a b : Value} (ha : Comparable a) (hb : Comparable b)
    (hab : (ordered a b).isLE) (hba : (ordered b a).isLE) : a = b :=
  eq_of_ordered ha hb (Std.OrientedCmp.isLE_antisymm hab hba)

theorem isLE_of_not_lt {cmp : Value → Value → Ordering} [Std.OrientedCmp cmp] {a b : Value}
    (h : cmp b a ≠ .lt) : (cmp a b).isLE :=
  Std.OrientedCmp.isGE_iff_isLE.mp (Ordering.isGE_iff_ne_lt.mpr h)

/-- **The comparison of cells is a linear order**, null and doubles left out. -/
theorem linearOn_compare : LinearOn compare Comparable where
  swap a b ha hb := by
    rw [compare_eq_ordered ha hb, compare_eq_ordered hb ha]
    exact Std.OrientedCmp.eq_swap
  refl a ha := by
    rw [compare_eq_ordered ha ha]
    exact Std.ReflCmp.compare_self
  antisymm a b ha hb := by
    rw [compare_eq_ordered ha hb, compare_eq_ordered hb ha]
    exact ordered_antisymm ha hb
  trans a b c ha hb hc := by
    rw [compare_eq_ordered ha hb, compare_eq_ordered hb hc, compare_eq_ordered ha hc]
    exact Std.TransCmp.isLE_trans
  total a b ha hb := by
    rw [compare_eq_ordered ha hb, compare_eq_ordered hb ha]
    by_cases hlt : ordered b a = .lt
    · exact .inr (hlt ▸ rfl)
    · exact .inl (isLE_of_not_lt hlt)

/-! ## Extremes -/

/-- The order in which the cell that is kept comes first. -/
def toward : Ordering → Value → Value → Ordering
  | .gt => fun a b => ordered b a
  | _ => ordered

instance (keep : Ordering) : Std.TransCmp (toward keep) := by
  cases keep
  · exact inferInstanceAs (Std.TransCmp ordered)
  · exact inferInstanceAs (Std.TransCmp ordered)
  · have : Std.TransCmp fun a b => ordered b a := .opposite
    exact this

theorem compare_eq_keep_iff {keep : Ordering} (hkeep : keep ≠ .eq) {a b : Value}
    (ha : Comparable a) (hb : Comparable b) : compare a b = keep ↔ toward keep a b = .lt := by
  rw [compare_eq_ordered ha hb]
  cases keep with
  | lt => exact Iff.rfl
  | eq => exact absurd rfl hkeep
  | gt => exact Std.OrientedCmp.gt_iff_lt

theorem toward_antisymm {keep : Ordering} {a b : Value} (ha : Comparable a) (hb : Comparable b)
    (hab : (toward keep a b).isLE) (hba : (toward keep b a).isLE) : a = b := by
  cases keep with
  | gt => exact ordered_antisymm ha hb hba hab
  | _ => exact ordered_antisymm ha hb hab hba

theorem extreme_cons_cons (keep : Ordering) (v w : Value) (vs : List Value) :
    extreme keep (v :: w :: vs) =
      extreme keep ((if compare w v == keep then w else v) :: vs) := rfl

/-- The cell that is kept of two stands before both. -/
theorem better_first {keep : Ordering} (hkeep : keep ≠ .eq) {v w : Value} (hv : Comparable v)
    (hw : Comparable w) : ∃ best, (if compare w v == keep then w else v) = best ∧
      (best = v ∨ best = w) ∧ (toward keep best v).isLE ∧ (toward keep best w).isLE := by
  by_cases hlt : compare w v = keep
  · refine ⟨w, if_pos (beq_iff_eq.mpr hlt), .inr rfl, ?_, Std.ReflCmp.isLE_rfl⟩
    rw [(compare_eq_keep_iff hkeep hw hv).mp hlt]
    rfl
  · refine ⟨v, if_neg fun he => hlt (beq_iff_eq.mp he), .inl rfl, Std.ReflCmp.isLE_rfl, ?_⟩
    exact isLE_of_not_lt fun he => hlt ((compare_eq_keep_iff hkeep hw hv).mpr he)

/-- The cell that is kept is one of the cells, and stands before all of them. -/
theorem extreme_first {keep : Ordering} (hkeep : keep ≠ .eq) : ∀ {vs : List Value} {v : Value},
    (∀ w ∈ v :: vs, Comparable w) → extreme keep (v :: vs) ∈ v :: vs ∧
      ∀ w ∈ v :: vs, (toward keep (extreme keep (v :: vs)) w).isLE
  | [], v, _ => by
    refine ⟨List.mem_cons_self, fun w hw => ?_⟩
    rw [List.mem_singleton.mp hw]
    exact Std.ReflCmp.isLE_rfl
  | w :: vs, v, h => by
    have hv := h v List.mem_cons_self
    have hw := h w (List.mem_cons_of_mem v List.mem_cons_self)
    obtain ⟨best, hkept, hbest, hfirst⟩ := better_first hkeep hv hw
    have hcells : ∀ u ∈ best :: vs, u ∈ v :: w :: vs := by
      intro u hu
      rcases hbest with rfl | rfl <;> simp only [List.mem_cons] at hu ⊢ <;> tauto
    rw [extreme_cons_cons, hkept]
    obtain ⟨hmem, hrest⟩ := extreme_first hkeep (v := best) fun u hu => h u (hcells u hu)
    have hbefore := hrest best List.mem_cons_self
    refine ⟨hcells _ hmem, ?_⟩
    simp only [List.forall_mem_cons]
    exact ⟨Std.TransCmp.isLE_trans hbefore hfirst.1, Std.TransCmp.isLE_trans hbefore hfirst.2,
      fun u hu => hrest u (List.mem_cons_of_mem best hu)⟩

theorem extreme_spec {keep : Ordering} (hkeep : keep ≠ .eq) {cells : List Value} (hne : cells ≠ [])
    (h : ∀ v ∈ cells, Comparable v) :
    extreme keep cells ∈ cells ∧ ∀ v ∈ cells, (toward keep (extreme keep cells) v).isLE := by
  obtain ⟨v, vs, rfl⟩ := List.exists_cons_of_ne_nil hne
  exact extreme_first hkeep h

theorem extreme_unsurpassed {keep : Ordering} (hkeep : keep ≠ .eq) {cells : List Value}
    (hne : cells ≠ []) (h : ∀ v ∈ cells, Comparable v) {v : Value} (hv : v ∈ cells) :
    compare v (extreme keep cells) ≠ keep := by
  obtain ⟨hmem, hfirst⟩ := extreme_spec hkeep hne h
  rw [Ne, compare_eq_keep_iff hkeep (h v hv) (h _ hmem)]
  exact Std.OrientedCmp.not_lt_of_isLE (hfirst v hv)

theorem extreme_perm {keep : Ordering} (hkeep : keep ≠ .eq) {cells other : List Value}
    (h : ∀ v ∈ cells, Comparable v) (hperm : other.Perm cells) :
    extreme keep other = extreme keep cells := by
  by_cases hnil : cells = []
  · subst hnil
    rw [List.perm_nil.mp hperm]
  · have hother : ∀ v ∈ other, Comparable v := fun v hv => h v (hperm.mem_iff.mp hv)
    have hne : other ≠ [] := fun h0 => hnil (List.perm_nil.mp (h0 ▸ hperm).symm)
    obtain ⟨hmem, hfirst⟩ := extreme_spec hkeep hnil h
    obtain ⟨hmem', hfirst'⟩ := extreme_spec hkeep hne hother
    exact toward_antisymm (hother _ hmem') (h _ hmem) (hfirst' _ (hperm.mem_iff.mpr hmem))
      (hfirst _ (hperm.mem_iff.mp hmem'))

end Cell

namespace Engine

open Json (Value)

/-! ## Rows -/

theorem mem_distinctRows {relation : Nat} {rows : List JoinedRow} {m : Nat} :
    m ∈ distinctRows relation rows ↔ ∃ row ∈ rows, row[relation]? = some (some m) := by
  simp [distinctRows, Option.bind_eq_some_iff]

theorem distinctRows_perm {relation : Nat} {rows other : List JoinedRow} (h : other.Perm rows) :
    (distinctRows relation other).Perm (distinctRows relation rows) :=
  eraseDups_perm (h.filterMap _)

theorem inputCells_perm {relations : List Relation} {place : Place} {rows other : List JoinedRow}
    (h : other.Perm rows) :
    (inputCells relations place other).Perm (inputCells relations place rows) :=
  ((distinctRows_perm h).map _).filter _

/-- **The minimum and the maximum are extremes of a linear order**: cells are compared by one, none is
below the minimum and none above the maximum, which are what the aggregates of a column answer, and neither
depends on the order of the rows. -/
theorem extremes_ordered {cells : List Value} (hne : cells ≠ [])
    (h : ∀ v ∈ cells, Cell.Comparable v) :
    Cell.LinearOn Cell.compare (· ∈ cells) ∧
    (Cell.extreme .lt cells ∈ cells ∧ ∀ v ∈ cells, Cell.compare v (Cell.extreme .lt cells) ≠ .lt) ∧
    (Cell.extreme .gt cells ∈ cells ∧ ∀ v ∈ cells, Cell.compare v (Cell.extreme .gt cells) ≠ .gt) ∧
    (∀ other, other.Perm cells → Cell.extreme .lt other = Cell.extreme .lt cells ∧
      Cell.extreme .gt other = Cell.extreme .gt cells) ∧
    (∀ relations place rows, inputCells relations place rows = cells →
      aggregate relations .min rows (.column place) = Cell.extreme .lt cells ∧
      aggregate relations .max rows (.column place) = Cell.extreme .gt cells) ∧
    ∀ relations place rows other, inputCells relations place rows = cells → other.Perm rows →
      ∀ op, op = .min ∨ op = .max →
        aggregate relations op other (.column place) = aggregate relations op rows (.column place) := by
  have hlt : Ordering.lt ≠ .eq := by decide
  have hgt : Ordering.gt ≠ .eq := by decide
  refine ⟨Cell.linearOn_compare.mono h,
    ⟨(Cell.extreme_spec hlt hne h).1, fun v => Cell.extreme_unsurpassed hlt hne h⟩,
    ⟨(Cell.extreme_spec hgt hne h).1, fun v => Cell.extreme_unsurpassed hgt hne h⟩,
    fun other hperm => ⟨Cell.extreme_perm hlt h hperm, Cell.extreme_perm hgt h hperm⟩, ?_, ?_⟩
  · rintro relations place rows rfl
    exact ⟨rfl, rfl⟩
  rintro relations place rows other rfl hperm op (rfl | rfl)
  · exact Cell.extreme_perm hlt h (inputCells_perm hperm)
  · exact Cell.extreme_perm hgt h (inputCells_perm hperm)

/-- Cells of five kinds: a string is the least of them, an object the greatest. So they are the minimum
and the maximum of a column that also has a null, whatever order its rows are in. -/
theorem extremes_ordered_mixed :
    let cells : List Value := [.int 3, .object [("a", .null)], .bool true, .string "b", .int (-1),
      .array [.int 7, .null], .bool false, .string "a"]
    let relation : Relation := ⟨"mixed", ["cell"], (.null :: cells).map ([·])⟩
    Cell.compare (.array [.int 7, .null]) (.bool false) = .lt ∧
    (∀ other : List Value, other.Perm cells →
      (Cell.extreme .lt other).same (.string "a") = true ∧
      (Cell.extreme .gt other).same (.object [("a", .null)]) = true) ∧
    ∀ other : List JoinedRow, other.Perm ((List.range 9).map ([some ·])) →
      (aggregate [relation] .min other (.column ⟨0, 0⟩)).same (.string "a") = true ∧
      (aggregate [relation] .max other (.column ⟨0, 0⟩)).same (.object [("a", .null)]) = true := by
  intro cells relation
  have h : ∀ v ∈ cells, Cell.Comparable v := by
    simp only [cells, List.forall_mem_cons, List.not_mem_nil, false_implies, implies_true, and_true]
    refine ⟨?_, ?_, ?_, ?_, ?_, ?_, ?_, ?_⟩
    all_goals exact ⟨⟨by decide, by rintro n ⟨⟩ <;> decide⟩, by decide⟩
  have hinput : inputCells [relation] ⟨0, 0⟩ ((List.range 9).map ([some ·])) = cells := rfl
  have hextremes : (Cell.extreme .lt cells).same (.string "a") = true ∧
      (Cell.extreme .gt cells).same (.object [("a", .null)]) = true := by decide +kernel
  obtain ⟨-, -, -, hcells, hcolumn, hrows⟩ := extremes_ordered (by simp [cells]) h
  refine ⟨by decide +kernel, fun other hperm => ?_, fun other hperm => ?_⟩
  · obtain ⟨hmin, hmax⟩ := hcells other hperm
    rwa [hmin, hmax]
  · obtain ⟨hmin, hmax⟩ := hcolumn _ _ _ hinput
    rw [hrows _ _ _ other hinput hperm .min (.inl rfl), hrows _ _ _ other hinput hperm .max (.inr rfl)]
    rwa [hmin, hmax]

end Engine

end Joinery
