/-
Values that were read are read back.

The members of an object that was read are in the order of their names, each name
once (`sorted_foldl`), and in that order putting them in order changes nothing
(`foldl_insertMember`). So a value that was read from some tree is read from its own
tree as it is (`Tree.value?_ofValue`). Of members of distinct names none is lost
(`ofMembers_eq`).
-/
import Mathlib.Data.String.Basic
import Joinery.Json.Tree

namespace Joinery.Json

/-! ## The order of members -/

/-- The names ascend, so none stands twice. -/
def SortedMembers (ms : List (String × Value)) : Prop := ms.Pairwise (·.1 < ·.1)

theorem mem_insertMember {name : String} {value : Value} {x : String × Value} :
    ∀ {ms : List (String × Value)}, x ∈ Value.insertMember name value ms → x = (name, value) ∨ x ∈ ms
  | [], h => .inl (List.mem_singleton.mp h)
  | (n, v) :: ms, h => by
    simp only [Value.insertMember] at h
    split at h
    · exact List.mem_cons.mp h
    · split at h
      · rcases List.mem_cons.mp h with h | h
        · exact .inl h
        · exact .inr (List.mem_cons_of_mem _ h)
      · rcases List.mem_cons.mp h with h | h
        · exact .inr (h ▸ List.mem_cons_self)
        · exact (mem_insertMember h).imp_right (List.mem_cons_of_mem _)

theorem SortedMembers.insertMember (name : String) (value : Value) :
    ∀ {ms : List (String × Value)}, SortedMembers ms → SortedMembers (Value.insertMember name value ms)
  | [], _ => List.pairwise_singleton _ _
  | (n, v) :: ms, h => by
    obtain ⟨hfirst, hrest⟩ := List.pairwise_cons.mp h
    simp only [Value.insertMember]
    by_cases hlt : name < n
    · rw [if_pos hlt]
      refine List.pairwise_cons.mpr ⟨fun x hx => ?_, h⟩
      rcases List.mem_cons.mp hx with rfl | hx
      · exact hlt
      · exact hlt.trans (hfirst x hx)
    rw [if_neg hlt]
    by_cases heq : name = n
    · rw [if_pos heq]
      exact List.pairwise_cons.mpr ⟨fun x hx => heq ▸ hfirst x hx, hrest⟩
    · rw [if_neg heq]
      refine List.pairwise_cons.mpr ⟨fun x hx => ?_, SortedMembers.insertMember name value hrest⟩
      rcases mem_insertMember hx with rfl | hx
      · exact lt_of_le_of_ne (not_lt.mp hlt) (Ne.symm heq)
      · exact hfirst x hx

theorem insertMember_last {name : String} {value : Value} : ∀ {ms : List (String × Value)},
    (∀ m ∈ ms, m.1 < name) → Value.insertMember name value ms = ms ++ [(name, value)]
  | [], _ => rfl
  | (n, v) :: ms, h => by
    obtain ⟨hn, hms⟩ := List.forall_mem_cons.mp h
    have hn : n < name := hn
    rw [Value.insertMember, if_neg hn.asymm, if_neg hn.ne', insertMember_last hms, List.cons_append]

/-- A member of a new name comes in beside the others. -/
theorem insertMember_perm {name : String} {value : Value} : ∀ {ms : List (String × Value)},
    name ∉ ms.map (·.1) → (Value.insertMember name value ms).Perm ((name, value) :: ms)
  | [], _ => .refl _
  | (n, v) :: ms, h => by
    rw [List.map_cons, List.mem_cons, not_or] at h
    obtain ⟨hn, hms⟩ := h
    have hn : name ≠ n := hn
    simp only [Value.insertMember, if_neg hn]
    split
    · exact .refl _
    · exact ((insertMember_perm hms).cons _).trans (.swap _ _ _)

theorem foldl_insertMember : ∀ {ms : List (String × Value)} (front : List (String × Value)),
    SortedMembers (front ++ ms) →
    ms.foldl (fun sorted (n, v) => Value.insertMember n v sorted) front = front ++ ms
  | [], front, _ => by simp
  | (n, v) :: ms, front, h => by
    have hlast : ∀ m ∈ front, m.1 < n := fun m hm =>
      (List.pairwise_append.mp h).2.2 m hm (n, v) List.mem_cons_self
    simp only [List.foldl_cons, insertMember_last hlast]
    rw [foldl_insertMember _ (by simpa using h), List.append_assoc, List.singleton_append]

/-- Whatever the members are, they are put in order, and no others come in. -/
theorem sorted_foldl : ∀ (ms : List (String × Value)) {front : List (String × Value)},
    SortedMembers front →
    let sorted := ms.foldl (fun sorted (n, v) => Value.insertMember n v sorted) front
    SortedMembers sorted ∧ ∀ x ∈ sorted, x ∈ front ∨ x ∈ ms
  | [], front, h => ⟨h, fun x hx => .inl hx⟩
  | (n, v) :: ms, front, h => by
    obtain ⟨hsorted, hmem⟩ := sorted_foldl ms (h.insertMember n v)
    refine ⟨hsorted, fun x hx => ?_⟩
    rcases hmem x hx with hx | hx
    · rcases mem_insertMember hx with rfl | hx
      · exact .inr List.mem_cons_self
      · exact .inl hx
    · exact .inr (List.mem_cons_of_mem _ hx)

/-- Members of distinct names all come in. -/
theorem foldl_insertMember_perm : ∀ (ms front : List (String × Value)), ((front ++ ms).map (·.1)).Nodup →
    (ms.foldl (fun sorted (n, v) => Value.insertMember n v sorted) front).Perm (front ++ ms)
  | [], front, _ => by simp
  | (n, v) :: ms, front, h => by
    have hmoved : (front ++ (n, v) :: ms).Perm ((n, v) :: front ++ ms) := List.perm_middle
    have hnodup : (((n, v) :: front ++ ms).map (·.1)).Nodup := (hmoved.map (·.1)).nodup_iff.mp h
    have hnew : n ∉ front.map (·.1) := fun hn =>
      (List.nodup_cons.mp hnodup).1 (by simpa using Or.inl (List.mem_map.mp hn))
    have hinserted : (Value.insertMember n v front).Perm ((n, v) :: front) := insertMember_perm hnew
    have hrest := foldl_insertMember_perm ms (Value.insertMember n v front)
      (((hinserted.append_right ms).map (·.1)).nodup_iff.mpr hnodup)
    exact hrest.trans ((hinserted.append_right ms).trans hmoved.symm)

/-- The object of members of distinct names has these members, in the order of their names. -/
theorem ofMembers_eq {ms : List (String × Value)} (h : (ms.map (·.1)).Nodup) :
    ∃ sorted, Value.ofMembers ms = .object sorted ∧ SortedMembers sorted ∧ sorted.Perm ms :=
  ⟨_, rfl, (sorted_foldl ms List.Pairwise.nil).1, foldl_insertMember_perm ms [] h⟩

namespace Tree

/-! ## Trees of values -/

theorem values?_eq_some {vs : List Value} (h : ∀ v ∈ vs, (ofValue v).value? = some v) :
    values? (ofValues vs) = some vs := by
  induction vs with
  | nil => rfl
  | cons v vs ih =>
    obtain ⟨hv, hvs⟩ := List.forall_mem_cons.mp h
    simp [ofValues, values?, hv, ih hvs]

theorem valueMembers?_eq_some {ms : List (String × Value)}
    (h : ∀ m ∈ ms, (ofValue m.2).value? = some m.2) : valueMembers? (ofValueMembers ms) = some ms := by
  induction ms with
  | nil => rfl
  | cons m ms ih =>
    obtain ⟨hm, hms⟩ := List.forall_mem_cons.mp h
    simp [ofValueMembers, valueMembers?, hm, ih hms]

mutual
theorem ofValue_isSome : ∀ v : Value, (ofValue v).value?.isSome = true
  | .null => rfl
  | .bool _ => rfl
  | .number _ => rfl
  | .string _ => rfl
  | .array items => by
    obtain ⟨vs, hvs⟩ := Option.isSome_iff_exists.mp (ofValues_isSome items)
    simp [ofValue, value?, hvs]
  | .object members => by
    obtain ⟨ms, hms⟩ := Option.isSome_iff_exists.mp (ofValueMembers_isSome members)
    simp [ofValue, value?, hms]

theorem ofValues_isSome : ∀ vs : List Value, (values? (ofValues vs)).isSome = true
  | [] => rfl
  | v :: vs => by
    obtain ⟨w, hw⟩ := Option.isSome_iff_exists.mp (ofValue_isSome v)
    obtain ⟨ws, hws⟩ := Option.isSome_iff_exists.mp (ofValues_isSome vs)
    simp [ofValues, values?, hw, hws]

theorem ofValueMembers_isSome : ∀ ms : List (String × Value),
    (valueMembers? (ofValueMembers ms)).isSome = true
  | [] => rfl
  | (n, v) :: ms => by
    obtain ⟨w, hw⟩ := Option.isSome_iff_exists.mp (ofValue_isSome v)
    obtain ⟨ws, hws⟩ := Option.isSome_iff_exists.mp (ofValueMembers_isSome ms)
    simp [ofValueMembers, valueMembers?, hw, hws]
end

theorem ofValue_isReadable (v : Value) : (ofValue v).isReadable = true := ofValue_isSome v

/-! ## Reading back -/

mutual
/-- **A value that was read is read back** from its own tree. -/
theorem value?_ofValue : ∀ {t : Tree} {v : Value}, t.value? = some v → (ofValue v).value? = some v
  | .unreadable, _, h => nomatch h
  | .malformed, _, h => nomatch h
  | .null, _, h => by
    cases h
    rfl
  | .bool b, _, h => by
    cases h
    rfl
  | .number n, _, h => by
    cases h
    cases n with
    | int n => rfl
    | double x =>
      -- a double that is not finite was read as null
      by_cases hx : Decimal.isFinite x = true
      · simp [Value.ofNumber, Value.ofDouble, hx, ofValue, value?]
      · simp [Value.ofNumber, Value.ofDouble, hx, ofValue, value?]
  | .string s, _, h => by
    cases h
    rfl
  | .array items, v, h => by
    simp only [value?, Option.bind_eq_bind, Option.bind_eq_some_iff, Option.pure_def,
      Option.some.injEq] at h
    obtain ⟨vs, hvs, rfl⟩ := h
    simp [ofValue, value?, values?_eq_some (values?_ofValue hvs)]
  | .object members, v, h => by
    simp only [value?, Option.bind_eq_bind, Option.bind_eq_some_iff, Option.pure_def,
      Option.some.injEq] at h
    obtain ⟨ms, hms, rfl⟩ := h
    obtain ⟨hsorted, hmem⟩ := sorted_foldl ms List.Pairwise.nil
    have hread : ∀ m ∈ ms.foldl (fun sorted (n, v) => Value.insertMember n v sorted) [],
        (ofValue m.2).value? = some m.2 := fun m hm =>
      valueMembers?_ofValue hms m ((hmem m hm).resolve_left List.not_mem_nil)
    have hagain := foldl_insertMember [] hsorted
    simp only [Value.ofMembers, ofValue, value?, valueMembers?_eq_some hread]
    exact congrArg (some ∘ Value.object) hagain

theorem values?_ofValue : ∀ {ts : List Tree} {vs : List Value}, values? ts = some vs →
    ∀ v ∈ vs, (ofValue v).value? = some v
  | [], _, h => by
    cases h
    exact nofun
  | t :: ts, vs, h => by
    simp only [values?, Option.bind_eq_bind, Option.bind_eq_some_iff, Option.pure_def,
      Option.some.injEq] at h
    obtain ⟨v, hv, vs, hvs, rfl⟩ := h
    exact List.forall_mem_cons.mpr ⟨value?_ofValue hv, values?_ofValue hvs⟩

theorem valueMembers?_ofValue : ∀ {ms : List (Option String × Tree)} {vs : List (String × Value)},
    valueMembers? ms = some vs → ∀ v ∈ vs, (ofValue v.2).value? = some v.2
  | [], _, h => by
    cases h
    exact nofun
  | (n, t) :: ms, vs, h => by
    simp only [valueMembers?, Option.bind_eq_bind, Option.bind_eq_some_iff, Option.pure_def,
      Option.some.injEq] at h
    obtain ⟨name, -, v, hv, vs, hvs, rfl⟩ := h
    exact List.forall_mem_cons.mpr ⟨value?_ofValue hv, valueMembers?_ofValue hvs⟩
end

end Tree

end Joinery.Json
