/-
Reading records back from what they are written as.

A written record has some of its members in the order of their declaration, so all of
them are found (`members?_written`) and each is read under its own name. If what a
reader gives is read back from its written form (`Rereads`), so are lists of it and
members of a record, present or left out.
-/
import Joinery.Form.Model
import Joinery.Proofs.Form.Request
import Joinery.Proofs.Json.Value

namespace Joinery.Json

/-- What one reader gives, the other gives for its written form. -/
def Rereads {α : Type} (read again : Tree → Option α) (write : α → Value) : Prop :=
  ∀ t x, read t = some x → again (.ofValue (write x)) = some x

theorem Value.string_ne_null (s : String) : Value.string s ≠ .null := by
  intro h
  cases h

theorem Value.object_ne_null (ms : List (String × Value)) : Value.object ms ≠ .null := by
  intro h
  cases h

/-! ## Written members -/

/-- The members that a written record has. -/
def written (ws : List (String × Value)) : Members := ws.map fun (n, v) => (n, .ofValue v)

namespace Members

@[simp] theorem get?_written_nil (name : String) : get? (written []) name = none := rfl

@[simp] theorem get?_written_cons (name n : String) (v : Value) (ws : List (String × Value)) :
    get? (written ((n, v) :: ws)) name =
      if n = name then some (.ofValue v) else get? (written ws) name := by
  by_cases h : n = name <;> simp [written, get?, h]

@[simp] theorem get?_written_append (name : String) (ws us : List (String × Value)) :
    get? (written (ws ++ us)) name = (get? (written ws) name).or (get? (written us) name) := by
  simp only [written, get?, List.map_append, List.find?_append, Option.map_or]

@[simp] theorem get?_written_ifPresent {α : Type} (name n : String) (write : α → Value) (a : Option α) :
    get? (written (ifPresent n write a)) name =
      if n = name then a.map fun x => .ofValue (write x) else none := by
  cases a <;> simp [ifPresent]

end Members

theorem ifPresent_sublist {α : Type} (name : String) (write : α → Value) (a : Option α) :
    ((ifPresent name write a).map (·.1)).Sublist [name] := by
  cases a <;> simp [ifPresent]

/-- Members that are declared once each are the members of the record. -/
theorem declared?_ofValueMembers {names : List String} : ∀ {ws : List (String × Value)},
    (∀ w ∈ ws, w.1 ∈ names) → (ws.map (·.1)).Nodup →
      declared? names (Tree.ofValueMembers ws) = some (written ws)
  | [], _, _ => rfl
  | (n, v) :: ws, hnames, hnodup => by
    obtain ⟨hn, hws⟩ := List.forall_mem_cons.mp hnames
    rw [List.map_cons, List.nodup_cons] at hnodup
    have hnew : (written ws).any (·.1 == n) = false := by
      rw [List.any_eq_false]
      intro m hm he
      obtain ⟨w, hw, rfl⟩ := List.mem_map.mp hm
      rw [beq_iff_eq] at he
      exact hnodup.1 (List.mem_map.mpr ⟨w, hw, he⟩)
    have hn : n ∈ names := hn
    simp only [Tree.ofValueMembers, declared?, declared?_ofValueMembers hws hnodup.2,
      Option.bind_eq_bind, Option.bind_some, List.contains_iff_mem.mpr hn, hnew, if_true,
      Bool.false_eq_true, if_false]
    rfl

/-- A written record has the members that were written, if they are among the declared ones in their
order. -/
theorem members?_written {names : List String} (hnodup : names.Nodup) (o : Origin)
    {ws : List (String × Value)} (h : (ws.map (·.1)).Sublist names) :
    members? names o (.ofValue (.object ws)) = some (written ws) := by
  rw [Tree.ofValue, members?]
  refine declared?_ofValueMembers (fun w hw => ?_) (h.nodup hnodup)
  exact h.subset (List.mem_map_of_mem hw)

/-! ## Readers -/

theorem string_rereads : Rereads string? string? .string := by
  intro t s _
  rfl

theorem value_rereads : Rereads Tree.value? Tree.value? id := by
  intro t v h
  exact Tree.value?_ofValue h

namespace Rereads

variable {α : Type} {read again : Tree → Option α} {write : α → Value} {ms ws : Members} {name : String}

theorem mapM (h : Rereads read again write) : ∀ {xs : List α}, (∀ x ∈ xs, ∃ t, read t = some x) →
    (Tree.ofValues (xs.map write)).mapM again = some xs
  | [], _ => rfl
  | x :: xs, hxs => by
    obtain ⟨⟨t, hx⟩, hxs⟩ := List.forall_mem_cons.mp hxs
    rw [List.map_cons, Tree.ofValues, List.mapM_cons, h t x hx, h.mapM hxs]
    rfl

theorem list (h : Rereads read again write) : Rereads (list? read) (list? again) (listed write) := by
  intro t xs hread
  unfold list? at hread
  split at hread
  · exact h.mapM (mapM_option_mem hread)
  · cases hread

theorem required (h : Rereads read again write) {x : α} (hread : ms.required name read = some x)
    (hget : ws.get? name = some (.ofValue (write x))) : ws.required name again = some x := by
  obtain ⟨t, -, hx⟩ := Option.bind_eq_some_iff.mp hread
  exact Option.bind_eq_some_iff.mpr ⟨_, hget, h t x hx⟩

/-- A list that may have been left out, and is written in any case. -/
theorem withDefault (h : Rereads read again write) {xs : List α}
    (hread : ms.withDefault name [] (list? read) = some xs)
    (hget : ws.get? name = some (.ofValue (listed write xs))) :
    ws.withDefault name [] (list? again) = some xs := by
  simp only [Members.withDefault, hget]
  exact h.mapM (listMember_read hread)

/-- A member that is written, and not as null. -/
theorem optional_present (h : Rereads read again write) (hnull : ∀ x, write x ≠ .null) {x : α}
    {t : Tree} (hx : read t = some x) (hget : ws.get? name = some (.ofValue (write x))) :
    ws.optional name again = some (some x) := by
  have hnotNull : Tree.ofValue (write x) ≠ .null := by
    intro he
    cases hw : write x with
    | null => exact hnull x hw
    | _ => rw [hw, Tree.ofValue] at he; cases he
  have hagain := h t x hx
  unfold Members.optional
  rw [hget]
  split
  · contradiction
  · next he => exact absurd (Option.some.inj he) hnotNull
  · next u _ he =>
    obtain rfl := Option.some.inj he
    rw [hagain, Option.map_some]

theorem optional (h : Rereads read again write) (hnull : ∀ x, write x ≠ .null) {a : Option α}
    (hread : ms.optional name read = some a)
    (hget : ws.get? name = a.map fun x => .ofValue (write x)) : ws.optional name again = some a := by
  cases a with
  | none => simp [Members.optional, hget]
  | some x =>
    obtain ⟨t, hx⟩ := optionalMember_read hread x rfl
    exact h.optional_present hnull hx hget

theorem optionalNull (h : Rereads read again write) (hnull : ∀ x, write x ≠ .null) {a : Option α}
    (hread : ms.optional name read = some a)
    (hget : ws.get? name = some (.ofValue (orNull write a))) : ws.optional name again = some a := by
  cases a with
  | none => simp [Members.optional, hget, orNull, Tree.ofValue]
  | some x =>
    obtain ⟨t, hx⟩ := optionalMember_read hread x rfl
    exact h.optional_present hnull hx hget

end Rereads

end Joinery.Json
