/-
The planned joins, with an index of their chains.

A join set finds a chain by searching its entries. Here the joins are kept alone, and
beside them an index from chains to positions; a push changes both in place. It
looks the chain up and binds the condition before it writes, so a push that fails,
however deep in the condition, has written nothing (`push_does`), and each push does
what planning the join in the set does (`Indexes.push`). Over any pushes, a join and
its index entry come in together, with the first push of the chain that succeeds, and
stay (`planned_once`).
-/
import Joinery.Proofs.Plan.Readable

namespace Joinery

/-- What a push is called with: the fields of the chain, the relation that its last join hangs off,
and the position of the nested plan of the target. The chain is known by the numbers of its fields. -/
structure JoinCall where
  chain : List Field
  parent : Slot
  subPlan : Option Nat

/-- The join that a call asks for, at a position. -/
def JoinCall.join (s : Store) (call : JoinCall) (position : Nat) : Except CompileError PlannedJoin :=
  match call.chain.getLast? with
  | none => .error (.internal .emptyChain)
  | some f =>
    match f.kind with
    | .join join => do
      let on ← s.bind f call.parent (.join position) join.on
      return {
        label := ".".intercalate (call.chain.map (·.name))
        parent := call.parent, field := f.id, owner := s.sourceName f.owner, name := f.name
        target := join.target, cardinality := join.cardinality, on, subPlan := call.subPlan }
    | _ => .error (.internal (.notAJoin (s.qualifiedName f)))

/-- The planned joins and, by their chains, their positions. -/
structure IndexedJoins where
  joins : List PlannedJoin
  index : Std.HashMap Chain Nat

namespace IndexedJoins

/-- No joins yet. -/
def empty : IndexedJoins := ⟨[], ∅⟩

/-- The slot of a chain, if the index has it. -/
def lookup? (b : IndexedJoins) (c : Chain) : Option Slot := b.index[c]?.map .join

/-- Plans the join of a call in place. -/
def push (s : Store) (call : JoinCall) : EStateM CompileError IndexedJoins Slot := do
  let b ← get
  match b.lookup? (ids call.chain) with
  | some slot => return slot
  | none =>
    let position := b.joins.length
    let planned ← ofExcept (call.join s position)
    modify fun b => { b with joins := b.joins ++ [planned] }
    modify fun b => { b with index := b.index.insert (ids call.chain) position }
    return .join position

/-- The joins in the order of planning. -/
def finish (b : IndexedJoins) : List PlannedJoin := b.joins

/-- What a push leaves behind, whether it succeeds or fails. -/
def attempt (s : Store) (b : IndexedJoins) (call : JoinCall) : IndexedJoins :=
  match (push s call).run b with
  | .ok _ b' => b'
  | .error _ b' => b'

/-- What some pushes leave behind. -/
def after (s : Store) (calls : List JoinCall) : IndexedJoins := calls.foldl (attempt s) .empty

end IndexedJoins

variable {s : Store} {call : JoinCall}

/-- A call asks for the join of the last field of its chain, on its parent. -/
theorem JoinCall.join_eq_ok_iff {i : Nat} {j : PlannedJoin} : call.join s i = .ok j ↔
    ∃ init f join on, call.chain = init ++ [f] ∧ f.kind = .join join ∧
      s.bind f call.parent (.join i) join.on = .ok on ∧
      j = s.lastJoin init f join call.parent on call.subPlan := by
  unfold JoinCall.join
  rcases call.chain.eq_nil_or_concat' with hchain | ⟨init, f, hchain⟩
  · simp [hchain]
  simp only [hchain, List.getLast?_concat]
  cases hk : f.kind with
  | scalar | aggregate => simp [hk]
  | join join =>
    simp only [bind_eq_ok_iff, pure_eq_ok_iff]
    constructor
    · rintro ⟨on, hon, rfl⟩
      exact ⟨init, f, join, on, rfl, hk, hon, rfl⟩
    · rintro ⟨init', f', join', on, heq, hk', hon, rfl⟩
      obtain ⟨rfl, hlast⟩ := List.append_inj' heq rfl
      cases hlast
      cases hk.symm.trans hk'
      exact ⟨on, hon, rfl⟩

theorem JoinCall.join_slots {i : Nat} {j : PlannedJoin} (h : call.join s i = .ok j)
    {e : Column × Column} (he : e ∈ j.on.equalities) {c : Column} (hc : c ∈ [e.1, e.2]) :
    c.slot = .join i ∨ c.slot = call.parent := by
  obtain ⟨init, f, join, on, -, -, hon, rfl⟩ := join_eq_ok_iff.mp h
  obtain ⟨_, _, -, -, ⟨hslot, -⟩ | ⟨hslot, -⟩⟩ := Store.bindsTo_of_bind hon he hc
  · exact .inr hslot
  · exact .inl hslot

/-- Planning in the set is planning the join that is asked for, unless its chain is found. -/
theorem JoinSet.push_eq (s : Store) (js : JoinSet) (call : JoinCall) :
    JoinSet.push s js call.chain call.parent call.subPlan =
      match js.lookup? (ids call.chain) with
      | some slot => .ok (slot, js)
      | none => do
        let j ← call.join s js.entries.length
        return (.join js.entries.length, ⟨js.entries ++ [(ids call.chain, j)]⟩) := by
  simp only [JoinSet.push, JoinCall.join, ids]
  cases js.lookup? (call.chain.map (·.id)) with
  | some slot => rfl
  | none =>
    cases call.chain.getLast? with
    | none => rfl
    | some f =>
      cases hk : f.kind with
      | scalar | aggregate => simp only [hk]; rfl
      | join join => simp only [hk, bind_assoc, pure_bind]

/-- The join set with the join of a call, if that can be planned. -/
def JoinSet.attempt (s : Store) (js : JoinSet) (call : JoinCall) : JoinSet :=
  match JoinSet.push s js call.chain call.parent call.subPlan with
  | .ok (_, ks) => ks
  | .error _ => js

namespace IndexedJoins

variable {b : IndexedJoins}

/-! ## One push -/

/-- A push adds a join at the end, and its chain to the index. -/
structure Adds (s : Store) (b : IndexedJoins) (call : JoinCall) (b' : IndexedJoins) (j : PlannedJoin) :
    Prop where
  run : (push s call).run b = .ok (.join b.joins.length) b'
  fresh : b.lookup? (ids call.chain) = none
  made : call.join s b.joins.length = .ok j
  joins : b'.joins = b.joins ++ [j]
  lookups : ∀ c, b'.lookup? c = if ids call.chain = c then some (.join b.joins.length) else b.lookup? c

/-- All that a push can do. -/
inductive Does (s : Store) (b : IndexedJoins) (call : JoinCall) : Prop
  | finds (slot : Slot) (found : b.lookup? (ids call.chain) = some slot)
      (run : (push s call).run b = .ok slot b)
  | adds (b' : IndexedJoins) (j : PlannedJoin) (adds : Adds s b call b' j)
  | fails (e : CompileError) (fresh : b.lookup? (ids call.chain) = none)
      (run : (push s call).run b = .error e b)

theorem lookup?_insert (joins : List PlannedJoin) (key c : Chain) (i : Nat) :
    (⟨joins, b.index.insert key i⟩ : IndexedJoins).lookup? c =
      if key = c then some (.join i) else b.lookup? c := by
  simp only [lookup?, Std.HashMap.getElem?_insert, beq_iff_eq]
  split <;> rfl

theorem push_run (s : Store) (b : IndexedJoins) (call : JoinCall) : (push s call).run b =
    match b.lookup? (ids call.chain) with
    | some slot => .ok slot b
    | none =>
      match call.join s b.joins.length with
      | .ok j => .ok (.join b.joins.length)
          ⟨b.joins ++ [j], b.index.insert (ids call.chain) b.joins.length⟩
      | .error e => .error e b := by
  simp only [push, EStateM.run_bind, EStateM.run_get]
  cases b.lookup? (ids call.chain) with
  | some slot => rfl
  | none =>
    cases call.join s b.joins.length <;> rfl

theorem push_does (s : Store) (b : IndexedJoins) (call : JoinCall) : Does s b call := by
  have hrun := push_run s b call
  cases hl : b.lookup? (ids call.chain) with
  | some slot =>
    rw [hl] at hrun
    exact .finds slot hl hrun
  | none =>
    rw [hl] at hrun
    cases hj : call.join s b.joins.length with
    | error e =>
      rw [hj] at hrun
      exact .fails e hl hrun
    | ok j =>
      rw [hj] at hrun
      exact .adds _ j ⟨hrun, hl, hj, rfl, fun c => lookup?_insert _ _ c _⟩

/-! ## What pushes leave behind -/

/-- Joins and entries that are there stay as they are. -/
structure Keeps (b b' : IndexedJoins) : Prop where
  joins : b.joins <+: b'.joins
  lookups : ∀ c slot, b.lookup? c = some slot → b'.lookup? c = some slot

theorem Keeps.refl (b : IndexedJoins) : Keeps b b := ⟨List.prefix_rfl, fun _ _ h => h⟩

theorem Keeps.trans {b b' b'' : IndexedJoins} (h : Keeps b b') (h' : Keeps b' b'') : Keeps b b'' :=
  ⟨h.joins.trans h'.joins, fun c slot hl => h'.lookups c slot (h.lookups c slot hl)⟩

theorem Adds.keeps {b' : IndexedJoins} {j : PlannedJoin} (h : Adds s b call b' j) : Keeps b b' := by
  refine ⟨⟨[j], h.joins.symm⟩, fun c slot hl => ?_⟩
  have hne : ids call.chain ≠ c := by
    rintro rfl
    cases h.fresh.symm.trans hl
  rw [h.lookups, if_neg hne, hl]

/-- A push adds a join, or leaves everything as it is. -/
theorem attempt_cases (s : Store) (b : IndexedJoins) (call : JoinCall) :
    attempt s b call = b ∨ ∃ j, Adds s b call (attempt s b call) j := by
  cases push_does s b call with
  | finds slot found run => exact .inl (by rw [attempt, run])
  | fails e fresh run => exact .inl (by rw [attempt, run])
  | adds b' j adds =>
    have hattempt : attempt s b call = b' := by rw [attempt, adds.run]
    exact .inr ⟨j, hattempt.symm ▸ adds⟩

theorem attempt_keeps (s : Store) (b : IndexedJoins) (call : JoinCall) :
    Keeps b (attempt s b call) := by
  rcases attempt_cases s b call with hsame | ⟨j, hadds⟩
  · rw [hsame]
    exact .refl b
  · exact hadds.keeps

theorem attempts_keep (s : Store) : ∀ (calls : List JoinCall) (b : IndexedJoins),
    Keeps b (calls.foldl (attempt s) b)
  | [], b => .refl b
  | call :: calls, b => (attempt_keeps s b call).trans (attempts_keep s calls _)

theorem after_keeps {calls more : List JoinCall} (h : calls <+: more) :
    Keeps (after s calls) (after s more) := by
  obtain ⟨rest, rfl⟩ := h
  rw [after, after, List.foldl_append]
  exact attempts_keep s rest _

/-! ## Which push created a join -/

/-- The push at a place creates a join at a position. -/
structure Creates (s : Store) (calls : List JoinCall) (n : Nat) (call : JoinCall) (i : Nat)
    (j : PlannedJoin) : Prop where
  called : calls[n]? = some call
  position : (after s (calls.take n)).joins.length = i
  joins : (after s (calls.take (n + 1))).joins = (after s (calls.take n)).joins ++ [j]

/-- The push at a place succeeds with a relation. -/
def Succeeds (s : Store) (calls : List JoinCall) (n : Nat) (call : JoinCall) (slot : Slot) : Prop :=
  calls[n]? = some call ∧ ∃ b, (push s call).run (after s (calls.take n)) = .ok slot b

variable {calls : List JoinCall} {n m i k : Nat} {call' : JoinCall} {j j' : PlannedJoin}

theorem after_take_succ (h : calls[n]? = some call) :
    after s (calls.take (n + 1)) = attempt s (after s (calls.take n)) call := by
  rw [List.take_add_one, h, after, List.foldl_append]
  rfl

theorem after_take_cases (s : Store) (calls : List JoinCall) (n : Nat) :
    after s (calls.take (n + 1)) = after s (calls.take n) ∨ ∃ call j,
      Creates s calls n call (after s (calls.take n)).joins.length j ∧
        Adds s (after s (calls.take n)) call (after s (calls.take (n + 1))) j := by
  cases hcall : calls[n]? with
  | none => exact .inl (by rw [List.take_add_one, hcall, Option.toList_none, List.append_nil])
  | some call =>
    rw [after_take_succ hcall]
    refine (attempt_cases s _ call).imp_right fun ⟨j, hadds⟩ => ⟨call, j, ⟨hcall, rfl, ?_⟩, hadds⟩
    rw [after_take_succ hcall]
    exact hadds.joins

theorem Creates.adds (h : Creates s calls n call i j) :
    Adds s (after s (calls.take n)) call (after s (calls.take (n + 1))) j := by
  rcases after_take_cases s calls n with hsame | ⟨call', j', hcreates, hadds⟩
  · have hjoins := h.joins
    rw [hsame, List.self_eq_append_right] at hjoins
    cases hjoins
  · obtain rfl : call' = call := Option.some.inj (hcreates.called.symm.trans h.called)
    have hlast := List.append_cancel_left (hadds.joins.symm.trans h.joins)
    cases hlast
    exact hadds

theorem Creates.joins_getElem? (h : Creates s calls n call i j) :
    (after s calls).joins[i]? = some j := by
  refine Store.getElem?_of_prefix (after_keeps (List.take_prefix (n + 1) calls)).joins ?_
  rw [h.joins, ← h.position]
  exact List.getElem?_concat_length

theorem Creates.lookup? (h : Creates s calls n call i j) (hm : n < m) :
    (after s (calls.take m)).lookup? (ids call.chain) = some (.join i) := by
  refine (after_keeps (List.take_prefix_take_left hm)).lookups _ _ ?_
  rw [h.adds.lookups, if_pos rfl, h.position]

theorem exists_creates_of_getElem? :
    ∀ {n : Nat}, (after s (calls.take n)).joins[i]? = some j →
      ∃ m call, m < n ∧ Creates s calls m call i j
  | 0, h => by
    rw [List.take_zero] at h
    cases h
  | n + 1, h => by
    rcases after_take_cases s calls n with hsame | ⟨call, j', hcreates, hadds⟩
    · obtain ⟨m, call, hm, hcreates⟩ := exists_creates_of_getElem? (hsame ▸ h)
      exact ⟨m, call, by omega, hcreates⟩
    · rw [hadds.joins] at h
      rcases getElem?_concat_eq_some h with hold | ⟨rfl, rfl⟩
      · obtain ⟨m, call, hm, hcreates⟩ := exists_creates_of_getElem? hold
        exact ⟨m, call, by omega, hcreates⟩
      · exact ⟨n, call, n.lt_succ_self, hcreates⟩

theorem exists_creates_of_lookup? {c : Chain} {slot : Slot} :
    ∀ {n : Nat}, (after s (calls.take n)).lookup? c = some slot →
      ∃ m call i j, m < n ∧ Creates s calls m call i j ∧ slot = .join i ∧ ids call.chain = c
  | 0, h => by
    rw [List.take_zero, after, List.foldl_nil, IndexedJoins.lookup?, empty,
      Std.HashMap.getElem?_empty] at h
    cases h
  | n + 1, h => by
    rcases after_take_cases s calls n with hsame | ⟨call, j, hcreates, hadds⟩
    · obtain ⟨m, call, i, j, hm, hcreates⟩ := exists_creates_of_lookup? (hsame ▸ h)
      exact ⟨m, call, i, j, by omega, hcreates⟩
    · rw [hadds.lookups] at h
      split at h
      · next hc => exact ⟨n, call, _, j, n.lt_succ_self, hcreates, (Option.some.inj h).symm, hc⟩
      · obtain ⟨m, call, i, j, hm, hcreates⟩ := exists_creates_of_lookup? h
        exact ⟨m, call, i, j, by omega, hcreates⟩

theorem Creates.lt_of_lt (h : Creates s calls n call i j) (h' : Creates s calls m call' k j')
    (hlt : n < m) : i < k := by
  have hle := (after_keeps (s := s) (List.take_prefix_take_left (l := calls) hlt)).joins.length_le
  rw [h.joins, List.length_append, h.position, h'.position, List.length_singleton] at hle
  exact hle

/-- After a push has created a join, no push of its chain does. -/
theorem Creates.not_lt (h : Creates s calls n call i j) (h' : Creates s calls m call' k j')
    (hc : ids call.chain = ids call'.chain) : ¬ n < m := fun hlt => by
  cases (h.lookup? hlt).symm.trans (hc ▸ h'.adds.fresh)

theorem Creates.eq_of_chain (h : Creates s calls n call i j) (h' : Creates s calls m call' k j')
    (hc : ids call.chain = ids call'.chain) : n = m :=
  Nat.le_antisymm (Nat.le_of_not_lt (h'.not_lt h hc.symm)) (Nat.le_of_not_lt (h.not_lt h' hc))

theorem Creates.lt_iff (h : Creates s calls n call i j) (h' : Creates s calls m call' k j') :
    n < m ↔ i < k := by
  refine ⟨h.lt_of_lt h', fun hik => ?_⟩
  rcases Nat.lt_trichotomy n m with hlt | rfl | hgt
  · exact hlt
  · exact absurd (h.position.symm.trans h'.position) (Nat.ne_of_lt hik)
  · exact absurd (h'.lt_of_lt h hgt) (Nat.lt_asymm hik)

/-- What a push succeeds with is found by its chain. -/
theorem Succeeds.lookup? {slot : Slot} (h : Succeeds s calls n call slot) :
    (after s (calls.take (n + 1))).lookup? (ids call.chain) = some slot := by
  obtain ⟨hcall, b, hb⟩ := h
  rw [after_take_succ hcall]
  cases push_does s (after s (calls.take n)) call with
  | finds slot' found run =>
    cases run.symm.trans hb
    rwa [attempt, run]
  | fails e fresh run => cases run.symm.trans hb
  | adds b' j adds =>
    cases adds.run.symm.trans hb
    rw [attempt, adds.run]
    exact (adds.lookups _).trans (if_pos rfl)

/-- **A join is created by the first push of its chain that succeeds.** -/
theorem exists_creates_iff : (∃ j, Creates s calls n call i j) ↔
    Succeeds s calls n call (.join i) ∧ ∀ m earlier slot, m < n →
      Succeeds s calls m earlier slot → ids earlier.chain ≠ ids call.chain := by
  constructor
  · rintro ⟨j, h⟩
    refine ⟨⟨h.called, _, h.position ▸ h.adds.run⟩, fun m earlier slot hm hsucceeds hc => ?_⟩
    have hfound := (after_keeps (List.take_prefix_take_left hm)).lookups _ _ hsucceeds.lookup?
    cases hfound.symm.trans (hc ▸ h.adds.fresh)
  · rintro ⟨hsucceeds, hfirst⟩
    obtain ⟨m, call', i', j, hm, hcreates, hslot, hc⟩ := exists_creates_of_lookup? hsucceeds.lookup?
    cases hslot
    rcases Nat.lt_succ_iff_lt_or_eq.mp hm with hlt | rfl
    · have hrun := hcreates.adds.run
      exact absurd hc (hfirst m call' _ hlt ⟨hcreates.called, _, hrun⟩)
    · obtain rfl : call' = call := Option.some.inj (hcreates.called.symm.trans hsucceeds.1)
      exact ⟨j, hcreates⟩

/-! ## The join set -/

/-- The index and the joins are those of a join set. -/
structure Indexes (b : IndexedJoins) (js : JoinSet) : Prop where
  joins : b.joins = js.joins
  lookups : ∀ c, b.lookup? c = js.lookup? c

/-- A push in place does what planning in the set does: it succeeds with the same relation, and the
joins go on as those of the set, or fails with the same error and has not touched them. -/
def Follows (b : IndexedJoins) (x : EStateM.Result CompileError IndexedJoins Slot) :
    Except CompileError (Slot × JoinSet) → Prop
  | .ok (slot, js) => ∃ b', x = .ok slot b' ∧ Indexes b' js
  | .error e => x = .error e b

theorem Indexes.push {js : JoinSet} (h : Indexes b js) (call : JoinCall) :
    Follows b ((push s call).run b) (JoinSet.push s js call.chain call.parent call.subPlan) := by
  have hlength : b.joins.length = js.entries.length := by
    rw [h.joins, JoinSet.joins, List.length_map]
  rw [push_run, JoinSet.push_eq, h.lookups, hlength]
  cases hl : js.lookup? (ids call.chain) with
  | some slot => exact ⟨b, rfl, h⟩
  | none =>
    cases call.join s js.entries.length with
    | error e => rfl
    | ok j =>
      refine ⟨_, rfl, ?_, fun c => ?_⟩
      · rw [JoinSet.joins, List.map_append, h.joins]
        rfl
      · rw [JoinSet.lookup?_concat hl, ← h.lookups, lookup?_insert]

theorem Indexes.attempt {js : JoinSet} (h : Indexes b js) (call : JoinCall) :
    Indexes (attempt s b call) (js.attempt s call) := by
  have hfollows := h.push (s := s) call
  unfold IndexedJoins.attempt JoinSet.attempt
  cases hjs : JoinSet.push s js call.chain call.parent call.subPlan with
  | error e =>
    rw [hjs] at hfollows
    rw [show (IndexedJoins.push s call).run b = .error e b from hfollows]
    exact h
  | ok out =>
    rw [hjs] at hfollows
    obtain ⟨b', hb, hindexes⟩ := hfollows
    rw [hb]
    exact hindexes

theorem Indexes.attempts : ∀ (calls : List JoinCall) {b : IndexedJoins} {js : JoinSet}, Indexes b js →
    Indexes (calls.foldl (IndexedJoins.attempt s) b) (calls.foldl (JoinSet.attempt s) js)
  | [], _, _, h => h
  | call :: calls, _, _, h => Indexes.attempts calls (h.attempt call)

theorem Indexes.empty : Indexes .empty .empty :=
  ⟨rfl, fun c => by rw [IndexedJoins.lookup?, IndexedJoins.empty, Std.HashMap.getElem?_empty]; rfl⟩

/-! ## Any pushes -/

/-- What holds of the joins and the index after some pushes, successful or not. -/
structure PlannedOnce (s : Store) (calls : List JoinCall) : Prop where
  /-- They are those of the join set that the calls build. -/
  indexes : Indexes (after s calls) (calls.foldl (JoinSet.attempt s) .empty)
  /-- A chain leads to the join that a push of it has created. -/
  found : ∀ c slot, (after s calls).lookup? c = some slot ↔
    ∃ n call i j, Creates s calls n call i j ∧ ids call.chain = c ∧ slot = .join i
  created : ∀ (i : Nat) j, (after s calls).finish[i]? = some j ↔ ∃ n call, Creates s calls n call i j
  distinct : ∀ n call i j m call' k j', Creates s calls n call i j → Creates s calls m call' k j' →
    i ≠ k → ids call.chain ≠ ids call'.chain
  /-- A chain that is planned is found again, whatever relation and nested plan are given, and nothing
  changes. -/
  again : ∀ call slot, (after s calls).lookup? (ids call.chain) = some slot →
    (push s call).run (after s calls) = .ok slot (after s calls)
  /-- A push that fails changes nothing. -/
  fails : ∀ call e b, (push s call).run (after s calls) = .error e b → b = after s calls
  /-- All pushes of a chain that succeed give the relation of its join. -/
  succeeds : ∀ n call slot, Succeeds s calls n call slot →
    (after s calls).lookup? (ids call.chain) = some slot
  /-- A join is created by the first push of its chain that succeeds. -/
  first : ∀ n call i, (∃ j, Creates s calls n call i j) ↔
    Succeeds s calls n call (.join i) ∧ ∀ m earlier slot, m < n →
      Succeeds s calls m earlier slot → ids earlier.chain ≠ ids call.chain
  ordered : ∀ n call i j m call' k j', Creates s calls n call i j → Creates s calls m call' k j' →
    (n < m ↔ i < k)
  /-- A join is the one that was asked for, on the relation that was given, and its condition is over
  its own relation and that one. -/
  made : ∀ n call i j, Creates s calls n call i j → call.join s i = .ok j ∧ j.parent = call.parent ∧
    ∀ e ∈ j.on.equalities, ∀ c ∈ [e.1, e.2], c.slot = .join i ∨ c.slot = call.parent

theorem found_iff {c : Chain} {slot : Slot} : (after s calls).lookup? c = some slot ↔
    ∃ n call i j, Creates s calls n call i j ∧ ids call.chain = c ∧ slot = .join i := by
  have hall : calls.take calls.length = calls := List.take_length
  constructor
  · intro h
    rw [← hall] at h
    obtain ⟨n, call, i, j, -, hcreates, hslot, hc⟩ := exists_creates_of_lookup? h
    exact ⟨n, call, i, j, hcreates, hc, hslot⟩
  · rintro ⟨n, call, i, j, hcreates, rfl, rfl⟩
    have hfound := hcreates.lookup? (List.getElem?_eq_some_iff.mp hcreates.called).1
    rwa [hall] at hfound

theorem created_iff :
    (after s calls).joins[i]? = some j ↔ ∃ n call, Creates s calls n call i j := by
  constructor
  · intro h
    rw [← List.take_length (l := calls)] at h
    obtain ⟨n, call, -, hcreates⟩ := exists_creates_of_getElem? h
    exact ⟨n, call, hcreates⟩
  · rintro ⟨n, call, hcreates⟩
    exact hcreates.joins_getElem?

/-- **Each chain is planned once**, over any pushes: a join and its index entry come in together, with
the first push of the chain that succeeds, and no other push changes anything. -/
theorem planned_once (s : Store) (calls : List JoinCall) : PlannedOnce s calls where
  indexes := Indexes.empty.attempts calls
  found := fun c slot => found_iff
  created := fun i j => created_iff
  distinct := fun n call i j m call' k j' h h' hik hc => by
    obtain rfl := h.eq_of_chain h' hc
    exact hik (h.position.symm.trans h'.position)
  again := fun call slot hfound => by rw [push_run, hfound]
  fails := fun call e b hrun => by
    cases push_does s (after s calls) call with
    | finds slot found run => cases run.symm.trans hrun
    | adds b' j adds => cases adds.run.symm.trans hrun
    | fails e' fresh run =>
      cases run.symm.trans hrun
      rfl
  succeeds := fun n call slot h =>
    (after_keeps (List.take_prefix (n + 1) calls)).lookups _ _ h.lookup?
  first := fun n call i => exists_creates_iff
  ordered := fun n call i j m call' k j' h h' => h.lt_iff h'
  made := fun n call i j h => by
    have hmade := h.adds.made
    rw [h.position] at hmade
    obtain ⟨init, f, join, on, -, -, -, hj⟩ := JoinCall.join_eq_ok_iff.mp hmade
    exact ⟨hmade, by rw [hj]; rfl, fun e he c hc => JoinCall.join_slots hmade he hc⟩

end IndexedJoins

end Joinery
