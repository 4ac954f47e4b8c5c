/-
Planning a chain in parts.

The joins of an assembly stay where they are, so a chain that is planned is found again and adds nothing
(`addRest_again`), and a chain planned after a beginning of it comes to what planning it alone does
(`addChain_resumed`). So a key, whose chain is planned in two parts, is planned by its end: the joins on
its way come in with those of the end (`addKey_eq_ok_iff`).
-/
import Joinery.Proofs.Plan.Item
import Joinery.Proofs.Plan.Layout

namespace Joinery

/-! ## Joins that are there -/

theorem JoinSet.lookup?_mono {js ks : JoinSet} (h : js.entries <+: ks.entries) {c : Chain} {slot : Slot}
    (hl : js.lookup? c = some slot) : ks.lookup? c = some slot := by
  obtain ⟨new, hnew⟩ := h
  obtain ⟨i, hi, rfl⟩ := Option.map_eq_some_iff.mp hl
  rw [lookup?, ← hnew, List.findIdx?_append, hi]
  rfl

theorem JoinSet.push_eq_ok {s : Store} {js ks : JoinSet} {chain : List Field} {parent slot : Slot}
    {subPlan : Option Nat} (h : push s js chain parent subPlan = .ok (slot, ks)) :
    js.entries <+: ks.entries ∧ ks.lookup? (ids chain) = some slot := by
  simp only [push] at h
  split at h
  · next hl => cases h; exact ⟨List.prefix_rfl, hl⟩
  · cases h
  · next hl hlast =>
    split at h
    · obtain ⟨on, -, h⟩ := bind_eq_ok_iff.mp h
      cases h
      exact ⟨List.prefix_append _ _, (lookup?_concat hl _ _).trans (if_pos rfl)⟩
    · cases h

namespace Store

variable {s : Store} {derive : Derive} {start : Source} {a b c : Assembly} {slot next : Slot}

theorem needSubPlan_joins {source : Source} {position : Nat}
    (h : needSubPlan derive a source = .ok (position, b)) : b.joins = a.joins := by
  unfold needSubPlan at h
  split at h
  · cases h; rfl
  · obtain ⟨plan, -, h⟩ := bind_eq_ok_iff.mp h
    cases h
    rfl

theorem rowsOf_joins {source : Source} {position : Option Nat}
    (h : rowsOf derive a source = .ok (position, b)) : b.joins = a.joins := by
  unfold rowsOf at h
  split at h
  · cases h; rfl
  · obtain ⟨⟨k, b'⟩, hb, h⟩ := bind_eq_ok_iff.mp h
    cases h
    exact needSubPlan_joins hb

theorem addJoin_eq_ok {chain : List Field} {f : Field} {parent : Slot}
    (h : s.addJoin derive a chain f parent = .ok (slot, b)) :
    a.joins.entries <+: b.joins.entries ∧ b.joins.lookup? (ids chain) = some slot := by
  unfold addJoin at h
  split at h
  · next hl => cases h; exact ⟨List.prefix_rfl, hl⟩
  · split at h
    · cases h
    · obtain ⟨⟨subPlan, b'⟩, hrows, h⟩ := bind_eq_ok_iff.mp h
      obtain ⟨⟨slot', joins⟩, hpush, h⟩ := bind_eq_ok_iff.mp h
      cases h
      rw [← rowsOf_joins hrows]
      exact JoinSet.push_eq_ok hpush

/-- A join that is there is found again, and adds nothing. -/
theorem addJoin_again {chain : List Field} {f : Field} {parent : Slot}
    (h : b.joins.lookup? (ids chain) = some slot) : s.addJoin derive b chain f parent = .ok (slot, b) := by
  rw [addJoin, ← ids, h]

/-! ## Chains that are there -/

theorem addRest_grows : ∀ {rest walked : List Field} {a : Assembly} {slot : Slot},
    s.addRest derive a walked slot rest = .ok (next, b) → a.joins.entries <+: b.joins.entries
  | [], _, _, _, h => by cases h; exact List.prefix_rfl
  | f :: rest, walked, a, slot, h => by
    obtain ⟨⟨first, a'⟩, hfirst, hrest⟩ := bind_eq_ok_iff.mp h
    exact (addJoin_eq_ok hfirst).1.trans (addRest_grows hrest)

/-- Beside what has been planned with it, a chain is found and adds nothing. -/
theorem addRest_again (hp : b.joins.entries <+: c.joins.entries) :
    ∀ {rest walked : List Field} {a : Assembly} {slot : Slot},
      s.addRest derive a walked slot rest = .ok (next, b) →
      s.addRest derive c walked slot rest = .ok (next, c)
  | [], _, _, _, h => by cases h; rfl
  | f :: rest, walked, a, slot, h => by
    obtain ⟨⟨first, a'⟩, hfirst, hrest⟩ := bind_eq_ok_iff.mp h
    have hfound := JoinSet.lookup?_mono ((addRest_grows hrest).trans hp) (addJoin_eq_ok hfirst).2
    refine bind_eq_ok_iff.mpr ⟨(first, c), addJoin_again hfound, ?_⟩
    exact addRest_again hp hrest

theorem addRest_append (more : List Field) : ∀ (rest walked : List Field) (a : Assembly) (slot : Slot),
    s.addRest derive a walked slot (rest ++ more) = (do
      let (next, b) ← s.addRest derive a walked slot rest
      s.addRest derive b (walked ++ rest) next more)
  | [], walked, a, slot => by
    rw [List.append_nil]
    rfl
  | f :: rest, walked, a, slot => by
    rw [List.cons_append, addRest, addRest, bind_assoc]
    refine bind_congr fun ⟨first, a'⟩ => ?_
    simp only [addRest_append more rest, List.append_assoc, List.singleton_append]

/-- **A chain may be planned after a beginning of it.** -/
theorem addChain_resumed (a : Assembly) (chain more : List Field) :
    (s.addChain derive a chain >>= fun (_, b) => s.addChain derive b (chain ++ more)) =
      s.addChain derive a (chain ++ more) := by
  unfold addChain
  cases h : s.addRest derive a [] .root chain with
  | error e => rw [addRest_append, h]; rfl
  | ok out =>
    obtain ⟨slot, b⟩ := out
    show s.addRest derive b [] .root (chain ++ more) = _
    rw [addRest_append, addRest_append, h, addRest_again List.prefix_rfl h]

/-! ## Keys -/

/-- What a grouping path leads to. -/
def keyEndOf (s : Store) (start : Source) (path : Path) : Except CompileError KeyEnd := do
  s.keyEnd path (← s.resolveRequested start path)

/-- The key of a path with its end, at the relation of a slot. -/
def KeyEnd.key (e : KeyEnd) (path : Path) (name : String) (slot : Slot) : GroupingKey :=
  { name, path, column := ⟨slot, e.field.name⟩, field := e.field.id, source := e.source.name }

theorem keyEndOf_last {path : Path} {e : KeyEnd} (h : s.keyEndOf start path = .ok e) :
    ∃ name, path.last? = some name := by
  obtain ⟨r, hr, -⟩ := bind_eq_ok_iff.mp h
  obtain ⟨-, -, hne⟩ := resolveFrom_fields (resolveRequested_eq_ok hr)
  exact ⟨_, List.getLast?_eq_some_getLast hne⟩

/-- A key is planned when its path leads to an end whose joins are. -/
theorem addKey_eq_ok_iff {path : Path} {key : GroupingKey} :
    s.addKey derive start a path = .ok (key, b) ↔ ∃ e name slot, s.keyEndOf start path = .ok e ∧
      path.last? = some name ∧ s.addChain derive a e.chain = .ok (slot, b) ∧
      key = e.key path name slot := by
  -- The chain of the end goes on behind the joins of the path, which are planned before it.
  have resumed {r : Resolved} {e : KeyEnd} (he : s.keyEnd path r = .ok e) (out : Slot × Assembly) :
      (∃ x, s.addChain derive a r.joins = .ok x ∧ s.addChain derive x.2 e.chain = .ok out) ↔
        s.addChain derive a e.chain = .ok out := by
    obtain ⟨more, hmore⟩ : ∃ more, e.chain = r.joins ++ more := by
      rcases keyEnd_chain he with hc | hc
      · exact ⟨[], by rw [hc, List.append_nil]⟩
      · exact ⟨_, hc⟩
    rw [hmore, ← addChain_resumed, bind_eq_ok_iff]
  have named {r : Resolved} {e : KeyEnd} (hr : s.resolveRequested start path = .ok r)
      (he : s.keyEnd path r = .ok e) : path.last? = some (path.last?.getD r.field.name) := by
    obtain ⟨name, hname⟩ := keyEndOf_last (bind_eq_ok_iff.mpr ⟨r, hr, he⟩)
    rw [hname, Option.getD_some]
  simp only [addKey, keyEndOf, bind_eq_ok_iff, pure_eq_ok_iff, Prod.mk.injEq]
  constructor
  · rintro ⟨r, hr, x, hx, e, he, ⟨slot, c⟩, hc, rfl, rfl⟩
    exact ⟨e, _, slot, ⟨r, hr, he⟩, named hr he, (resumed he _).mp ⟨x, hx, hc⟩, rfl⟩
  · rintro ⟨e, name, slot, ⟨r, hr, he⟩, hname, hc, rfl⟩
    obtain ⟨x, hx, hc⟩ := (resumed he _).mpr hc
    refine ⟨r, hr, x, hx, e, he, (slot, b), hc, ?_, rfl⟩
    rw [hname]
    rfl

end Store

end Joinery
