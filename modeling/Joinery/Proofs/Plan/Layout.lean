/-
How the joins of a plan are laid out.

Whether a join can be planned depends on its field alone, and not on what is
planned so far (`checkJoin`); where it comes to stand depends on the chains that
are planned so far, and on nothing else. An assembly that is laid out
(`Laid`) stays so with one more join (`Laid.addJoin`), with a chain
(`Laid.addChain`), and the chains grow as `grow` says.
-/
import Joinery.Plan.Compile
import Joinery.Proofs.Plan.Chains
import Joinery.Proofs.Plan.Condition
import Joinery.Proofs.Store.Reachable

namespace Joinery

/-! ## Slots -/

theorem Slot.index_inj {a b : Slot} (h : a.index = b.index) : a = b := by
  cases a <;> cases b <;> simp_all [index]

/-- The relation that a chain leads to is at a slot: the root, or the join of the chain. -/
def At (chains : List Chain) (slot : Slot) (c : Chain) : Prop :=
  ([] :: chains)[slot.index]? = some c

namespace At

variable {chains : List Chain} {slot slot' : Slot} {c : Chain}

theorem root : At chains .root [] := rfl

theorem join {i : Nat} (h : chains[i]? = some c) : At chains (.join i) c := h

theorem mono {more : List Chain} (h : At chains slot c) (hp : chains <+: more) : At more slot c := by
  obtain ⟨new, rfl⟩ := hp
  obtain ⟨hlt, hc⟩ := List.getElem?_eq_some_iff.mp h
  rw [At, ← List.cons_append, List.getElem?_append_left hlt]
  exact h

theorem lt (h : At chains slot c) : slot.index < chains.length + 1 :=
  (List.getElem?_eq_some_iff.mp h).1

theorem mem (h : At chains slot c) (hne : c ≠ []) : c ∈ chains :=
  (List.mem_cons.mp (List.mem_of_getElem? h)).resolve_left hne

theorem unique (hr : Rooted chains) (h : At chains slot c) (h' : At chains slot' c) :
    slot = slot' := by
  have hnodup : ([] :: chains).Nodup :=
    List.nodup_cons.mpr ⟨fun hnil => hr.ne_nil [] hnil rfl, hr.nodup⟩
  exact Slot.index_inj ((List.getElem?_inj h.lt hnodup).mp (h.trans h'.symm))

/-- All beginnings of a chain that leads somewhere are planned. -/
theorem beginnings (hr : Rooted chains) (h : At chains slot c) :
    ∀ p, p ≠ [] → p <+: c → p ∈ chains := fun p hp hpc =>
  hr.closed c (h.mem fun hc => hp (List.prefix_nil.mp (hc ▸ hpc))) p hp hpc

end At

/-- The chain of some joins. -/
def ids (fs : List Field) : Chain := fs.map (·.id)

@[simp] theorem ids_append (fs gs : List Field) : ids (fs ++ gs) = ids fs ++ ids gs :=
  List.map_append

namespace JoinSet

/-- The chains of the planned joins. -/
def chains (js : JoinSet) : List Chain := js.entries.map (·.1)

theorem chains_length (js : JoinSet) : js.chains.length = js.entries.length := List.length_map _

theorem chains_getElem? {js : JoinSet} {i : Nat} {c : Chain} {j : PlannedJoin}
    (h : js.entries[i]? = some (c, j)) : js.chains[i]? = some c := by
  rw [chains, List.getElem?_map, h]
  rfl

theorem lookup?_eq_some {js : JoinSet} {c : Chain} {slot : Slot} (h : js.lookup? c = some slot) :
    ∃ i j, slot = .join i ∧ js.entries[i]? = some (c, j) := by
  obtain ⟨i, hi, rfl⟩ := Option.map_eq_some_iff.mp h
  obtain ⟨hlt, hc, _⟩ := List.findIdx?_eq_some_iff_getElem.mp hi
  refine ⟨i, js.entries[i].2, rfl, ?_⟩
  rw [List.getElem?_eq_getElem hlt, ← eq_of_beq hc]

theorem lookup?_eq_none {js : JoinSet} {c : Chain} (h : js.lookup? c = none) : c ∉ js.chains := by
  intro hc
  obtain ⟨e, he, rfl⟩ := List.mem_map.mp hc
  have := List.findIdx?_eq_none_iff.mp (Option.map_eq_none_iff.mp h) e he
  simp at this

theorem lookup?_concat {js : JoinSet} {key : Chain} (h : js.lookup? key = none) (c : Chain)
    (j : PlannedJoin) : (⟨js.entries ++ [(key, j)]⟩ : JoinSet).lookup? c =
      if key = c then some (.join js.entries.length) else js.lookup? c := by
  split
  · next hc =>
    subst hc
    have hnone := Option.map_eq_none_iff.mp h
    simp [lookup?, List.findIdx?_append, hnone]
  · next hc =>
    have hlast : [(key, j)].findIdx? (·.1 == c) = none := by simp [hc]
    simp [lookup?, List.findIdx?_append, hlast]

end JoinSet

namespace Store

/-- The fields are in the store, each under its number. -/
def Stands (s : Store) (fs : List Field) : Prop := ∀ f ∈ fs, s.field? f.id = some f

theorem Coherent.stands {s : Store} (hs : s.Coherent) {fs : List Field}
    (h : ∀ f ∈ fs, f ∈ s.fields) : s.Stands fs := fun f hf => hs.field?_id (h f hf)

theorem Stands.ext {s : Store} : ∀ {fs gs : List Field}, s.Stands fs → s.Stands gs →
    ids fs = ids gs → fs = gs
  | [], [], _, _, _ => rfl
  | [], _ :: _, _, _, h => nomatch h
  | _ :: _, [], _, _, h => nomatch h
  | f :: fs, g :: gs, hf, hg, h => by
    obtain ⟨hid, hrest⟩ := List.cons.inj h
    have hid : f.id = g.id := hid
    have hfg : some f = some g := by
      rw [← hf f List.mem_cons_self, ← hg g List.mem_cons_self, hid]
    rw [Option.some.inj hfg, Stands.ext (fun x hx => hf x (List.mem_cons_of_mem f hx))
      (fun x hx => hg x (List.mem_cons_of_mem g hx)) hrest]

/-! ## What decides whether a join can be planned -/

/-- A derived source must have a plan. -/
def checkRows (derive : Derive) (source : Source) : Except CompileError Unit :=
  match source.query with
  | none => .ok ()
  | some _ => do
    let _ ← derive source.name
    return ()

theorem checkRows_eq_ok_iff {derive : Derive} {source : Source} :
    checkRows derive source = .ok () ↔ source.query = none ∨ ∃ plan, derive source.name = .ok plan := by
  unfold checkRows
  cases source.query with
  | none => simp
  | some query => simp only [bind_eq_ok_iff, pure_eq_ok_iff, and_true, reduceCtorEq, false_or]

/-- The condition of a join must be bound, between whatever relations. -/
def checkCondition (s : Store) (f : Field) : Except CompileError Unit :=
  match f.kind with
  | .join join => (s.bind f .root (.join 0) join.on).map fun _ => ()
  | _ => .ok ()

/-- What is checked before a join is pushed: its target, the rows there, and its condition. -/
def checkJoin (s : Store) (derive : Derive) (f : Field) : Except CompileError Unit :=
  match s.target? f with
  | none => .error (.internal (.noTarget (s.qualifiedName f)))
  | some target => do
    checkRows derive target
    s.checkCondition f

/-- Every join of a chain can be planned. -/
def checkChain (s : Store) (derive : Derive) : List Field → Except CompileError Unit
  | [] => .ok ()
  | f :: rest => do
    s.checkJoin derive f
    s.checkChain derive rest

/-! ## Layout -/

/-- Where the rows of a source come from: a nested plan if it is derived, and otherwise none. -/
def Supplies (subPlans : List (Source × Plan)) (source : Source) (position : Option Nat) : Prop :=
  match source.query with
  | none => position = none
  | some _ => ∃ k plan, position = some k ∧ subPlans[k]? = some (source, plan)

theorem getElem?_of_prefix {α : Type} {xs ys : List α} (hp : xs <+: ys) {i : Nat} {x : α}
    (h : xs[i]? = some x) : ys[i]? = some x := by
  obtain ⟨new, rfl⟩ := hp
  rw [List.getElem?_append_left (List.getElem?_eq_some_iff.mp h).1]
  exact h

theorem Supplies.mono {subPlans more : List (Source × Plan)} {source : Source}
    {position : Option Nat} (h : Supplies subPlans source position) (hp : subPlans <+: more) :
    Supplies more source position := by
  unfold Supplies at h ⊢
  split
  · next hq => rw [hq] at h; exact h
  · next hq =>
    rw [hq] at h
    obtain ⟨k, plan, rfl, hk⟩ := h
    exact ⟨k, plan, rfl, getElem?_of_prefix hp hk⟩

/-- The last join of a chain as it is planned on a relation. -/
def lastJoin (s : Store) (init : List Field) (f : Field) (join : Join) (parent : Slot)
    (on : BoundCondition) (subPlan : Option Nat) : PlannedJoin :=
  { label := ".".intercalate ((init ++ [f]).map (·.name))
    parent, field := f.id, owner := s.sourceName f.owner, name := f.name
    target := join.target, cardinality := join.cardinality, on, subPlan }

/-- The join at a position is the last join of a chain, on the relation that the joins before it
lead to. -/
structure Planned (s : Store) (chains : List Chain) (subPlans : List (Source × Plan)) (i : Nat)
    (init : List Field) (f : Field) (join : Join) (target : Source) (j : PlannedJoin) : Prop where
  stands : s.Stands (init ++ [f])
  kind : f.kind = .join join
  named : s.sourceNamed? join.target = some target
  parent : At chains j.parent (ids init)
  before : j.parent.index ≤ i
  on : s.bind f j.parent (.join i) join.on = .ok j.on
  rows : Supplies subPlans target j.subPlan
  shape : j = s.lastJoin init f join j.parent j.on j.subPlan

theorem Planned.target {s : Store} {chains : List Chain} {subPlans : List (Source × Plan)} {i : Nat}
    {init : List Field} {f : Field} {join : Join} {target : Source} {j : PlannedJoin}
    (h : Planned s chains subPlans i init f join target j) : j.target = join.target := by
  rw [h.shape]
  rfl

theorem Planned.fields {s t : Store} (hf : s.fields = t.fields) {chains chains' : List Chain}
    {subPlans subPlans' : List (Source × Plan)} {i i' : Nat} {init init' : List Field} {f f' : Field}
    {join join' : Join} {target target' : Source} {j j' : PlannedJoin}
    (h : Planned s chains subPlans i init f join target j)
    (h' : Planned t chains' subPlans' i' init' f' join' target' j')
    (hc : ids (init ++ [f]) = ids (init' ++ [f'])) : init = init' ∧ f = f' ∧ join = join' := by
  have hstands : t.Stands (init ++ [f]) := fun g hg => by
    have hg := h.stands g hg
    rwa [field?, hf] at hg
  have hfields : init ++ [f] = init' ++ [f'] := hstands.ext h'.stands hc
  obtain ⟨rfl, hlast⟩ := List.append_inj' hfields rfl
  obtain rfl : f = f' := (List.cons.inj hlast).1
  exact ⟨rfl, rfl, FieldKind.join.inj (h.kind.symm.trans h'.kind)⟩

theorem Planned.mono {s : Store} {chains more : List Chain} {subPlans plans : List (Source × Plan)}
    {i : Nat} {init : List Field} {f : Field} {join : Join} {target : Source} {j : PlannedJoin}
    (h : Planned s chains subPlans i init f join target j) (hc : chains <+: more)
    (hp : subPlans <+: plans) : Planned s more plans i init f join target j :=
  { h with parent := h.parent.mono hc, rows := h.rows.mono hp }

/-- The nested plans are those of derived sources, one for each. -/
structure Nested (s : Store) (derive : Derive) (subPlans : List (Source × Plan)) : Prop where
  derived : ∀ e ∈ subPlans, e.1 ∈ s.sources ∧ e.1.query.isSome ∧ derive e.1.name = .ok e.2
  distinct : (subPlans.map (·.1.id)).Nodup

/-- An assembly as compiling leaves it: every join is the planned one of its chain, and every nested
plan is used by the base or by a join. -/
structure Laid (s : Store) (derive : Derive) (start : Source) (a : Assembly) : Prop where
  rooted : Rooted a.joins.chains
  planned : ∀ i c j, a.joins.entries[i]? = some (c, j) → ∃ init f join target,
    c = ids (init ++ [f]) ∧ Planned s a.joins.chains a.subPlans i init f join target j
  nested : Nested s derive a.subPlans
  used : ∀ e ∈ a.subPlans, e.1 = start ∨ ∃ j ∈ a.joins.joins, s.sourceNamed? j.target = some e.1

/-- What planning a chain leads to: the chains have grown, what was there still is, and the relation
of the chain is at the slot. -/
structure Reaches (s : Store) (derive : Derive) (start : Source) (a : Assembly)
    (chains : List Chain) (c : Chain) (slot : Slot) (b : Assembly) : Prop where
  laid : Laid s derive start b
  grown : b.joins.chains = chains
  found : At chains slot c
  kept : a.subPlans <+: b.subPlans

/-- What making the rows of a source available leads to: a nested plan more, unless it is there or
none is needed. -/
structure Opens (s : Store) (derive : Derive) (a : Assembly) (source : Source)
    (position : Option Nat) (b : Assembly) : Prop where
  joins : b.joins = a.joins
  nested : Nested s derive b.subPlans
  kept : a.subPlans <+: b.subPlans
  fresh : ∀ e ∈ b.subPlans, e ∈ a.subPlans ∨ e.1 = source
  rows : Supplies b.subPlans source position

theorem Nested.append {s : Store} {derive : Derive} {subPlans : List (Source × Plan)}
    (h : Nested s derive subPlans) {source : Source} {plan : Plan} (hmem : source ∈ s.sources)
    (hq : source.query.isSome) (hd : derive source.name = .ok plan)
    (hfresh : source.id ∉ subPlans.map (·.1.id)) : Nested s derive (subPlans ++ [(source, plan)]) := by
  refine ⟨fun e he => ?_, ?_⟩
  · rcases List.mem_append.mp he with he | he
    · exact h.derived e he
    · rw [List.mem_singleton.mp he]
      exact ⟨hmem, hq, hd⟩
  · rw [List.map_append]
    refine List.nodup_append.mpr ⟨h.distinct, List.nodup_singleton _, fun x hx y hy => ?_⟩
    rw [List.mem_singleton.mp hy]
    rintro rfl
    exact hfresh hx

theorem Nested.rowsOf {s : Store} {derive : Derive} {a : Assembly} (hs : s.Coherent)
    (h : Nested s derive a.subPlans) {source : Source} (hmem : source ∈ s.sources) :
    Agree (fun _ (out : Option Nat × Assembly) => Opens s derive a source out.1 out.2)
      (checkRows derive source) (Store.rowsOf derive a source) := by
  unfold checkRows Store.rowsOf
  cases hq : source.query with
  | none => exact .ok ⟨rfl, h, List.prefix_rfl, fun _ he => .inl he, by rw [Supplies, hq]⟩
  | some query =>
    unfold needSubPlan
    cases hk : a.subPlan? source with
    | some k =>
      obtain ⟨hlt, hid, _⟩ := List.findIdx?_eq_some_iff_getElem.mp hk
      obtain ⟨hsrc, _, hplan⟩ := h.derived _ (List.getElem_mem hlt)
      have hsame : a.subPlans[k].1 = source := hs.source_ext hsrc hmem (by simpa using hid)
      rw [hsame] at hplan
      rw [hplan]
      refine .ok ⟨rfl, h, List.prefix_rfl, fun _ he => .inl he, ?_⟩
      rw [Supplies, hq]
      exact ⟨k, a.subPlans[k].2, rfl, by rw [List.getElem?_eq_getElem hlt, ← hsame]⟩
    | none =>
      cases hd : derive source.name with
      | error e => exact .error e
      | ok plan =>
        have hfresh : source.id ∉ a.subPlans.map (·.1.id) := fun hm => by
          obtain ⟨e, he, hid⟩ := List.mem_map.mp hm
          have := List.findIdx?_eq_none_iff.mp hk e he
          simp [hid] at this
        refine .ok ⟨rfl, h.append hmem (hq ▸ rfl) hd hfresh, List.prefix_append _ _, fun e he => ?_, ?_⟩
        · exact (List.mem_append.mp he).imp_right fun he => by rw [List.mem_singleton.mp he]
        · rw [Supplies, hq]
          exact ⟨a.subPlans.length, plan, rfl, by simp⟩

/-- The rows of a source are available if there is a nested plan for it, or none is needed. -/
theorem Nested.checkRows {s : Store} {derive : Derive} {subPlans : List (Source × Plan)}
    (h : Nested s derive subPlans) {source : Source} {position : Option Nat}
    (hrows : Supplies subPlans source position) : Store.checkRows derive source = .ok () := by
  rw [checkRows_eq_ok_iff]
  cases hq : source.query with
  | none => exact .inl rfl
  | some query =>
    rw [Supplies, hq] at hrows
    obtain ⟨k, plan, -, hk⟩ := hrows
    exact .inr ⟨plan, (h.derived _ (List.mem_of_getElem? hk)).2.2⟩

namespace Laid

variable {s : Store} {derive : Derive} {start : Source} {a : Assembly}

/-- The join of a chain that is not planned comes in at the end. -/
theorem push (s : Store) (js : JoinSet) {init : List Field} {f : Field} {join : Join} (parent : Slot)
    (subPlan : Option Nat) (hk : f.kind = .join join) (hnew : js.lookup? (ids (init ++ [f])) = none) :
    Agree (fun _ (out : Slot × JoinSet) => out.1 = .join js.entries.length ∧
        ∃ on, s.bind f parent out.1 join.on = .ok on ∧
          out.2.entries =
            js.entries ++ [(ids (init ++ [f]), s.lastJoin init f join parent on subPlan)])
      (s.checkCondition f) (JoinSet.push s js (init ++ [f]) parent subPlan) := by
  have hlast : (init ++ [f]).getLast? = some f := by simp
  have hnew : js.lookup? ((init ++ [f]).map (·.id)) = none := hnew
  simp only [checkCondition, JoinSet.push, hnew, hlast, hk]
  rw [s.bind_sides f parent (.join js.entries.length)]
  cases hb : s.bind f .root (.join 0) join.on with
  | error e => exact .error e
  | ok on => exact .ok ⟨rfl, _, by rw [s.bind_sides, hb]; rfl, rfl⟩

/-- A join that is planned could be planned. -/
theorem checkJoin_of_planned (h : Laid s derive start a) {i : Nat} {init : List Field} {f : Field}
    {join : Join} {target : Source} {j : PlannedJoin}
    (hp : Planned s a.joins.chains a.subPlans i init f join target j) :
    s.checkJoin derive f = .ok () := by
  have htarget : s.target? f = some target := by
    simp [Store.target?, hp.kind, FieldKind.join?, hp.named]
  have hrows : checkRows derive target = .ok () := h.nested.checkRows hp.rows
  have hon : s.checkCondition f = .ok () := by
    have hb := hp.on
    rw [s.bind_sides, map_eq_ok_iff] at hb
    obtain ⟨on, hon, -⟩ := hb
    simp only [checkCondition, hp.kind, hon, Except.map]
  unfold checkJoin
  rw [htarget]
  simp only [hrows, hon]
  rfl

theorem planned_concat (h : Laid s derive start a) {init : List Field} {f : Field} {join : Join}
    {target : Source} {j : PlannedJoin} {joins : JoinSet} {subPlans : List (Source × Plan)}
    (hp : Planned s joins.chains subPlans a.joins.entries.length init f join target j)
    (hmore : a.joins.chains <+: joins.chains) (hkept : a.subPlans <+: subPlans)
    (hentries : joins.entries = a.joins.entries ++ [(ids (init ++ [f]), j)]) {i : Nat} {c : Chain}
    {j' : PlannedJoin} (hj : joins.entries[i]? = some (c, j')) : ∃ init f join target,
      c = ids (init ++ [f]) ∧ Planned s joins.chains subPlans i init f join target j' := by
  rw [hentries] at hj
  rcases lt_or_ge i a.joins.entries.length with hi | hi
  · rw [List.getElem?_append_left hi] at hj
    obtain ⟨init', f', join', target', hc, hp'⟩ := h.planned i c j' hj
    exact ⟨init', f', join', target', hc, hp'.mono hmore hkept⟩
  · rw [List.getElem?_append_right hi, List.getElem?_singleton] at hj
    split at hj
    · next hlast =>
      obtain rfl : i = a.joins.entries.length := by omega
      cases hj
      exact ⟨init, f, join, target, rfl, hp⟩
    · cases hj

/-- A planned join comes in at the end, after the nested plan of its target. -/
theorem concat (h : Laid s derive start a) {init : List Field} {f : Field} {join : Join}
    {target : Source} {j : PlannedJoin} {position : Option Nat} {b : Assembly} {joins : JoinSet}
    (hnew : ids (init ++ [f]) ∉ a.joins.chains)
    (hp : Planned s (a.joins.chains ++ [ids (init ++ [f])]) b.subPlans a.joins.entries.length init f
      join target j)
    (hb : Opens s derive a target position b)
    (hentries : joins.entries = a.joins.entries ++ [(ids (init ++ [f]), j)]) :
    Reaches s derive start a (addOne a.joins.chains (ids (init ++ [f]))) (ids (init ++ [f]))
      (.join a.joins.entries.length) { b with joins } := by
  have hchains : joins.chains = a.joins.chains ++ [ids (init ++ [f])] := by
    rw [JoinSet.chains, hentries, List.map_append]
    rfl
  have hgrown : addOne a.joins.chains (ids (init ++ [f])) = joins.chains := by
    rw [addOne, if_neg hnew, hchains]
  have hlength := a.joins.chains_length
  have hparent : At a.joins.chains j.parent (ids init) := by
    have hat := hp.parent
    have hlt := hp.before
    rw [At, ← List.cons_append, List.getElem?_append_left (by simp only [List.length_cons]; omega)]
      at hat
    exact hat
  refine ⟨⟨?_, fun i c j' hj => ?_, hb.nested, fun e he => ?_⟩, hgrown.symm, ?_, hb.kept⟩
  · have hr := h.rooted.addOne (f := f.id) (hparent.beginnings h.rooted)
    rw [ids_append] at hgrown
    exact hgrown ▸ hr
  · have hmore : a.joins.chains <+: joins.chains := ⟨_, hchains.symm⟩
    exact h.planned_concat (hchains ▸ hp) hmore hb.kept hentries hj
  · have hmem : joins.joins = a.joins.joins ++ [j] := by
      rw [JoinSet.joins, hentries, List.map_append]
      rfl
    simp only [hmem]
    rcases hb.fresh e he with he | rfl
    · rcases h.used e he with hstart | ⟨j', hj', hn⟩
      · exact .inl hstart
      · exact .inr ⟨j', List.mem_append_left _ hj', hn⟩
    · exact .inr ⟨j, by simp, by rw [hp.target]; exact hp.named⟩
  · refine At.join ?_
    rw [hgrown, hchains, List.getElem?_append_right (by omega), hlength, Nat.sub_self]
    rfl

/-- One more join: whether it can be planned depends on its field alone. -/
theorem addJoin (hs : s.Coherent) (h : Laid s derive start a) {init : List Field} {f : Field}
    {parent : Slot} (hst : s.Stands (init ++ [f])) (hat : At a.joins.chains parent (ids init)) :
    Agree (fun _ (out : Slot × Assembly) =>
        Reaches s derive start a (addOne a.joins.chains (ids (init ++ [f]))) (ids (init ++ [f])) out.1 out.2)
      (s.checkJoin derive f) (s.addJoin derive a (init ++ [f]) f parent) := by
  unfold Store.addJoin
  rw [← ids]
  cases hl : a.joins.lookup? (ids (init ++ [f])) with
  | some slot =>
    obtain ⟨i, j, rfl, hj⟩ := JoinSet.lookup?_eq_some hl
    obtain ⟨init', f', join, target, hc, hp⟩ := h.planned i _ j hj
    have hsame := Stands.ext hst hp.stands hc
    obtain ⟨rfl, hff⟩ := List.append_inj' hsame rfl
    cases hff
    have hi := JoinSet.chains_getElem? hj
    rw [h.checkJoin_of_planned hp]
    refine .ok ⟨h, ?_, ?_, List.prefix_rfl⟩
    · rw [addOne, if_pos (List.mem_of_getElem? hi)]
    · exact (At.join hi).mono (by rw [addOne, if_pos (List.mem_of_getElem? hi)])
  | none =>
    -- Nothing is planned for the chain: the checks are those that planning makes, in their order.
    unfold checkJoin
    cases ht : s.target? f with
    | none => exact .error _
    | some target =>
      obtain ⟨join, hk, hn⟩ := target?_eq_some ht
      refine (h.nested.rowsOf hs (sourceNamed?_mem hn)).bind ?_
      rintro - ⟨subPlan, b⟩ hb
      have hjoins : b.joins = a.joins := hb.joins
      simp only [hjoins]
      refine (push s a.joins parent subPlan hk hl).step ?_
      rintro - ⟨slot, joins⟩ ⟨rfl, on, hon, hentries⟩
      have hbefore : parent.index ≤ a.joins.entries.length := by
        have hlt := hat.lt
        rw [JoinSet.chains_length] at hlt
        omega
      have hp : Planned s (a.joins.chains ++ [ids (init ++ [f])]) b.subPlans
          a.joins.entries.length init f join target (s.lastJoin init f join parent on subPlan) :=
        ⟨hst, hk, hn, hat.mono (List.prefix_append _ _), hbefore, hon, hb.rows, rfl⟩
      exact ⟨_, rfl, h.concat (JoinSet.lookup?_eq_none hl) hp hb hentries⟩

theorem addRest (hs : s.Coherent) : ∀ (rest walked : List Field) {a : Assembly} {slot : Slot},
    Laid s derive start a → s.Stands (walked ++ rest) → At a.joins.chains slot (ids walked) →
    Agree (fun _ (out : Slot × Assembly) =>
        Reaches s derive start a (growRest a.joins.chains (ids walked) (ids rest)) (ids (walked ++ rest))
          out.1 out.2)
      (s.checkChain derive rest) (s.addRest derive a walked slot rest)
  | [], walked, a, slot, h, _, hat =>
    .ok ⟨h, rfl, by rw [List.append_nil]; exact hat, List.prefix_rfl⟩
  | f :: rest, walked, a, slot, h, hst, hat => by
    have hst : s.Stands ((walked ++ [f]) ++ rest) := by
      rw [List.append_assoc]
      exact hst
    have hstf : s.Stands (walked ++ [f]) := fun g hg => hst g (List.mem_append_left _ hg)
    refine (h.addJoin hs hstf hat).bind ?_
    rintro - ⟨next, b⟩ hb
    refine (addRest hs rest (walked ++ [f]) hb.laid hst (hb.grown ▸ hb.found)).mono ?_
    rintro - ⟨slot', c⟩ hc
    rw [hb.grown, List.append_assoc, ids_append] at hc
    exact ⟨hc.laid, hc.grown, hc.found, hb.kept.trans hc.kept⟩

/-- **A chain is planned if each of its joins can be**, whatever is planned so far. -/
theorem addChain (hs : s.Coherent) (h : Laid s derive start a) {chain : List Field}
    (hst : s.Stands chain) :
    Agree (fun _ (out : Slot × Assembly) =>
        Reaches s derive start a (grow a.joins.chains (ids chain)) (ids chain) out.1 out.2)
      (s.checkChain derive chain) (s.addChain derive a chain) :=
  addRest hs chain [] h hst At.root

end Laid

end Store

end Joinery
