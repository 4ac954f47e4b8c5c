/-
The chains of the joins of a plan, in the order of planning.

Planning a chain adds those of its beginnings that are not there yet, the
shorter before the longer (`grow`). So the chains stay distinct and with each
chain its beginnings are there (`Rooted`), and of what several chains add, what
one of them needs stands in the order in which it would add it alone
(`filter_growAll`).
-/
import Joinery.Plan.JoinSet
import Mathlib.Data.List.Infix
import Mathlib.Data.List.Nodup

namespace Joinery

/-! ## Growth -/

/-- One more chain at the end, unless it is there. -/
def addOne (chains : List Chain) (c : Chain) : List Chain :=
  if c ∈ chains then chains else chains ++ [c]

/-- With the beginnings of `walked ++ rest` that are longer than `walked`. -/
def growRest (chains : List Chain) (walked : Chain) : Chain → List Chain
  | [] => chains
  | f :: rest => growRest (addOne chains (walked ++ [f])) (walked ++ [f]) rest

/-- With a chain and its beginnings. The empty chain leads to the root and needs none. -/
def grow (chains : List Chain) (c : Chain) : List Chain := growRest chains [] c

/-- With some chains, one after another. -/
def growAll (chains : List Chain) (cs : List Chain) : List Chain := cs.foldl grow chains

theorem mem_addOne {chains : List Chain} {c x : Chain} :
    x ∈ addOne chains c ↔ x ∈ chains ∨ x = c := by
  unfold addOne
  split
  · next h =>
    constructor
    · exact .inl
    · rintro (hx | rfl)
      · exact hx
      · exact h
  · simp

/-- What is new stands at the end, the shorter before the longer. -/
theorem growRest_eq : ∀ (rest : Chain) (chains : List Chain) (walked : Chain),
    ∃ new, growRest chains walked rest = chains ++ new ∧ new.Pairwise (· <+: ·) ∧
      ∀ x ∈ new, x ∉ chains ∧ ∃ r, r ≠ [] ∧ r <+: rest ∧ x = walked ++ r
  | [], chains, _ => ⟨[], by simp [growRest], .nil, fun _ h => nomatch h⟩
  | f :: rest, chains, walked => by
    obtain ⟨new, hnew, hsorted, hmem⟩ := growRest_eq rest (addOne chains (walked ++ [f])) (walked ++ [f])
    have longer : ∀ x ∈ new, x ∉ chains ∧ ∃ r, r ≠ [] ∧ r <+: f :: rest ∧ x = walked ++ r := by
      intro x hx
      obtain ⟨hnot, r, _, hr, rfl⟩ := hmem x hx
      refine ⟨fun h => hnot (mem_addOne.mpr (.inl h)), f :: r, by simp, ?_, by simp⟩
      exact List.cons_prefix_cons.mpr ⟨rfl, hr⟩
    rw [growRest, hnew]
    unfold addOne
    split
    · exact ⟨new, rfl, hsorted, longer⟩
    · next hf =>
      refine ⟨(walked ++ [f]) :: new, by simp, ?_, ?_⟩
      · refine List.pairwise_cons.mpr ⟨fun x hx => ?_, hsorted⟩
        obtain ⟨_, r, _, _, rfl⟩ := hmem x hx
        exact List.prefix_append _ _
      · intro x hx
        rcases List.mem_cons.mp hx with rfl | hx
        · exact ⟨hf, [f], by simp, List.cons_prefix_cons.mpr ⟨rfl, List.nil_prefix⟩, rfl⟩
        · exact longer x hx

theorem mem_growRest : ∀ {rest : Chain} {chains : List Chain} {walked x : Chain},
    x ∈ growRest chains walked rest ↔
      x ∈ chains ∨ ∃ r, r ≠ [] ∧ r <+: rest ∧ x = walked ++ r
  | [], chains, walked, x => by
    simp only [growRest, List.prefix_nil]
    constructor
    · exact .inl
    · rintro (h | ⟨r, hne, rfl, _⟩)
      · exact h
      · exact absurd rfl hne
  | f :: rest, chains, walked, x => by
    rw [growRest, mem_growRest, mem_addOne]
    constructor
    · rintro ((h | rfl) | ⟨r, _, hr, rfl⟩)
      · exact .inl h
      · exact .inr ⟨[f], by simp, List.cons_prefix_cons.mpr ⟨rfl, List.nil_prefix⟩, rfl⟩
      · exact .inr ⟨f :: r, by simp, List.cons_prefix_cons.mpr ⟨rfl, hr⟩, by simp⟩
    · rintro (h | ⟨r, hne, hr, rfl⟩)
      · exact .inl (.inl h)
      · obtain ⟨g, r, rfl⟩ := List.exists_cons_of_ne_nil hne
        obtain ⟨rfl, hrest⟩ := List.cons_prefix_cons.mp hr
        by_cases hnil : r = []
        · exact .inl (.inr (by rw [hnil]))
        · exact .inr ⟨r, hnil, hrest, by simp⟩

theorem mem_grow {chains : List Chain} {c x : Chain} :
    x ∈ grow chains c ↔ x ∈ chains ∨ (x ≠ [] ∧ x <+: c) := by
  rw [grow, mem_growRest]
  constructor
  · rintro (h | ⟨r, hne, hr, rfl⟩)
    · exact .inl h
    · exact .inr ⟨hne, hr⟩
  · rintro (h | ⟨hne, hx⟩)
    · exact .inl h
    · exact .inr ⟨x, hne, hx, rfl⟩

theorem prefix_grow (chains : List Chain) (c : Chain) : chains <+: grow chains c := by
  obtain ⟨new, hnew, _⟩ := growRest_eq c chains []
  exact ⟨new, hnew.symm⟩

theorem prefix_growAll (cs : List Chain) (chains : List Chain) : chains <+: growAll chains cs := by
  induction cs generalizing chains with
  | nil => exact List.prefix_rfl
  | cons c cs ih => exact (prefix_grow chains c).trans (ih (grow chains c))

theorem growAll_append (chains : List Chain) (cs ds : List Chain) :
    growAll chains (cs ++ ds) = growAll (growAll chains cs) ds := List.foldl_append

theorem mem_growAll {cs : List Chain} {chains : List Chain} {x : Chain} :
    x ∈ growAll chains cs ↔ x ∈ chains ∨ (x ≠ [] ∧ ∃ c ∈ cs, x <+: c) := by
  induction cs generalizing chains with
  | nil => simp [growAll]
  | cons c cs ih =>
    rw [growAll, List.foldl_cons, ← growAll, ih, mem_grow]
    simp only [List.mem_cons, exists_eq_or_imp]
    tauto

/-- A chain that is there is not planned again. -/
theorem growRest_of_mem : ∀ {rest : Chain} {chains : List Chain} {walked : Chain},
    (∀ r, r ≠ [] → r <+: rest → walked ++ r ∈ chains) → growRest chains walked rest = chains
  | [], _, _, _ => rfl
  | f :: rest, chains, walked, h => by
    have hf : walked ++ [f] ∈ chains :=
      h [f] (by simp) (List.cons_prefix_cons.mpr ⟨rfl, List.nil_prefix⟩)
    rw [growRest, addOne, if_pos hf]
    refine growRest_of_mem fun r _ hr => ?_
    have := h (f :: r) (by simp) (List.cons_prefix_cons.mpr ⟨rfl, hr⟩)
    simpa using this

theorem growRest_append (chains : List Chain) (more : Chain) : ∀ (rest walked : Chain),
    growRest chains walked (rest ++ more) =
      growRest (growRest chains walked rest) (walked ++ rest) more := by
  intro rest
  induction rest generalizing chains with
  | nil => intro walked; simp [growRest]
  | cons f rest ih =>
    intro walked
    rw [List.cons_append, growRest, ih, growRest, List.append_assoc, List.singleton_append]

/-- A chain may be planned together with a beginning of it, or after it. -/
theorem grow_grow (chains : List Chain) (c more : Chain) :
    grow (grow chains c) (c ++ more) = grow chains (c ++ more) := by
  have again : growRest (growRest chains [] c) [] c = growRest chains [] c :=
    growRest_of_mem fun r hne hr => mem_growRest.mpr (.inr ⟨r, hne, hr, rfl⟩)
  rw [grow, grow, grow, growRest_append, again, ← growRest_append]

/-! ## Distinct chains with their beginnings -/

/-- The chains are distinct, and each of them has a last join and all its beginnings before it. -/
structure Rooted (chains : List Chain) : Prop where
  nodup : chains.Nodup
  ne_nil : ∀ c ∈ chains, c ≠ []
  closed : ∀ c ∈ chains, ∀ p, p ≠ [] → p <+: c → p ∈ chains

namespace Rooted

theorem nil : Rooted [] := ⟨List.nodup_nil, by simp, by simp⟩

theorem addOne {chains : List Chain} (h : Rooted chains) {init : Chain} {f : FieldId}
    (hinit : ∀ p, p ≠ [] → p <+: init → p ∈ chains) : Rooted (addOne chains (init ++ [f])) := by
  unfold Joinery.addOne
  split
  · exact h
  · next hnot =>
    refine ⟨?_, fun c hc => ?_, fun c hc p hp hpc => ?_⟩
    · refine List.nodup_append.mpr ⟨h.nodup, List.nodup_singleton _, fun x hx y hy => ?_⟩
      rw [List.mem_singleton.mp hy]
      rintro rfl
      exact hnot hx
    · rcases List.mem_append.mp hc with hc | hc
      · exact h.ne_nil c hc
      · rw [List.mem_singleton.mp hc]; simp
    · rcases List.mem_append.mp hc with hc | hc
      · exact List.mem_append_left _ (h.closed c hc p hp hpc)
      · rw [List.mem_singleton.mp hc] at hpc
        rcases List.prefix_concat_iff.mp hpc with rfl | hpc
        · simp
        · exact List.mem_append_left _ (hinit p hp hpc)

/-- What one more chain keeps, whose beginnings are there, is kept by all beginnings of a chain. -/
theorem growRest_induction {P : List Chain → Prop}
    (step : ∀ chains init f, Rooted chains → (∀ p, p ≠ [] → p <+: init → p ∈ chains) →
      P chains → P (Joinery.addOne chains (init ++ [f]))) :
    ∀ (rest : Chain) {chains : List Chain} {walked : Chain}, Rooted chains →
      (∀ p, p ≠ [] → p <+: walked → p ∈ chains) → P chains →
      Rooted (growRest chains walked rest) ∧ P (growRest chains walked rest)
  | [], _, _, h, _, hP => ⟨h, hP⟩
  | f :: rest, chains, walked, h, hw, hP => by
    refine growRest_induction step rest (h.addOne hw) (fun p hp hpw => mem_addOne.mpr ?_)
      (step chains walked f h hw hP)
    rcases List.prefix_concat_iff.mp hpw with rfl | hpw
    · exact .inr rfl
    · exact .inl (hw p hp hpw)

theorem grow_induction {P : List Chain → Prop}
    (step : ∀ chains init f, Rooted chains → (∀ p, p ≠ [] → p <+: init → p ∈ chains) →
      P chains → P (Joinery.addOne chains (init ++ [f])))
    (c : Chain) {chains : List Chain} (h : Rooted chains) (hP : P chains) :
    Rooted (grow chains c) ∧ P (grow chains c) :=
  growRest_induction step c h (fun _ hp hnil => absurd (List.prefix_nil.mp hnil) hp) hP

theorem growAll_induction {P : List Chain → Prop}
    (step : ∀ chains init f, Rooted chains → (∀ p, p ≠ [] → p <+: init → p ∈ chains) →
      P chains → P (Joinery.addOne chains (init ++ [f]))) :
    ∀ (cs : List Chain) {chains : List Chain}, Rooted chains → P chains →
      Rooted (growAll chains cs) ∧ P (growAll chains cs)
  | [], _, h, hP => ⟨h, hP⟩
  | c :: cs, _, h, hP => by
    obtain ⟨hc, hPc⟩ := grow_induction step c h hP
    exact growAll_induction step cs hc hPc

theorem grow {chains : List Chain} (h : Rooted chains) (c : Chain) : Rooted (grow chains c) :=
  (grow_induction (fun _ _ _ _ _ (_ : True) => trivial) c h trivial).1

theorem growAll {chains : List Chain} (h : Rooted chains) (cs : List Chain) :
    Rooted (growAll chains cs) :=
  (growAll_induction (fun _ _ _ _ _ (_ : True) => trivial) cs h trivial).1

end Rooted

/-- Of two lists the common chains stand in one order. -/
def SameOrder (target chains : List Chain) : Prop :=
  chains.filter (· ∈ target) = target.filter (· ∈ chains)

/-- A chain that comes in stays in order, if what comes after it in the other list continues it. -/
theorem SameOrder.addOne {before after chains : List Chain} {x : Chain}
    (h : SameOrder (before ++ after) chains) (hbefore : before ⊆ chains)
    (hnodup : (before ++ after).Nodup) (hafter : after.Pairwise (· <+: ·))
    (hclosed : ∀ y ∈ chains, x <+: y → x ∈ chains) :
    SameOrder (before ++ after) (addOne chains x) := by
  unfold Joinery.addOne
  split
  · exact h
  next hx =>
  unfold SameOrder at h ⊢
  rw [List.filter_append, h]
  by_cases ht : x ∈ before ++ after
  · have hxa : x ∈ after := (List.mem_append.mp ht).resolve_left fun hb => hx (hbefore hb)
    obtain ⟨l, r, rfl⟩ := List.append_of_mem hxa
    rw [← List.append_assoc] at hnodup ht ⊢
    have hl : x ∉ before ++ l := fun hm =>
      (List.nodup_append.mp hnodup).2.2 x hm x List.mem_cons_self rfl
    have hr : ∀ y ∈ r, y ∉ chains ∧ y ≠ x := fun y hy => by
      have hxy := (List.pairwise_cons.mp (List.pairwise_append.mp hafter).2.1).1 y hy
      refine ⟨fun hc => hx (hclosed y hc hxy), ?_⟩
      rintro rfl
      exact (List.nodup_cons.mp (List.nodup_append.mp hnodup).2.1).1 hy
    have hleft : (before ++ l).filter (· ∈ chains ++ [x]) = (before ++ l).filter (· ∈ chains) :=
      List.filter_congr fun y hy => by
        have : y ≠ x := fun he => hl (he ▸ hy)
        simp [this]
    have hright : (x :: r).filter (· ∈ chains ++ [x]) = [x] := by
      rw [List.filter_cons_of_pos (by simp), List.filter_eq_nil_iff.mpr fun y hy => by
        simpa using hr y hy]
    have hright' : (x :: r).filter (· ∈ chains) = [] := by
      rw [List.filter_cons_of_neg (by simpa using hx), List.filter_eq_nil_iff.mpr fun y hy => by
        simpa using (hr y hy).1]
    have hself : [x].filter (· ∈ before ++ l ++ x :: r) = [x] := by simp
    rw [List.filter_append (before ++ l), List.filter_append (before ++ l), hleft, hright, hright',
      hself, List.append_nil]
  · rw [List.filter_cons_of_neg (by simpa using ht), List.filter_nil, List.append_nil]
    refine List.filter_congr fun y hy => ?_
    have : y ≠ x := fun he => ht (he ▸ hy)
    simp [this]

/-- Of what some chains add, what one of them needs stands in the order in which it is added for
that one alone. -/
theorem filter_growAll {base : List Chain} (h : Rooted base) {cs : List Chain} {c : Chain}
    (hc : c ∈ cs) : (growAll base cs).filter (· ∈ grow base c) = grow base c := by
  obtain ⟨new, hnew, hsorted, hmem⟩ := growRest_eq c base []
  rw [← grow] at hnew
  have hnodup : (base ++ new).Nodup := hnew ▸ (h.grow c).nodup
  have start : SameOrder (grow base c) base := by
    rw [hnew, SameOrder, List.filter_append, List.filter_eq_self.mpr fun x hx => by simp [hx],
      List.filter_eq_self.mpr (by simp),
      List.filter_eq_nil_iff.mpr fun x hx => by simpa using (hmem x hx).1, List.append_nil]
  have step (chains : List Chain) (init : Chain) (f : FieldId) (hr : Rooted chains)
      (_ : ∀ p, p ≠ [] → p <+: init → p ∈ chains)
      (hP : base ⊆ chains ∧ SameOrder (grow base c) chains) :
      base ⊆ addOne chains (init ++ [f]) ∧ SameOrder (grow base c) (addOne chains (init ++ [f])) := by
    refine ⟨fun x hx => mem_addOne.mpr (.inl (hP.1 hx)), ?_⟩
    rw [hnew] at hP ⊢
    exact hP.2.addOne hP.1 hnodup hsorted fun y hy hxy => hr.closed y hy _ (by simp) hxy
  rw [(Rooted.growAll_induction step cs h ⟨fun _ h => h, start⟩).2.2]
  refine List.filter_eq_self.mpr fun x hx => ?_
  rw [decide_eq_true_eq]
  rcases mem_grow.mp hx with hx | ⟨hne, hx⟩
  · exact mem_growAll.mpr (.inl hx)
  · exact mem_growAll.mpr (.inr ⟨hne, c, hc, hx⟩)

end Joinery
