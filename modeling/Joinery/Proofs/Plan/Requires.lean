/-
What derived sources require of each other.

A stage reads its start and the targets of the joins that its paths need
(`Reads`), whether it compiles or not. All derived sources among them must have a
plan: a stage that compiles has found each of them one (`compileStage_reads`),
and a cycle that a stage reports was reported by one of them
(`compileStage_cycle`). One derived source requires another if its query reads it
(`Requires`).
-/
import Joinery.Proofs.Plan.Failure

namespace Joinery

namespace CompileError

/-- The error is due to the request or the query itself, and to no source that it is derived from. -/
def IsOwn : CompileError → Prop
  | .cyclicDerivation _ | .derived .. => False
  | _ => True

theorem IsOwn.root_ne {e : CompileError} (h : e.IsOwn) (chain : List String) :
    e.root ≠ .cyclicDerivation chain := by
  cases e <;> first | exact h.elim | nofun

theorem IsLocal.isOwn {stray : Path → Option Path → Prop} {e : CompileError} (h : e.IsLocal stray) :
    e.IsOwn := by
  cases e <;> first | exact h.elim | trivial

end CompileError

namespace Store

variable {s : Store} {derive : Derive} {start : Source}

/-! ## What a stage reads -/

/-- A stage on a source needs a join, for one of its paths. -/
def NeedsJoin (s : Store) (start : Source) (stage : Stage) (f : Field) : Prop :=
  (∃ path ∈ stage.groupBy, ∃ chain, s.keyNeeds start path = .ok chain ∧ f ∈ chain) ∨
    ∃ request ∈ stage.aggregates, ∃ chain, s.aggregateNeeds start request = .ok chain ∧ f ∈ chain

/-- A stage reads its start, and the target of every join that it needs. -/
def Reads (s : Store) (start : Source) (stage : Stage) (source : Source) : Prop :=
  source = start ∨ ∃ f, s.NeedsJoin start stage f ∧ s.target? f = some source

theorem Reads.named {stage : Stage} {source : Source} (h : s.Reads start stage source)
    (hstart : s.sourceNamed? start.name = some start) : s.sourceNamed? source.name = some source := by
  rcases h with rfl | ⟨f, -, ht⟩
  · exact hstart
  · obtain ⟨join, -, hn⟩ := target?_eq_some ht
    exact sourceNamed?_self hn

/-! ## Stages that compile -/

theorem checkChain_mem : ∀ {chain : List Field} {f : Field}, s.checkChain derive chain = .ok () →
    f ∈ chain → s.checkJoin derive f = .ok ()
  | g :: rest, f, h, hf => by
    simp only [checkChain, bind_eq_ok_iff] at h
    obtain ⟨_, hg, hrest⟩ := h
    rcases List.mem_cons.mp hf with rfl | hf
    · exact hg
    · exact checkChain_mem hrest hf

theorem checkRows_of_checkChain {chain : List Field} {f : Field} {source : Source}
    (h : s.checkChain derive chain = .ok ()) (hf : f ∈ chain) (ht : s.target? f = some source) :
    checkRows derive source = .ok () := by
  have hj := checkChain_mem h hf
  unfold checkJoin at hj
  rw [ht] at hj
  obtain ⟨_, hr, -⟩ := bind_eq_ok_iff.mp hj
  exact hr

theorem keyItem_checkChain {path : Path} {k : KeyItem} (h : s.keyItem derive start path = .ok k) :
    s.checkChain derive k.chain = .ok () := by
  simp only [keyItem, bind_eq_ok_iff, pure_eq_ok_iff] at h
  obtain ⟨_, _, _, _, e, _, _, hc, rfl⟩ := h
  exact hc

theorem aggregateItem_checkChain {request : AggregateRequest} {i : AggregateItem}
    (h : s.aggregateItem derive start request = .ok i) :
    s.checkChain derive i.ending.chain = .ok () := by
  simp only [aggregateItem, bind_eq_ok_iff, pure_eq_ok_iff] at h
  obtain ⟨e, _, _, hc, rfl⟩ := h
  exact hc

theorem stageItems_reads {stage : Stage} {items : StageItems} {source : Source}
    (h : s.stageItems derive start stage = .ok items) (hr : s.Reads start stage source) :
    checkRows derive source = .ok () := by
  obtain ⟨hrows, hkeys, haggregates, -⟩ := stageItems_eq_ok_iff.mp h
  rcases hr with rfl | ⟨f, ⟨path, hpath, chain, hchain, hf⟩ | ⟨request, hrequest, chain, hchain, hf⟩, ht⟩
  · exact hrows
  · obtain ⟨k, -, hk⟩ := forall₂_mem hkeys hpath
    cases hchain.symm.trans (keyItem_needs hk)
    exact checkRows_of_checkChain (keyItem_checkChain hk) hf ht
  · obtain ⟨i, -, hi⟩ := forall₂_mem haggregates hrequest
    cases hchain.symm.trans (aggregateItem_needs hi)
    exact checkRows_of_checkChain (aggregateItem_checkChain hi) hf ht

/-- A stage that compiles has found a plan for every derived source that it reads. -/
theorem compileStage_reads (hs : s.Coherent) (hstart : start ∈ s.sources) {stage : Stage} {plan : Plan}
    (h : s.compileStage derive start stage = .ok plan) {source : Source}
    (hr : s.Reads start stage source) (hq : source.query.isSome) :
    ∃ p, derive source.name = .ok p := by
  obtain ⟨items, hitems, -⟩ := (compileStage_agree hs hstart stage).right h
  refine (checkRows_eq_ok_iff.mp (stageItems_reads hitems hr)).resolve_left fun hn => ?_
  rw [hn] at hq
  cases hq

/-! ## Stages that run into a cycle -/

/-- If the error is a cycle, one of the derived sources that satisfy `P` has run into it. -/
def CycleFrom (derive : Derive) (P : Source → Prop) (e : CompileError) : Prop :=
  ∀ chain, e.root = .cyclicDerivation chain → ∃ source e', P source ∧ source.query.isSome ∧
    derive source.name = .error e' ∧ e'.root = .cyclicDerivation chain

theorem CycleFrom.of_own {P : Source → Prop} {e : CompileError} (h : e.IsOwn) : CycleFrom derive P e :=
  fun chain hc => absurd hc (h.root_ne chain)

theorem Failure.cycleFrom {P : Source → Prop} {stray : Path → Option Path → Prop} {e : CompileError}
    (h : Failure derive P stray e) : CycleFrom derive P e := by
  rcases h with h | ⟨source, hP, hq, he⟩
  · exact .of_own h.isOwn
  · exact fun chain hc => ⟨source, e, hP, hq, he, hc⟩

/-- **A cycle that stops a stage** is one that a derived source which it reads has run into. -/
theorem compileStage_cycle (hs : s.Coherent) (hstart : start ∈ s.sources) (stage : Stage) :
    FailsOnly (CycleFrom derive (s.Reads start stage)) (s.compileStage derive start stage) := by
  have hrows : FailsOnly (Failure derive (s.Reads start stage) fun _ _ => False) (checkRows derive start) :=
    checkRows_fails (.inl rfl)
  refine compileStage_fails hs hstart stage (hrows.mono fun _ => Failure.cycleFrom) (fun path hpath => ?_)
    (fun request hrequest => ?_) fun _ => .of_own trivial
  · simp only [CycleFrom, CompileError.root_requestedBy]
    refine (keyItem_fails fun chain hchain f hf source ht => ?_).mono fun _ => Failure.cycleFrom
    exact .inr ⟨f, .inl ⟨path, hpath, chain, hchain, hf⟩, ht⟩
  · simp only [CycleFrom, CompileError.root_blame]
    refine (aggregateItem_fails fun chain hchain f hf source ht => ?_).mono fun _ => Failure.cycleFrom
    exact .inr ⟨f, .inr ⟨request, hrequest, chain, hchain, hf⟩, ht⟩

/-! ## Queries -/

/-- What a query reads: the source that it starts from, and the targets of the joins that its paths
need. -/
def QueryReads (s : Store) (query : Query) (source : Source) : Prop :=
  ∃ start, s.sourceNamed? query.source = some start ∧ (source = start ∨
    ∃ stage ∈ query.stages, ∃ f, s.NeedsJoin start stage f ∧ s.target? f = some source)

/-- The name is that of a derived source. -/
def IsDerived (s : Store) (name : String) : Prop :=
  ∃ source, s.sourceNamed? name = some source ∧ source.query.isSome

/-- A derived source requires another, which its query reads. -/
def Requires (s : Store) (name other : String) : Prop :=
  ∃ source query target, s.sourceNamed? name = some source ∧ source.query = some query ∧
    s.QueryReads query target ∧ target.name = other ∧ target.query.isSome

theorem QueryReads.named {query : Query} {source : Source} (h : s.QueryReads query source) :
    s.sourceNamed? source.name = some source := by
  obtain ⟨start, hstart, rfl | ⟨_, _, f, _, ht⟩⟩ := h
  · exact sourceNamed?_self hstart
  · obtain ⟨join, -, hn⟩ := target?_eq_some ht
    exact sourceNamed?_self hn

theorem Requires.derived {name other : String} (h : s.Requires name other) :
    s.IsDerived name ∧ s.IsDerived other := by
  obtain ⟨source, query, target, hn, hq, hr, rfl, ht⟩ := h
  exact ⟨⟨source, hn, by rw [hq]; rfl⟩, target, hr.named, ht⟩

/-- A query that compiles has one stage, and has found a plan for every derived source that it
reads. -/
theorem compileQueryOf_reads (hs : s.Coherent) {owner : String} {query : Query} {plan : Plan}
    (h : s.compileQueryOf derive owner query = .ok plan) {source : Source}
    (hr : s.QueryReads query source) (hq : source.query.isSome) : ∃ p, derive source.name = .ok p := by
  obtain ⟨start, hstart, hreads⟩ := hr
  obtain ⟨stage, start', hstages, hstart', hplan⟩ := compileQueryOf_eq_ok h
  cases hstart.symm.trans hstart'
  refine compileStage_reads hs (sourceNamed?_mem hstart) hplan ?_ hq
  rcases hreads with rfl | ⟨stage', hmem, hf⟩
  · exact .inl rfl
  · rw [hstages, List.mem_singleton] at hmem
    exact .inr (hmem ▸ hf)

theorem compileQueryOf_cycle (hs : s.Coherent) (owner : String) (query : Query) :
    FailsOnly (CycleFrom derive (s.QueryReads query)) (s.compileQueryOf derive owner query) := by
  unfold compileQueryOf
  split
  · next stage hstages =>
    split
    · exact .error (.of_own trivial)
    · next start hstart =>
      refine (compileStage_cycle hs (sourceNamed?_mem hstart) stage).mono fun e h chain hc => ?_
      obtain ⟨source, e', hr, hrest⟩ := h chain hc
      refine ⟨source, e', ⟨start, hstart, hr.imp_right fun hf => ?_⟩, hrest⟩
      exact ⟨stage, hstages ▸ List.mem_singleton_self stage, hf⟩
  · exact .error (.of_own trivial)

end Store

end Joinery
