/-
What a stage fails with.

An item fails for itself (`IsLocal`), or because a derived source that it reads has
no plan (`Failure`). If it fails for itself, at a path that does not resolve, the
path is the requested one, and the definition that it leads to is named with it
exactly if that is what does not resolve (`aggregateEnd_local`). The joins of an
item lead somewhere and only sources with a query are derived, so the compiler is
never asked for what it cannot do (`Reachable.never_internal`).
-/
import Joinery.Proofs.Plan.Growth
import Joinery.Proofs.Plan.Leads
import Joinery.Proofs.Plan.Needed

namespace Joinery

namespace CompileError

/-- The error behind the derived sources that it has come through. -/
def root : CompileError → CompileError
  | .derived _ _ inner => inner.root
  | e => e

@[simp] theorem root_requestedBy (path : Path) (e : CompileError) :
    (e.requestedBy path).root = e.root := by
  unfold requestedBy
  split <;> rfl

@[simp] theorem root_within (source : String) (e : CompileError) : (e.within source).root = e.root := by
  cases e <;> rfl

theorem root_blame (request : AggregateRequest) (e : CompileError) :
    (Store.blame request e).root = e.root := by
  unfold Store.blame
  split
  · exact root_requestedBy _ e
  · rfl

/-- The error lies with an aggregate, a key or a condition itself, or with a path that strays: `stray`
tells which paths may do so, each with the definition that it leads to if that is what strays. -/
def IsLocal (stray : Path → Option Path → Prop) : CompileError → Prop
  | .resolution path definition _ => stray path definition
  | .invalidGroupingKey .. | .invalidAggregate .. | .invalidCondition .. => True
  | _ => False

theorem IsLocal.mono {stray stray' : Path → Option Path → Prop} {e : CompileError} (h : e.IsLocal stray)
    (hs : ∀ path definition, stray path definition → stray' path definition) : e.IsLocal stray' := by
  cases e with
  | resolution path definition cause => exact hs path definition h
  | invalidGroupingKey | invalidAggregate | invalidCondition => trivial
  | unknownSource | cyclicDerivation | unsupportedPipeline | duplicateOutput | derived | internal =>
    exact h.elim

/-- An internal problem, perhaps behind derived sources. -/
def IsInternal (e : CompileError) : Prop := ∃ problem, e.root = .internal problem

theorem IsLocal.not_internal {stray : Path → Option Path → Prop} {e : CompileError} (h : e.IsLocal stray) :
    ¬ e.IsInternal := by
  rintro ⟨problem, hroot⟩
  cases e with
  | derived => exact h
  | internal => exact h
  | resolution | unknownSource | invalidGroupingKey | invalidAggregate | invalidCondition
  | cyclicDerivation | unsupportedPipeline | duplicateOutput => cases hroot

end CompileError

namespace Store

variable {s : Store} {derive : Derive} {start : Source} {stray : Path → Option Path → Prop}

/-! ## Items for themselves -/

theorem bindReference_local (f : Field) (parent own : Slot) (reference : Path) :
    FailsOnly (CompileError.IsLocal stray) (s.bindReference f parent own reference) := by
  refine .bind (x := s.side f reference parent own) ?_ fun out _ => ?_
  · unfold side
    split
    · exact .ok _
    · split
      · split
        · exact .ok _
        · exact .error trivial
      · exact .error trivial
    · exact .error trivial
  · obtain ⟨source, slot, name⟩ := out
    simp only
    split
    · exact .error trivial
    · split
      · exact .ok _
      · exact .error trivial

mutual
theorem bind_local (f : Field) (parent own : Slot) : ∀ on : Condition,
    FailsOnly (CompileError.IsLocal stray) (s.bind f parent own on)
  | .equal left right => by
    unfold bind
    refine (bindReference_local f parent own left).bind fun _ _ => ?_
    exact (bindReference_local f parent own right).bind fun _ _ => .ok _
  | .all kids => by
    unfold bind
    exact (bindAll_local f parent own kids).bind fun _ _ => .ok _

theorem bindAll_local (f : Field) (parent own : Slot) : ∀ kids : List Condition,
    FailsOnly (CompileError.IsLocal stray) (s.bindAll f parent own kids)
  | [] => by
    unfold bindAll
    exact .ok []
  | on :: kids => by
    unfold bindAll
    refine (bind_local f parent own on).bind fun _ _ => ?_
    exact (bindAll_local f parent own kids).bind fun _ _ => .ok _
end

theorem checkCondition_local (f : Field) :
    FailsOnly (CompileError.IsLocal stray) (s.checkCondition f) := by
  unfold checkCondition
  split
  · next join _ => exact (bind_local f .root (.join 0) join.on).map
  · exact .ok ()

variable {path : Path} (h : stray path none)

include h

theorem resolveRequested_local : FailsOnly (CompileError.IsLocal stray) (s.resolveRequested start path) :=
  .mapError fun _ _ => h

theorem keyEnd_local (r : Resolved) : FailsOnly (CompileError.IsLocal stray) (s.keyEnd path r) := by
  unfold keyEnd
  split
  · exact .ok _
  · exact .error trivial
  · split
    · exact .error h
    · split
      · exact .error trivial
      · exact .ok _

theorem appliedEnd_local (request : AggregateRequest) (op : Operator) (joins : List Field) (f : Field) :
    FailsOnly (CompileError.IsLocal stray) (s.appliedEnd request path op joins f) := by
  unfold appliedEnd
  split
  · exact .ok _
  · exact .error trivial
  · split
    · split
      · exact .error h
      · exact .ok _
    · exact .error trivial

omit h

theorem rowsEnd_local (request : AggregateRequest) (op : Operator) (joins : List Field) :
    FailsOnly (CompileError.IsLocal stray) (rowsEnd request op joins) := by
  unfold rowsEnd
  split
  · exact .ok _
  · exact .error trivial

/-- The path of the definition that a path leads to, if that does not resolve. -/
def strayInner? (s : Store) (r : Resolved) : Option Path :=
  (r.field.kind.aggregate?.bind (·.path)).filter fun inner => !(s.resolveFrom r.source inner).isOk

/-- The path of the definition that an aggregate leads to, if that does not resolve. An aggregate with an
operator leads to none. -/
def strayDefinition? (s : Store) (start : Source) (request : AggregateRequest) : Option Path :=
  match request.op, request.path with
  | none, some path => (s.resolveFrom start path).toOption.bind s.strayInner?
  | _, _ => none

theorem definedEnd_local (request : AggregateRequest) (path : Path) (r : Resolved) :
    FailsOnly (CompileError.IsLocal fun p definition => p = path ∧ definition = s.strayInner? r)
      (s.definedEnd request path r) := by
  unfold definedEnd strayInner?
  split
  · exact .error trivial
  next definition hdefinition =>
  simp only [hdefinition, Option.bind_some]
  split
  · exact (rowsEnd_local request definition.op r.joins).bind fun _ _ => .ok _
  next inner hinner =>
  simp only [hinner, Option.filter_some]
  cases hr : s.resolveFrom r.source inner with
  | error cause =>
    intro e he
    cases he
    exact ⟨rfl, rfl⟩
  | ok i =>
    exact (appliedEnd_local ⟨rfl, rfl⟩ request definition.op (r.joins ++ i.joins) i.field).bind
      fun _ _ => .ok _

/-- **An aggregate fails for itself at its own path**, together with the path of the definition that it
leads to exactly if that does not resolve. -/
theorem aggregateEnd_local (request : AggregateRequest) :
    FailsOnly (CompileError.IsLocal fun p definition =>
        request.path = some p ∧ definition = s.strayDefinition? start request)
      (s.aggregateEnd start request) := by
  cases hop : request.op with
  | some op =>
    cases hpath : request.path with
    | none =>
      simp only [aggregateEnd, hop, hpath]
      exact rowsEnd_local request op []
    | some path =>
      simp only [aggregateEnd, strayDefinition?, hop, hpath]
      refine (resolveRequested_local ⟨rfl, rfl⟩).bind fun r _ => ?_
      exact appliedEnd_local ⟨rfl, rfl⟩ request op r.joins r.field
  | none =>
    cases hpath : request.path with
    | none =>
      simp only [aggregateEnd, hop, hpath]
      exact .error trivial
    | some path =>
      simp only [aggregateEnd, strayDefinition?, hop, hpath, resolveRequested]
      cases hr : s.resolveFrom start path with
      | error cause => exact .error ⟨rfl, rfl⟩
      | ok r =>
        refine FailsOnly.bind (.ok r) fun _ hr => ?_
        cases hr
        refine (definedEnd_local request path r).mono fun e he => he.mono ?_
        rintro p definition ⟨rfl, rfl⟩
        exact ⟨rfl, rfl⟩

/-! ## Items and the sources that they read -/

/-- An item fails for itself, or because a derived source that it reads has no plan. -/
def Failure (derive : Derive) (reads : Source → Prop) (stray : Path → Option Path → Prop)
    (e : CompileError) : Prop :=
  e.IsLocal stray ∨ ∃ source, reads source ∧ source.query.isSome ∧ derive source.name = .error e

theorem checkRows_fails {reads : Source → Prop} {source : Source} (h : reads source) :
    FailsOnly (Failure derive reads stray) (checkRows derive source) := by
  unfold checkRows
  cases hq : source.query with
  | none => exact .ok ()
  | some query => exact FailsOnly.bind (fun e he => .inr ⟨source, h, by rw [hq]; rfl, he⟩) fun _ _ => .ok ()

theorem checkChain_fails {reads : Source → Prop} : ∀ {chain : List Field},
    (∀ f ∈ chain, ∃ target, s.target? f = some target ∧ reads target) →
    FailsOnly (Failure derive reads stray) (s.checkChain derive chain)
  | [], _ => .ok ()
  | f :: rest, h => by
    obtain ⟨⟨target, ht, hreads⟩, hrest⟩ := List.forall_mem_cons.mp h
    unfold checkChain checkJoin
    rw [ht]
    refine FailsOnly.bind ?_ fun _ _ => checkChain_fails hrest
    refine (checkRows_fails hreads).bind fun _ _ => ?_
    exact (checkCondition_local f).mono fun _ => .inl

theorem Leads.reads {reads : Source → Prop} {chain needs : List Field} {there : Source}
    (h : s.Leads start chain there) (hsub : ∀ f ∈ chain, f ∈ needs)
    (hreads : ∀ f ∈ needs, ∀ source, s.target? f = some source → reads source) :
    ∀ f ∈ chain, ∃ target, s.target? f = some target ∧ reads target := fun f hf =>
  (h.target f hf).imp fun target ht => ⟨ht, hreads f (hsub f hf) target ht⟩

theorem keyItem_fails {reads : Source → Prop} {path : Path}
    (hreads : ∀ chain, s.keyNeeds start path = .ok chain →
      ∀ f ∈ chain, ∀ source, s.target? f = some source → reads source) :
    FailsOnly (Failure derive reads fun p definition => p = path ∧ definition = none)
      (s.keyItem derive start path) := by
  unfold keyItem
  refine ((resolveRequested_local ⟨rfl, rfl⟩).mono fun _ => .inl).bind fun r hr => ?_
  have hresolve := resolveRequested_eq_ok hr
  have hneeds : s.keyNeeds start path = .ok r.needs := by
    rw [keyNeeds, hresolve]
    rfl
  have hjoins : ∀ f ∈ r.joins, f ∈ r.needs := by
    intro f hf
    unfold Resolved.needs
    split
    · exact List.mem_append_left _ hf
    · exact hf
  have hleads := (resolveFrom_leads hresolve).1
  refine (checkChain_fails (hleads.reads hjoins (hreads _ hneeds))).bind fun _ _ => ?_
  refine ((keyEnd_local ⟨rfl, rfl⟩ r).mono fun _ => .inl).bind fun e he => ?_
  have hsub : ∀ f ∈ e.chain, f ∈ r.needs := fun f hf => keyEnd_needs he ▸ hf
  have hend := (keyEnd_leads hresolve he "").chain
  exact (checkChain_fails (hend.reads hsub (hreads _ hneeds))).bind fun _ _ => .ok _

theorem aggregateItem_fails {reads : Source → Prop} {request : AggregateRequest}
    (hreads : ∀ chain, s.aggregateNeeds start request = .ok chain →
      ∀ f ∈ chain, ∀ source, s.target? f = some source → reads source) :
    FailsOnly (Failure derive reads fun p definition =>
        request.path = some p ∧ definition = s.strayDefinition? start request)
      (s.aggregateItem derive start request) := by
  unfold aggregateItem
  refine ((aggregateEnd_local request).mono fun _ => .inl).bind fun e he => ?_
  obtain ⟨source, hleads, -⟩ := aggregateEnd_leads he
  have hchain := hleads.reads (fun _ hf => hf) (hreads _ (aggregateEnd_needs he))
  exact (checkChain_fails hchain).bind fun _ _ => .ok _

/-! ## Stages -/

theorem compileStage_fails {P : CompileError → Prop} (hs : s.Coherent) (hstart : start ∈ s.sources)
    (stage : Stage) (hrows : FailsOnly P (checkRows derive start))
    (hkeys : ∀ path ∈ stage.groupBy,
      FailsOnly (fun e => P (e.requestedBy path)) (s.keyItem derive start path))
    (haggregates : ∀ request ∈ stage.aggregates,
      FailsOnly (fun e => P (blame request e)) (s.aggregateItem derive start request))
    (hnames : ∀ name, P (.duplicateOutput name)) : FailsOnly P (s.compileStage derive start stage) := by
  have hitems : FailsOnly P (s.stageItems derive start stage) := by
    unfold stageItems
    refine hrows.bind fun _ _ => FailsOnly.bind ?_ fun keys _ => FailsOnly.bind ?_ fun aggregates _ => ?_
    · exact FailsOnly.mapM fun path hpath => FailsOnly.mapError (hkeys path hpath)
    · exact FailsOnly.mapM fun request hrequest => FailsOnly.mapError (haggregates request hrequest)
    · simp only
      split
      · exact .error (hnames _)
      · exact .ok _
  intro e he
  have hverdict : verdict (s.stageItems derive start stage) = verdict (s.compileStage derive start stage) :=
    (compileStage_agree hs hstart stage).verdict
  rw [verdict_eq_error_iff.mpr he] at hverdict
  exact hitems e (verdict_eq_error_iff.mp hverdict)

/-- The source is the one that is found by its name. -/
def Finds (s : Store) (source : Source) : Prop := s.sourceNamed? source.name = some source

theorem finds_of_named {name : String} {source : Source} (h : s.sourceNamed? name = some source) :
    s.Finds source :=
  sourceNamed?_self h

theorem finds_of_target {f : Field} {source : Source} (h : s.target? f = some source) : s.Finds source := by
  obtain ⟨join, -, hn⟩ := target?_eq_some h
  exact sourceNamed?_self hn

/-! ## Internal problems -/

/-- What derives sources without internal problems compiles stages without any. -/
theorem compileStage_not_internal (hs : s.Coherent) (hstart : s.Finds start)
    (hd : ∀ source, s.Finds source → source.query.isSome → FailsOnly (¬ ·.IsInternal) (derive source.name))
    (stage : Stage) :
    FailsOnly (¬ ·.IsInternal) (s.compileStage derive start stage) := by
  have hlocal (stray : Path → Option Path → Prop) (e : CompileError) (he : Failure derive s.Finds stray e) :
      ¬ e.IsInternal := by
    rcases he with he | ⟨source, hsource, hq, he⟩
    · exact he.not_internal
    · exact hd source hsource hq e he
  refine compileStage_fails hs (sourceNamed?_mem hstart) stage ?_ (fun path _ => ?_) (fun request _ => ?_) ?_
  · exact (checkRows_fails hstart).mono (hlocal fun _ _ => False)
  · simp only [CompileError.IsInternal, CompileError.root_requestedBy]
    exact (keyItem_fails fun _ _ _ _ _ => finds_of_target).mono (hlocal _)
  · simp only [CompileError.IsInternal, CompileError.root_blame]
    exact (aggregateItem_fails fun _ _ _ _ _ => finds_of_target).mono (hlocal _)
  · exact fun name ⟨_, hroot⟩ => nomatch hroot

theorem compileQueryOf_not_internal (hs : s.Coherent)
    (hd : ∀ source, s.Finds source → source.query.isSome → FailsOnly (¬ ·.IsInternal) (derive source.name))
    (owner : String) (query : Query) :
    FailsOnly (¬ ·.IsInternal) (s.compileQueryOf derive owner query) := by
  unfold compileQueryOf
  split
  · next stage _ =>
    split
    · exact .error fun ⟨_, hroot⟩ => nomatch hroot
    · next start hstart => exact compileStage_not_internal hs (finds_of_named hstart) hd stage
  · exact .error fun ⟨_, hroot⟩ => nomatch hroot

/-- Only the sources that are read are derived, and those have a query. -/
theorem derive_not_internal (hs : s.Coherent) (trail : List String) {source : Source}
    (hsource : s.Finds source) (hq : source.query.isSome) :
    FailsOnly (¬ ·.IsInternal) (s.derive trail source.name) := by
  obtain ⟨query, hquery⟩ := Option.isSome_iff_exists.mp hq
  rw [derive_eq]
  split
  · exact .error fun ⟨_, hroot⟩ => nomatch hroot
  next ht =>
  have hsource : s.sourceNamed? source.name = some source := hsource
  simp only [hsource, hquery]
  refine FailsOnly.mapError ?_
  simp only [CompileError.IsInternal, CompileError.root_within]
  have := room_lt hsource ht
  exact compileQueryOf_not_internal hs (fun _ h hq => derive_not_internal hs _ h hq) source.name query
termination_by s.room trail

/-- **The compiler has no internal problems.** However the joins of a model dangle or go round, and however
its sources are derived, no stage, request or query fails with an internal error, and none with one
behind the derived sources that it has come through. -/
theorem Reachable.never_internal (hs : s.Reachable) :
    (∀ start stage, FailsOnly (¬ ·.IsInternal) (s.compile start stage)) ∧
      (∀ request, FailsOnly (¬ ·.IsInternal) (s.compileRequest request)) ∧
      ∀ query, FailsOnly (¬ ·.IsInternal) (s.compileQuery query) := by
  have hderive (source : Source) (hsource : s.Finds source) (hq : source.query.isSome) :
      FailsOnly (¬ ·.IsInternal) (s.derive [] source.name) :=
    derive_not_internal hs.coherent [] hsource hq
  have hcompile (start : String) (stage : Stage) : FailsOnly (¬ ·.IsInternal) (s.compile start stage) := by
    unfold compile
    split
    · exact .error fun ⟨_, hroot⟩ => nomatch hroot
    · next source hsource =>
      exact compileStage_not_internal hs.coherent (finds_of_named hsource) hderive stage
  exact ⟨hcompile, fun request => hcompile request.source request.stage,
    fun query => compileQueryOf_not_internal hs.coherent hderive query.source query⟩

/-- Staff, whose leads are derived over a join to teams that are not defined, and a source that is derived
from itself. -/
def tangled : Store :=
  [.defineSource "staff" [⟨"id", .scalar⟩, ⟨"boss_id", .scalar⟩,
      ⟨"boss", .join ⟨"staff", .one, .equal ⟨["boss_id"]⟩ ⟨["boss", "id"]⟩⟩⟩,
      ⟨"team", .join ⟨"teams", .one, .equal ⟨["id"]⟩ ⟨["team", "lead"]⟩⟩⟩] (some "id"),
    .defineQuerySource "leads" ⟨"staff", [⟨[⟨["boss", "team", "name"]⟩], []⟩]⟩ none,
    .defineQuerySource "rounds" ⟨"rounds", [⟨[⟨["id"]⟩], []⟩]⟩ none,
    .addJoinField "staff" "leads" "leads" .many (.equal ⟨["id"]⟩ ⟨["leads", "name"]⟩)].foldl attempt .empty

/-- A request that needs the leads fails behind them, a stage that counts the teams and a query of the rounds
fail for themselves, none with an internal error. -/
theorem never_internal_tangled : tangled.Reachable ∧
    (∃ e, tangled.compileRequest ⟨"staff", [⟨["boss", "leads", "name"]⟩], []⟩ = .error e ∧
      e.root = .resolution ⟨["boss", "team", "name"]⟩ none (.unknownSource "teams" (some "staff.team")) ∧
      ¬ e.IsInternal) ∧
    (∃ e, tangled.compile "staff" ⟨[], [⟨none, some .count, some ⟨["team"]⟩⟩]⟩ = .error e ∧ ¬ e.IsInternal) ∧
    ∃ e, tangled.compileQuery ⟨"rounds", [⟨[⟨["id"]⟩], []⟩]⟩ = .error e ∧
      e = .cyclicDerivation ["rounds", "rounds"] ∧ ¬ e.IsInternal := by
  have hreachable : tangled.Reachable := Reachable.empty.attempts _
  obtain ⟨hstage, hrequest, hquery⟩ := hreachable.never_internal
  have hleads : verdict (tangled.compileRequest ⟨"staff", [⟨["boss", "leads", "name"]⟩], []⟩) =
      .error (.derived "leads" (some ⟨["boss", "leads", "name"]⟩) (.resolution ⟨["boss", "team", "name"]⟩ none
        (.unknownSource "teams" (some "staff.team")))) := by decide +kernel
  have hteam : verdict (tangled.compile "staff" ⟨[], [⟨none, some .count, some ⟨["team"]⟩⟩]⟩) =
      .error (.resolution ⟨["team"]⟩ none (.unknownSource "teams" (some "staff.team"))) := by decide +kernel
  have hrounds : verdict (tangled.compileQuery ⟨"rounds", [⟨[⟨["id"]⟩], []⟩]⟩) =
      .error (.cyclicDerivation ["rounds", "rounds"]) := by decide +kernel
  have hleads := verdict_eq_error_iff.mp hleads
  have hteam := verdict_eq_error_iff.mp hteam
  have hrounds := verdict_eq_error_iff.mp hrounds
  exact ⟨hreachable, ⟨_, hleads, rfl, hrequest _ _ hleads⟩, ⟨_, hteam, hstage _ _ _ hteam⟩,
    _, hrounds, rfl, hquery _ _ hrounds⟩

end Store

end Joinery
