/-
What decides whether a plan runs.

Every relation of a plan comes from a table or a nested plan (`Plan.origins`), and
a column is found by its name among the columns that the relation has. Rows decide
nothing: over tables with the same columns a plan runs or fails alike
(`run_sameSchema`). If the positions in the plan are in range, it fails only for
want of a table or a column (`evaluate_missing`), and it runs when its nested
plans do and it lacks neither (`exists_run_iff`).
-/
import Joinery.Proofs.Plan.Nesting
import Joinery.Proofs.Relation.Evaluate

namespace Joinery

/-- Tables of the same names, and those of one name with the same columns. -/
def Tables.SameSchema (ts us : Tables) : Prop :=
  ∀ name, (ts.get name).map (·.columns) = (us.get name).map (·.columns)

/-- The error is that a table or a column is missing. -/
def ExecutionError.IsMissing : ExecutionError → Prop
  | .missingTable _ | .missingColumn .. => True
  | _ => False

/-- Where the rows of the target of a join come from. -/
def PlannedJoin.origin (j : PlannedJoin) : Base :=
  match j.subPlan with
  | some position => .subPlan position
  | none => .table j.target

/-- The column of an aggregate that has one. -/
def AggregateTarget.column? : AggregateTarget → Option Column
  | .rows _ => none
  | .column c => some c

namespace Plan

/-- Where the relations of a plan come from, each at its index. -/
def origins (p : Plan) : List Base := p.base :: p.joins.map (·.origin)

/-- The columns that a plan itself refers to: the sides of its conditions, its keys, and the columns
that it aggregates. -/
def references (p : Plan) : List Column :=
  p.joins.flatMap (fun j => j.on.equalities.flatMap fun e => [e.1, e.2]) ++
    p.groupBy.map (·.column) ++ p.aggregates.filterMap (·.target.column?)

/-- The columns of a relation: those of its table, or the output of its nested plan. -/
def columnsFrom? (tables : Tables) (p : Plan) : Base → Option (List String)
  | .table name => (tables.get name).toOption.map (·.columns)
  | .subPlan position => p.subPlans[position]?.map (·.2.outputColumns)

/-- What a plan itself can lack: the table of its base or of the target of a join, or a column that it
refers to. -/
inductive Lacks (tables : Tables) (p : Plan) : Prop
  | table {name : String} : .table name ∈ p.origins → (∀ r, tables.get name ≠ .ok r) → Lacks tables p
  | column {c : Column} {origin : Base} {columns : List String} : c ∈ p.references →
    p.origins[c.slot.index]? = some origin → p.columnsFrom? tables origin = some columns →
    c.field ∉ columns → Lacks tables p

/-- The nested plans and relations that a plan refers to are there. -/
structure InRange (p : Plan) : Prop where
  origins : ∀ position, .subPlan position ∈ p.origins → position < p.subPlans.length
  references : ∀ c ∈ p.references, c.slot.index < p.origins.length

variable {p : Plan}

theorem origins_length : p.origins.length = p.joins.length + 1 := by
  simp [origins]

theorem forall_references {P : Column → Prop} : (∀ c ∈ p.references, P c) ↔
    (∀ j ∈ p.joins, ∀ e ∈ j.on.equalities, P e.1 ∧ P e.2) ∧ (∀ key ∈ p.groupBy, P key.column) ∧
      ∀ a ∈ p.aggregates, ∀ c, a.target.column? = some c → P c := by
  simp only [references, List.forall_mem_append, List.forall_mem_flatMap, List.forall_mem_map,
    List.forall_mem_cons, List.not_mem_nil, false_imp_iff, implies_true, and_true, List.mem_filterMap,
    forall_exists_index, and_imp, and_assoc]
  refine and_congr_right fun _ => and_congr_right fun _ => ?_
  exact ⟨fun h a ha c hc => h c a ha hc, fun h c a ha hc => h a ha c hc⟩

end Plan

namespace Engine

/-! ## Binding -/

/-- A column is found in its relation. -/
def Binds (relations : List Relation) (c : Column) : Prop :=
  ∃ r, relations[c.slot.index]? = some r ∧ c.field ∈ r.columns

theorem exists_position_iff {r : Relation} {column : String} :
    (∃ i, r.position column = .ok i) ↔ column ∈ r.columns := by
  unfold Relation.position
  cases hfound : r.columns.findIdx? (· == column) with
  | none =>
    have hnone : ∀ x ∈ r.columns, x ≠ column := by simpa [List.findIdx?_eq_none_iff] using hfound
    simpa using fun hmem => hnone column hmem rfl
  | some i =>
    obtain ⟨hlt, hi, -⟩ := List.findIdx?_eq_some_iff_getElem.mp hfound
    have hmem : column ∈ r.columns := eq_of_beq hi ▸ List.getElem_mem hlt
    simpa using hmem

theorem exists_bind_iff {relations : List Relation} {c : Column} :
    (∃ place, bind relations c = .ok place) ↔ Binds relations c := by
  unfold bind Binds
  cases relations[c.slot.index]? with
  | none => simp
  | some r =>
    simp only [bind_eq_ok_iff, pure_eq_ok_iff, Option.some.injEq, exists_eq_left',
      ← exists_position_iff]
    constructor
    · rintro ⟨_, i, hi, -⟩
      exact ⟨i, hi⟩
    · rintro ⟨i, hi⟩
      exact ⟨_, i, hi, rfl⟩

theorem bind_missing {relations : List Relation} {c : Column} (h : c.slot.index < relations.length) :
    FailsOnly ExecutionError.IsMissing (bind relations c) := by
  unfold bind
  rw [List.getElem?_eq_getElem h]
  refine FailsOnly.bind ?_ fun _ _ => .ok _
  unfold Relation.position
  split
  · exact .ok _
  · exact .error trivial

theorem exists_bindEqualities_iff {relations : List Relation} {on : BoundCondition} :
    (∃ places, bindEqualities relations on = .ok places) ↔
      ∀ e ∈ on.equalities, Binds relations e.1 ∧ Binds relations e.2 := by
  simp only [bindEqualities, exists_mapM_ok_iff, ← exists_bind_iff, bind_eq_ok_iff, pure_eq_ok_iff]
  refine forall₂_congr fun e _ => ⟨?_, ?_⟩
  · rintro ⟨_, l, hl, r, hr, _⟩
    exact ⟨⟨l, hl⟩, r, hr⟩
  · rintro ⟨⟨l, hl⟩, r, hr⟩
    exact ⟨_, l, hl, r, hr, rfl⟩

theorem exists_joinRows_iff {relations : List Relation} : ∀ {joins : List PlannedJoin} {next : Nat}
    {rows : List JoinedRow}, (∃ out, joinRows relations next rows joins = .ok out) ↔
      ∀ j ∈ joins, ∃ places, bindEqualities relations j.on = .ok places
  | [], _, rows => by simp [joinRows]
  | j :: js, next, rows => by
    simp only [joinRows, bind_eq_ok_iff, List.forall_mem_cons]
    constructor
    · rintro ⟨out, places, hplaces, hout⟩
      exact ⟨⟨places, hplaces⟩, exists_joinRows_iff.mp ⟨out, hout⟩⟩
    · rintro ⟨⟨places, hplaces⟩, hrest⟩
      obtain ⟨out, hout⟩ := exists_joinRows_iff.mpr hrest
      exact ⟨out, places, hplaces, hout⟩

theorem exists_bindTarget_iff {relations : List Relation} {target : AggregateTarget} :
    (∃ input, bindTarget relations target = .ok input) ↔
      ∀ c, target.column? = some c → Binds relations c := by
  cases target with
  | rows slot => simp [bindTarget, AggregateTarget.column?]
  | column c =>
    simp only [bindTarget, AggregateTarget.column?, bind_eq_ok_iff, pure_eq_ok_iff, Option.some.injEq,
      forall_eq', ← exists_bind_iff]
    constructor
    · rintro ⟨_, place, hplace, -⟩
      exact ⟨place, hplace⟩
    · rintro ⟨place, hplace⟩
      exact ⟨_, place, hplace, rfl⟩

/-- Over its relations a plan runs when all columns that it refers to are found in them. -/
theorem exists_evaluateOn_iff {base : Relation} {targets : List Relation} {p : Plan} :
    (∃ result, evaluateOn base targets p = .ok result) ↔
      ∀ c ∈ p.references, Binds (base :: targets) c := by
  have hinput (target : AggregateTarget) (op : Operator) :
      (∃ input, (do return (op, ← bindTarget (base :: targets) target) : Except _ _) = .ok input) ↔
        ∀ c, target.column? = some c → Binds (base :: targets) c := by
    simp only [← exists_bindTarget_iff, bind_eq_ok_iff, pure_eq_ok_iff]
    constructor
    · rintro ⟨_, input, h, -⟩
      exact ⟨input, h⟩
    · rintro ⟨input, h⟩
      exact ⟨_, input, h, rfl⟩
  rw [Plan.forall_references]
  simp only [evaluateOn, bind_eq_ok_iff, pure_eq_ok_iff]
  constructor
  · rintro ⟨result, rows, hrows, keys, hkeys, inputs, hinputs, -⟩
    have hon := exists_joinRows_iff.mp ⟨rows, hrows⟩
    have hkey := exists_mapM_ok_iff.mp ⟨keys, hkeys⟩
    have htarget := exists_mapM_ok_iff.mp ⟨inputs, hinputs⟩
    exact ⟨fun j hj => exists_bindEqualities_iff.mp (hon j hj),
      fun key hk => exists_bind_iff.mp (hkey key hk), fun a ha => (hinput _ _).mp (htarget a ha)⟩
  · rintro ⟨hon, hkey, htarget⟩
    obtain ⟨rows, hrows⟩ := exists_joinRows_iff.mpr fun j hj => exists_bindEqualities_iff.mpr (hon j hj)
    obtain ⟨keys, hkeys⟩ := exists_mapM_ok_iff.mpr fun key hk => exists_bind_iff.mpr (hkey key hk)
    obtain ⟨inputs, hinputs⟩ := exists_mapM_ok_iff.mpr fun a ha => (hinput _ a.op).mpr (htarget a ha)
    exact ⟨_, rows, hrows, keys, hkeys, inputs, hinputs, rfl⟩

/-! ## Relations -/

theorem joinRelation_eq (tables : Tables) (derived : List Relation) :
    joinRelation tables derived = fun j => baseRelation tables derived j.origin := by
  funext j
  unfold joinRelation PlannedJoin.origin
  cases j.subPlan <;> rfl

/-! ## Rows decide nothing -/

/-- The relations are alike in their names and columns. -/
def SameShape (r q : Relation) : Prop := r.name = q.name ∧ r.columns = q.columns

variable {relations relations' : List Relation}

theorem bind_sameShape (h : List.Forall₂ SameShape relations relations') :
    bind relations = bind relations' := by
  funext c
  unfold bind
  cases hr : relations[c.slot.index]? with
  | none =>
    have hnone : relations'[c.slot.index]? = none := by
      rw [List.getElem?_eq_none_iff] at hr ⊢
      rwa [← h.length_eq]
    rw [hnone]
  | some r =>
    obtain ⟨q, hq, hname, hcolumns⟩ := forall₂_getElem? h hr
    simp only [hq, Relation.position, hname, hcolumns]

theorem joinRows_sameShape (h : List.Forall₂ SameShape relations relations') :
    ∀ (joins : List PlannedJoin) (next : Nat) (rows rows' : List JoinedRow),
      Agree (fun _ _ => True) (joinRows relations next rows joins) (joinRows relations' next rows' joins)
  | [], _, _, _ => .ok trivial
  | j :: js, next, rows, rows' => by
    simp only [joinRows, bindEqualities, bind_sameShape h]
    exact (Agree.refl _).bind fun _ _ _ => joinRows_sameShape h js (next + 1) _ _

theorem evaluateOn_sameShape {base base' : Relation} {targets targets' : List Relation}
    (hbase : SameShape base base') (htargets : List.Forall₂ SameShape targets targets') (p : Plan) :
    Agree (fun r q => r.columns = q.columns) (evaluateOn base targets p) (evaluateOn base' targets' p) := by
  have h : List.Forall₂ SameShape (base :: targets) (base' :: targets') := .cons hbase htargets
  have htarget : bindTarget (base :: targets) = bindTarget (base' :: targets') := by
    funext target
    cases target with
    | rows slot => rfl
    | column c => simp only [bindTarget, bind_sameShape h]
  simp only [evaluateOn, htarget, bind_sameShape h]
  refine (joinRows_sameShape h p.joins 1 _ _).bind fun _ _ _ => ?_
  exact (Agree.refl _).bind fun _ _ _ => (Agree.refl _).bind fun _ _ _ => .ok rfl

variable {tables tables' : Tables} {derived derived' : List Relation}

theorem get_sameShape (h : tables.SameSchema tables') (name : String) :
    Agree SameShape (tables.get name) (tables'.get name) := by
  have hcolumns := h name
  unfold Tables.get at hcolumns ⊢
  cases hr : tables.relations.find? (·.name == name) <;>
    cases hq : tables'.relations.find? (·.name == name) <;> rw [hr, hq] at hcolumns
  · exact .error _
  · cases hcolumns
  · cases hcolumns
  · have hname := List.find?_some hr
    have hname' := List.find?_some hq
    exact .ok ⟨(eq_of_beq hname).trans (eq_of_beq hname').symm, Except.ok.inj hcolumns⟩

theorem baseRelation_sameShape (h : tables.SameSchema tables')
    (hd : List.Forall₂ SameShape derived derived') (origin : Base) :
    Agree SameShape (baseRelation tables derived origin) (baseRelation tables' derived' origin) := by
  cases origin with
  | table name => exact get_sameShape h name
  | subPlan position =>
    show Agree SameShape (derivedRelation derived position) (derivedRelation derived' position)
    unfold derivedRelation
    cases hr : derived[position]? with
    | none =>
      have hnone : derived'[position]? = none := by
        rw [List.getElem?_eq_none_iff] at hr ⊢
        rwa [← hd.length_eq]
      rw [hnone]
      exact .error _
    | some r =>
      obtain ⟨q, hq, hrq⟩ := forall₂_getElem? hd hr
      rw [hq]
      exact .ok hrq

theorem evaluate_sameSchema (h : tables.SameSchema tables')
    (hd : List.Forall₂ SameShape derived derived') (p : Plan) :
    Agree (fun r q => r.columns = q.columns) (evaluate tables derived p) (evaluate tables' derived' p) := by
  simp only [evaluate_eq, joinRelation_eq]
  refine (baseRelation_sameShape h hd p.base).bind fun base base' hbase => ?_
  have htargets : Agree (List.Forall₂ SameShape) (p.joins.mapM (baseRelation tables derived ·.origin))
      (p.joins.mapM (baseRelation tables' derived' ·.origin)) :=
    Agree.mapM (List.forall₂_same.mpr fun j _ => rfl) fun i j hij =>
      hij ▸ baseRelation_sameShape h hd i.origin
  exact htargets.bind fun _ _ ht => evaluateOn_sameShape hbase ht p

/-- **Rows decide nothing about whether a plan runs.** -/
theorem run_sameSchema (h : tables.SameSchema tables') (p : Plan) :
    Agree (fun r q => r.columns = q.columns) (run tables p) (run tables' p) := by
  induction p using Plan.nested_induction with
  | h p ih =>
  rw [run_eq, run_eq]
  have hderived : Agree (List.Forall₂ SameShape) (p.subPlans.mapM (nestedRelation tables))
      (p.subPlans.mapM (nestedRelation tables')) := by
    refine Agree.mapM (S := fun c d => c = d ∧ c ∈ p.subPlans)
      (List.forall₂_same.mpr fun e he => ⟨rfl, he⟩) ?_
    rintro e _ ⟨rfl, he⟩
    exact (ih e he).bind fun _ _ hcolumns => .ok ⟨rfl, hcolumns⟩
  exact hderived.bind fun _ _ hd => evaluate_sameSchema h hd p

/-! ## What a plan fails for -/

theorem baseRelation_missing {origin : Base}
    (h : ∀ position, origin = .subPlan position → position < derived.length) :
    FailsOnly ExecutionError.IsMissing (baseRelation tables derived origin) := by
  cases origin with
  | table name =>
    show FailsOnly _ (tables.get name)
    unfold Tables.get
    split
    · exact .ok _
    · exact .error trivial
  | subPlan position =>
    show FailsOnly _ (derivedRelation derived position)
    unfold derivedRelation
    rw [List.getElem?_eq_getElem (h position rfl)]
    exact .ok _

theorem joinRows_missing : ∀ {joins : List PlannedJoin} {next : Nat} {rows : List JoinedRow},
    (∀ j ∈ joins, ∀ e ∈ j.on.equalities,
      e.1.slot.index < relations.length ∧ e.2.slot.index < relations.length) →
    FailsOnly ExecutionError.IsMissing (joinRows relations next rows joins)
  | [], _, rows, _ => .ok rows
  | j :: js, next, rows, h => by
    unfold joinRows
    refine FailsOnly.bind (FailsOnly.mapM fun e he => ?_) fun _ _ =>
      joinRows_missing fun i hi => h i (List.mem_cons_of_mem j hi)
    obtain ⟨hleft, hright⟩ := h j List.mem_cons_self e he
    exact (bind_missing hleft).bind fun _ _ => (bind_missing hright).bind fun _ _ => .ok _

theorem evaluateOn_missing {base : Relation} {targets : List Relation} {p : Plan}
    (h : ∀ c ∈ p.references, c.slot.index < (base :: targets).length) :
    FailsOnly ExecutionError.IsMissing (evaluateOn base targets p) := by
  obtain ⟨hon, hkey, htarget⟩ := Plan.forall_references.mp h
  unfold evaluateOn
  refine (joinRows_missing hon).bind fun _ _ => ?_
  refine (FailsOnly.mapM fun key hk => bind_missing (hkey key hk)).bind fun _ _ => ?_
  refine FailsOnly.bind (FailsOnly.mapM fun a ha => ?_) fun _ _ => .ok _
  refine FailsOnly.bind ?_ fun _ _ => .ok _
  unfold bindTarget
  split
  · exact .ok _
  · next c hc =>
    refine (bind_missing (htarget a ha c ?_)).bind fun _ _ => .ok _
    rw [hc]
    rfl

/-- A plan whose nested plans have run fails only for want of a table or a column. -/
theorem evaluate_missing {p : Plan} (hp : p.InRange) (hd : derived.length = p.subPlans.length) :
    FailsOnly ExecutionError.IsMissing (evaluate tables derived p) := by
  have horigin : ∀ origin ∈ p.origins,
      FailsOnly ExecutionError.IsMissing (baseRelation tables derived origin) := fun origin hmem =>
    baseRelation_missing fun position heq => hd ▸ hp.origins position (heq ▸ hmem)
  obtain ⟨hbase, hjoins⟩ := List.forall_mem_cons.mp horigin
  simp only [evaluate_eq, joinRelation_eq]
  refine hbase.bind fun base _ => ?_
  refine FailsOnly.bind (FailsOnly.mapM fun j hj => hjoins _ (List.mem_map_of_mem hj)) fun targets ht => ?_
  refine evaluateOn_missing fun c hc => ?_
  have hlength : p.joins.length = targets.length := (mapM_eq_ok_iff.mp ht).length_eq
  rw [List.length_cons, ← hlength, ← Plan.origins_length]
  exact hp.references c hc

theorem run_missing {p : Plan} (hp : p.InRange)
    (hnested : ∀ e ∈ p.subPlans, FailsOnly ExecutionError.IsMissing (run tables e.2)) :
    FailsOnly ExecutionError.IsMissing (run tables p) := by
  rw [run_eq]
  refine FailsOnly.bind (FailsOnly.mapM fun e he => (hnested e he).bind fun _ _ => .ok _) fun derived hd => ?_
  exact evaluate_missing hp (mapM_eq_ok_iff.mp hd).length_eq.symm

/-! ## When a plan runs -/

theorem origins_relations {p : Plan} {base : Relation} {targets : List Relation} :
    List.Forall₂ (fun origin r => baseRelation tables derived origin = .ok r) p.origins (base :: targets) ↔
      baseRelation tables derived p.base = .ok base ∧
        List.Forall₂ (fun j r => joinRelation tables derived j = .ok r) p.joins targets := by
  simp only [Plan.origins, List.forall₂_cons, List.forall₂_map_left_iff, joinRelation_eq]

theorem run_columns {p : Plan} {result : Result} (h : run tables p = .ok result) :
    result.columns = p.outputColumns := by
  obtain ⟨_, _, _, -, -, -, heval⟩ := run_eq_ok_iff.mp h
  exact (evaluateOn_length heval).1

theorem columnsFrom?_eq {p : Plan} (hd : List.Forall₂ (Ran tables) p.subPlans derived) {origin : Base}
    {r : Relation} (h : baseRelation tables derived origin = .ok r) :
    p.columnsFrom? tables origin = some r.columns := by
  cases origin with
  | table name =>
    have hget : tables.get name = .ok r := h
    rw [Plan.columnsFrom?, hget]
    rfl
  | subPlan position =>
    have hr : derived[position]? = some r := by
      have h : derivedRelation derived position = .ok r := h
      unfold derivedRelation at h
      split at h
      · next hr => rw [hr, Except.ok.inj h]
      · cases h
    obtain ⟨nested, hnested, result, hrun, rfl⟩ := forall₂_getElem? hd.flip hr
    rw [Plan.columnsFrom?, hnested, Option.map_some, ← run_columns hrun]

/-- **When a plan runs**: its nested plans run, and it lacks neither a table nor a column. -/
theorem exists_run_iff {p : Plan} (hp : p.InRange) : (∃ result, run tables p = .ok result) ↔
    (∀ e ∈ p.subPlans, ∃ result, run tables e.2 = .ok result) ∧ ¬ p.Lacks tables := by
  constructor
  · rintro ⟨result, h⟩
    obtain ⟨derived, base, targets, hd, hb, ht, heval⟩ := run_eq_ok_iff.mp h
    have horigins := origins_relations.mpr ⟨hb, ht⟩
    refine ⟨fun e he => ?_, fun hlacks => ?_⟩
    · obtain ⟨_, -, result, hrun, -⟩ := forall₂_mem hd he
      exact ⟨result, hrun⟩
    · cases hlacks with
      | table hmem hno =>
        obtain ⟨r, -, hr⟩ := forall₂_mem horigins hmem
        exact hno r hr
      | column hc horigin hcolumns hnot =>
        obtain ⟨r, hr, hfield⟩ := exists_evaluateOn_iff.mp ⟨result, heval⟩ _ hc
        obtain ⟨r', hr', hbase⟩ := forall₂_getElem? horigins horigin
        cases hr.symm.trans hr'
        cases hcolumns.symm.trans (columnsFrom?_eq hd hbase)
        exact hnot hfield
  · rintro ⟨hnested, hlacks⟩
    have hran : ∀ e ∈ p.subPlans, ∃ r, Ran tables e r := fun e he =>
      (hnested e he).elim fun result hrun => ⟨_, result, hrun, rfl⟩
    obtain ⟨derived, hd⟩ := forall₂_exists hran
    have hfound : ∀ origin ∈ p.origins, ∃ r, baseRelation tables derived origin = .ok r := by
      intro origin hmem
      cases origin with
      | table name =>
        by_contra hno
        exact hlacks (.table hmem fun r hr => hno ⟨r, hr⟩)
      | subPlan position =>
        have hlt : position < derived.length := hd.length_eq ▸ hp.origins position hmem
        exact ⟨derived[position], by rw [baseRelation, derivedRelation, List.getElem?_eq_getElem hlt]⟩
    obtain ⟨relations, hrelations⟩ := forall₂_exists hfound
    obtain ⟨base, targets, -, -, rfl⟩ := List.forall₂_cons_left_iff.mp hrelations
    obtain ⟨hb, ht⟩ := origins_relations.mp hrelations
    obtain ⟨result, heval⟩ : ∃ result, evaluateOn base targets p = .ok result := by
      refine exists_evaluateOn_iff.mpr fun c hc => ?_
      have horigin := List.getElem?_eq_getElem (hp.references c hc)
      obtain ⟨r, hr, hbase⟩ := forall₂_getElem? hrelations horigin
      refine ⟨r, hr, ?_⟩
      by_contra hnot
      exact hlacks (.column hc horigin (columnsFrom?_eq hd hbase) hnot)
    exact ⟨result, run_eq_ok_iff.mpr ⟨derived, base, targets, hd, hb, ht, heval⟩⟩

end Engine

end Joinery
