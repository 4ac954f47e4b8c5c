/-
Leaving relations out of the joined rows.

A list of flags says which relations stay (`thin`, with `rank` for the new
positions). If a plan is another one with some joins left out that nothing else
hangs off, then its joined rows are the other ones without the relations that
are left out, each row once (`joinRows_thin`): a join that is left out repeats
every row, but drops none and keeps the order.
-/
import Joinery.Proofs.Relation.Evaluate

namespace Joinery.Engine

open Json (Value)

/-! ## Positions that stay -/

/-- The members at the positions that stay. -/
def thin {α : Type} : List Bool → List α → List α
  | true :: keep, x :: xs => x :: thin keep xs
  | false :: keep, _ :: xs => thin keep xs
  | _, _ => []

/-- How many positions before a position stay. -/
def rank : List Bool → Nat → Nat
  | b :: keep, i + 1 => rank keep i + b.toNat
  | _, _ => 0

theorem thin_getElem? {α : Type} : ∀ {keep : List Bool} {i : Nat} (xs : List α),
    keep[i]? = some true → (thin keep xs)[rank keep i]? = xs[i]?
  | [], i, _, h => by simp at h
  | b :: keep, 0, [], h => by simp [thin]
  | b :: keep, 0, x :: xs, h => by
    simp only [List.getElem?_cons_zero, Option.some.injEq] at h
    subst h
    rfl
  | b :: keep, i + 1, [], h => by simp [thin]
  | true :: keep, i + 1, x :: xs, h => thin_getElem? xs (show keep[i]? = some true from h)
  | false :: keep, i + 1, x :: xs, h => thin_getElem? xs (show keep[i]? = some true from h)

theorem thin_map {α : Type} (q : α → Bool) (xs : List α) : thin (xs.map q) xs = xs.filter q := by
  induction xs with
  | nil => rfl
  | cons x xs ih =>
    rw [List.map_cons, List.filter_cons]
    cases h : q x <;> simp [thin, ih]

theorem thin_append {α : Type} (x : α) : ∀ (keep : List Bool) (xs : List α) {b : Bool},
    keep[xs.length]? = some b → thin keep (xs ++ [x]) = thin keep xs ++ if b then [x] else []
  | [], _, _, h => by simp at h
  | c :: keep, [], b, h => by
    simp only [List.length_nil, List.getElem?_cons_zero, Option.some.injEq] at h
    subst h
    cases c <;> simp [thin]
  | true :: keep, y :: ys, _, h => congrArg (y :: ·) (thin_append x keep ys h)
  | false :: keep, _ :: ys, _, h => thin_append x keep ys h

theorem thin_append_true {α : Type} (x : α) {keep : List Bool} {xs : List α}
    (h : keep[xs.length]? = some true) : thin keep (xs ++ [x]) = thin keep xs ++ [x] :=
  thin_append x keep xs h

theorem thin_append_false {α : Type} (x : α) {keep : List Bool} {xs : List α}
    (h : keep[xs.length]? = some false) : thin keep (xs ++ [x]) = thin keep xs := by
  rw [thin_append x keep xs h]
  exact List.append_nil _

theorem rank_zero (keep : List Bool) : rank keep 0 = 0 := by
  cases keep <;> rfl

theorem rank_succ : ∀ {keep : List Bool} {i : Nat} {b : Bool}, keep[i]? = some b →
    rank keep (i + 1) = rank keep i + b.toNat
  | [], i, _, h => by simp at h
  | c :: keep, 0, b, h => by
    simp only [List.getElem?_cons_zero, Option.some.injEq] at h
    subst h
    cases keep <;> simp [rank]
  | c :: keep, i + 1, b, h => by
    have ih := rank_succ (show keep[i]? = some b from h)
    simp only [rank] at ih ⊢
    omega

/-! ## Columns that stay -/

/-- The relation stays, and comes to stand at the other slot. -/
def SameSlot (keep : List Bool) (a b : Slot) : Prop :=
  keep[a.index]? = some true ∧ b.index = rank keep a.index

/-- The same column, once only some relations stay. -/
def SameColumn (keep : List Bool) (a b : Column) : Prop :=
  SameSlot keep a.slot b.slot ∧ b.field = a.field

/-- The same place, once only some relations stay. -/
def SamePlace (keep : List Bool) (a b : Place) : Prop :=
  keep[a.relation]? = some true ∧ b.relation = rank keep a.relation ∧ b.column = a.column

variable {keep : List Bool} {relations : List Relation}

theorem cellAt_thin {a b : Place} (h : SamePlace keep a b) (row : Option Nat) :
    cellAt (thin keep relations) b row = cellAt relations a row := by
  rw [cellAt, cellAt, h.2.1, h.2.2, thin_getElem? relations h.1]

theorem cell_thin {a b : Place} (h : SamePlace keep a b) (row : JoinedRow) :
    cell (thin keep relations) (thin keep row) b = cell relations row a := by
  rw [cell, cell, cellAt_thin h, h.2.1, thin_getElem? row h.1]

theorem bind_thin {a b : Column} (h : SameColumn keep a b) {place : Place}
    (hp : bind relations a = .ok place) :
    ∃ place', bind (thin keep relations) b = .ok place' ∧ SamePlace keep place place' := by
  obtain ⟨⟨hk, hi⟩, hf⟩ := h
  unfold bind at hp ⊢
  rw [hi, hf, thin_getElem? relations hk]
  cases hr : relations[a.slot.index]? with
  | none => rw [hr] at hp; cases hp
  | some r =>
    rw [hr] at hp
    simp only [bind_eq_ok_iff, pure_eq_ok_iff] at hp ⊢
    obtain ⟨column, hc, rfl⟩ := hp
    exact ⟨_, ⟨column, hc, rfl⟩, hk, rfl, rfl⟩

/-! ## Joins that stay -/

/-- Pairs that are related side by side. -/
def SamePair (R : α → β → Prop) (a : α × α) (b : β × β) : Prop := R a.1 b.1 ∧ R a.2 b.2

/-- The join is the other one with its columns where they come to stand. -/
structure SameJoin (keep : List Bool) (a b : PlannedJoin) : Prop where
  target : b.target = a.target
  cardinality : b.cardinality = a.cardinality
  on : List.Forall₂ (SamePair (SameColumn keep)) a.on.equalities b.on.equalities

/-- The joins that stay, by the flags of the joins. -/
inductive SameJoins (keep : List Bool) : List Bool → List PlannedJoin → List PlannedJoin → Prop where
  | nil : SameJoins keep [] [] []
  | keep {flags : List Bool} {a b : PlannedJoin} {as bs : List PlannedJoin} (h : SameJoin keep a b)
    (hs : SameJoins keep flags as bs) : SameJoins keep (true :: flags) (a :: as) (b :: bs)
  | drop {flags : List Bool} {a : PlannedJoin} {as bs : List PlannedJoin}
    (hs : SameJoins keep flags as bs) : SameJoins keep (false :: flags) (a :: as) bs

/-- What holds of each join with its relation holds of those that stay, if it looks at the targets of
the joins only. -/
theorem SameJoins.forall₂ {R : PlannedJoin → Relation → Prop}
    (hR : ∀ a b r, b.target = a.target → R a r → R b r) {flags : List Bool}
    {as bs : List PlannedJoin} (h : SameJoins keep flags as bs) {targets : List Relation}
    (ht : List.Forall₂ R as targets) : List.Forall₂ R bs (thin flags targets) := by
  induction h generalizing targets with
  | nil =>
    cases ht
    exact .nil
  | keep hab _ ih =>
    cases ht with
    | cons hr hrest => exact .cons (hR _ _ _ hab.target hr) (ih hrest)
  | drop _ ih =>
    cases ht with
    | cons _ hrest => exact ih hrest

theorem bindEqualities_thin {a b : BoundCondition} {places : List (Place × Place)}
    (h : List.Forall₂ (SamePair (SameColumn keep)) a.equalities b.equalities)
    (hp : bindEqualities relations a = .ok places) :
    ∃ places', bindEqualities (thin keep relations) b = .ok places' ∧
      List.Forall₂ (SamePair (SamePlace keep)) places places' := by
  unfold bindEqualities at hp ⊢
  rw [mapM_eq_ok_iff] at hp
  simp only [mapM_eq_ok_iff]
  generalize a.equalities = as at h hp
  generalize b.equalities = bs at h
  induction h generalizing places with
  | nil =>
    cases hp
    exact ⟨[], .nil, .nil⟩
  | cons hab _ ih =>
    cases hp with
    | cons hx hxs =>
      obtain ⟨ys, hys, hsame⟩ := ih hxs
      simp only [bind_eq_ok_iff, pure_eq_ok_iff] at hx
      obtain ⟨l, hl, r, hr, rfl⟩ := hx
      obtain ⟨l', hl', hll⟩ := bind_thin hab.1 hl
      obtain ⟨r', hr', hrr⟩ := bind_thin hab.2 hr
      refine ⟨(l', r') :: ys, .cons ?_ hys, .cons ⟨hll, hrr⟩ hsame⟩
      simp only [hl', hr']
      rfl

theorem satisfies_thin {as bs : List (Place × Place)}
    (h : List.Forall₂ (SamePair (SamePlace keep)) as bs) (row : JoinedRow) :
    satisfies (thin keep relations) bs (thin keep row) = satisfies relations as row := by
  induction h with
  | nil => rfl
  | @cons a b as bs hab _ ih =>
    obtain ⟨l, r⟩ := a
    obtain ⟨l', r'⟩ := b
    unfold satisfies at ih ⊢
    rw [List.all_cons, List.all_cons, ih]
    simp only [cell_thin hab.1, cell_thin hab.2]

/-- What a join that stays finds does not depend on the relations that are left out. -/
theorem matchesOf_thin {as bs : List (Place × Place)}
    (h : List.Forall₂ (SamePair (SamePlace keep)) as bs) (size : Nat) {row : JoinedRow}
    (hrow : keep[row.length]? = some true) :
    matchesOf (thin keep relations) bs size (thin keep row) = matchesOf relations as size row := by
  unfold matchesOf
  refine List.filter_congr fun candidate _ => ?_
  rw [← thin_append_true (some candidate) hrow, satisfies_thin h]

/-! ## Joined rows -/

/-- What a joined row is extended by: its matches, as far as the cardinality admits them, or no
row. -/
def choices (cardinality : Cardinality) (found : List Nat) : List (Option Nat) :=
  match found, cardinality with
  | [], _ => [none]
  | first :: _, .one => [some first]
  | found, .many => found.map some

theorem extend_eq (cardinality : Cardinality) (row : JoinedRow) (found : List Nat) :
    extend cardinality row found = (choices cardinality found).map fun x => row ++ [x] := by
  cases found with
  | nil => rfl
  | cons first rest => cases cardinality <;> simp [extend, choices]

theorem choices_ne_nil (cardinality : Cardinality) (found : List Nat) :
    choices cardinality found ≠ [] := by
  cases found with
  | nil => simp [choices]
  | cons first rest => cases cardinality <;> simp [choices]

theorem choices_nodup (cardinality : Cardinality) {found : List Nat} (h : found.Nodup) :
    (choices cardinality found).Nodup := by
  cases found with
  | nil => simp [choices]
  | cons first rest =>
    cases cardinality with
    | one => simp [choices]
    | many => exact h.map fun _ _ => Option.some.inj

/-- The extensions of different rows are different. -/
theorem extensions_disjoint {xs ys : List (Option Nat)} {row row' : JoinedRow} (h : row ≠ row') :
    List.Disjoint (xs.map fun x => row ++ [x]) (ys.map fun y => row' ++ [y]) := by
  intro out hx hy
  obtain ⟨x, -, rfl⟩ := List.mem_map.mp hx
  obtain ⟨y, -, he⟩ := List.mem_map.mp hy
  exact h (List.append_inj' he rfl).1.symm

/-- A join that stays extends the rows that stay. -/
theorem extended_thin {as bs : List (Place × Place)} {rows : List JoinedRow} (c : Cardinality)
    (h : List.Forall₂ (SamePair (SamePlace keep)) as bs) (size : Nat)
    (hrows : ∀ row ∈ rows, keep[row.length]? = some true) :
    ((rows.flatMap fun row => extend c row (matchesOf relations as size row)).map
        (thin keep)).eraseDups =
      (rows.map (thin keep)).eraseDups.flatMap fun row =>
        extend c row (matchesOf (thin keep relations) bs size row) := by
  have hrow : ∀ row ∈ rows, (extend c row (matchesOf relations as size row)).map (thin keep) =
      extend c (thin keep row) (matchesOf (thin keep relations) bs size (thin keep row)) := by
    intro row hr
    rw [matchesOf_thin h size (hrows row hr), extend_eq, extend_eq, List.map_map]
    exact List.map_congr_left fun x _ => thin_append_true x (hrows row hr)
  rw [List.map_flatMap, List.flatMap_congr hrow, ← List.flatMap_map (thin keep) fun row =>
    extend c row (matchesOf (thin keep relations) bs size row)]
  refine eraseDups_flatMap_of_disjoint (fun row => ?_) (fun row row' hne => ?_) _
  · rw [extend_eq]
    refine (choices_nodup c (List.nodup_range.filter _)).map fun x y hxy => ?_
    exact (List.cons.inj (List.append_cancel_left hxy)).1
  · rw [extend_eq, extend_eq]
    exact extensions_disjoint hne

/-- A join that is left out only repeats rows. -/
theorem repeated_thin {rows : List JoinedRow} (c : Cardinality) (found : JoinedRow → List Nat)
    (hrows : ∀ row ∈ rows, keep[row.length]? = some false) :
    ((rows.flatMap fun row => extend c row (found row)).map (thin keep)).eraseDups =
      (rows.map (thin keep)).eraseDups := by
  rw [List.map_flatMap, List.map_eq_flatMap]
  refine eraseDups_flatMap_congr fun row hr => ?_
  have hsame : (extend c row (found row)).map (thin keep) =
      (choices c (found row)).map fun _ => thin keep row := by
    rw [extend_eq, List.map_map]
    exact List.map_congr_left fun x _ => thin_append_false x (hrows row hr)
  rw [hsame, eraseDups_map_const _ (choices_ne_nil c (found row))]
  rfl

theorem extended_length {c : Cardinality} {f : JoinedRow → List Nat} {rows : List JoinedRow}
    {n : Nat} (hrows : ∀ row ∈ rows, row.length = n) :
    ∀ row ∈ rows.flatMap fun row => extend c row (f row), row.length = n + 1 := by
  intro row hr
  obtain ⟨r, hmem, hr⟩ := List.mem_flatMap.mp hr
  rw [extend_eq] at hr
  obtain ⟨x, -, rfl⟩ := List.mem_map.mp hr
  rw [List.length_append, hrows r hmem]
  rfl

/-- **The joins that stay join the rows that stay**: leaving joins out leaves their relations out
of the joined rows, and then takes out repeats. -/
theorem joinRows_thin {flags : List Bool} {as bs : List PlannedJoin} (h : SameJoins keep flags as bs) :
    ∀ (done : List Bool) {rows out : List JoinedRow}, keep = done ++ flags →
      (∀ row ∈ rows, row.length = done.length) →
      joinRows relations done.length rows as = .ok out →
      joinRows (thin keep relations) (rank keep done.length) (rows.map (thin keep)).eraseDups bs =
        .ok (out.map (thin keep)).eraseDups := by
  induction h with
  | nil =>
    intro done rows out _ _ hout
    cases hout
    rfl
  | @keep flags a b as bs hab _ ih =>
    intro done rows out hkeep hrows hout
    have hnext : keep[done.length]? = some true := by simp [hkeep]
    simp only [joinRows, bind_eq_ok_iff] at hout ⊢
    obtain ⟨places, hp, hout⟩ := hout
    obtain ⟨places', hp', hsame⟩ := bindEqualities_thin hab.on hp
    refine ⟨places', hp', ?_⟩
    have hlength := extended_length (c := a.cardinality) (f := fun row => matchesOf relations places
      ((relations[done.length]?.map (·.rows.length)).getD 0) row) hrows
    have hdone : (done ++ [true]).length = done.length + 1 := List.length_append
    rw [← hdone] at hlength hout
    have rest := ih (done ++ [true]) (by simp [hkeep]) hlength hout
    rw [extended_thin a.cardinality hsame _ fun row hr => by rw [hrows row hr]; exact hnext] at rest
    rw [thin_getElem? relations hnext, hab.cardinality]
    rw [hdone, rank_succ hnext] at rest
    exact rest
  | @drop flags a as bs _ ih =>
    intro done rows out hkeep hrows hout
    have hnext : keep[done.length]? = some false := by simp [hkeep]
    simp only [joinRows, bind_eq_ok_iff] at hout
    obtain ⟨places, hp, hout⟩ := hout
    have hlength := extended_length (c := a.cardinality) (f := fun row => matchesOf relations places
      ((relations[done.length]?.map (·.rows.length)).getD 0) row) hrows
    have hdone : (done ++ [false]).length = done.length + 1 := List.length_append
    rw [← hdone] at hlength hout
    have rest := ih (done ++ [false]) (by simp [hkeep]) hlength hout
    rw [repeated_thin a.cardinality _ fun row hr => by rw [hrows row hr]; exact hnext] at rest
    rw [hdone, rank_succ hnext] at rest
    exact rest

/-! ## Groups -/

/-- A group without the relations that are left out. -/
def thinGroup (keep : List Bool) (g : Group) : Group :=
  { g with rows := (g.rows.map (thin keep)).eraseDups }

theorem groupsBy_thin {cells cells' : JoinedRow → List Value}
    (h : ∀ row, cells' (thin keep row) = cells row) (rows : List JoinedRow) :
    groupsBy cells' (rows.map (thin keep)).eraseDups =
      (groupsBy cells rows).map (thinGroup keep) := by
  have hsignature : signatureOf cells' ∘ thin keep = signatureOf cells := by
    funext row
    exact congrArg Cell.signature (h row)
  have hgroup (t : String) : groupOf cells' (rows.map (thin keep)).eraseDups t =
      thinGroup keep (groupOf cells rows t) := by
    have hsame : (signatureOf cells' · == t) ∘ thin keep = (signatureOf cells · == t) := by
      rw [← hsignature]
      rfl
    have hcells : cells' ∘ thin keep = cells := funext h
    simp only [groupOf, thinGroup, find?_eraseDups, ← eraseDups_filter, List.find?_map,
      List.filter_map, hsame, Option.map_map, hcells]
  unfold groupsBy
  rw [eraseDups_map_eraseDups, List.map_map, hsignature, List.map_map]
  exact List.map_congr_left fun t _ => hgroup t

theorem groups_thin {as bs : List Place} (h : List.Forall₂ (SamePlace keep) as bs)
    (rows : List JoinedRow) :
    groups (thin keep relations) bs (rows.map (thin keep)).eraseDups =
      (groups relations as rows).map (thinGroup keep) := by
  have hcells (row : JoinedRow) :
      bs.map (cell (thin keep relations) (thin keep row)) = as.map (cell relations row) := by
    induction h with
    | nil => rfl
    | cons hab _ ih => rw [List.map_cons, List.map_cons, ih, cell_thin hab]
  rw [groups_eq, groups_eq]
  cases h with
  | nil => rfl
  | cons hab hrest =>
    rw [if_neg (List.cons_ne_nil _ _), if_neg (List.cons_ne_nil _ _)]
    exact groupsBy_thin hcells rows

/-! ## Aggregates -/

/-- What an aggregate takes stays. -/
inductive SameInput (keep : List Bool) : Input → Input → Prop where
  | rows {r : Nat} (h : keep[r]? = some true) : SameInput keep (.rows r) (.rows (rank keep r))
  | column {a b : Place} (h : SamePlace keep a b) : SameInput keep (.column a) (.column b)

/-- The same target, once only some relations stay. -/
inductive SameTarget (keep : List Bool) : AggregateTarget → AggregateTarget → Prop where
  | rows {a b : Slot} (h : SameSlot keep a b) : SameTarget keep (.rows a) (.rows b)
  | column {a b : Column} (h : SameColumn keep a b) : SameTarget keep (.column a) (.column b)

theorem bindTarget_thin {a b : AggregateTarget} (h : SameTarget keep a b) {input : Input}
    (hi : bindTarget relations a = .ok input) :
    ∃ input', bindTarget (thin keep relations) b = .ok input' ∧ SameInput keep input input' := by
  cases h with
  | @rows a b h =>
    cases hi
    exact ⟨.rows b.index, rfl, h.2 ▸ .rows h.1⟩
  | @column a b h =>
    simp only [bindTarget, bind_eq_ok_iff, pure_eq_ok_iff] at hi ⊢
    obtain ⟨place, hp, rfl⟩ := hi
    obtain ⟨place', hp', hsame⟩ := bind_thin h hp
    exact ⟨_, ⟨place', hp', rfl⟩, .column hsame⟩

/-- The rows of a relation that stays, each once, are the same. -/
theorem distinctRows_thin {r : Nat} (h : keep[r]? = some true) (rows : List JoinedRow) :
    distinctRows (rank keep r) (rows.map (thin keep)).eraseDups = distinctRows r rows := by
  unfold distinctRows
  rw [eraseDups_filterMap_eraseDups, List.filterMap_map]
  refine congrArg List.eraseDups (List.filterMap_congr fun row _ => ?_)
  simp only [Function.comp_apply, thin_getElem? row h]

/-- An aggregate sees the relation that it is over, and no other. -/
theorem aggregate_thin {a b : Input} (h : SameInput keep a b) (op : Operator) (rows : List JoinedRow) :
    aggregate (thin keep relations) op (rows.map (thin keep)).eraseDups b =
      aggregate relations op rows a := by
  cases h with
  | rows h => rw [aggregate, aggregate, distinctRows_thin h]
  | @column a b h =>
    have hcells : inputCells (thin keep relations) b (rows.map (thin keep)).eraseDups =
        inputCells relations a rows := by
      unfold inputCells
      rw [h.2.1, distinctRows_thin h.1]
      refine congrArg _ (List.map_congr_left fun row _ => ?_)
      exact cellAt_thin h (some row)
    rw [aggregate, aggregate, hcells]

/-! ## Plans -/

/-- Of some members the first ones, and one of those that follow. -/
def alone {α : Type} (keys i : Nat) (xs : List α) : List α := xs.take keys ++ xs[keys + i]?.toList

theorem alone_append {α : Type} {keys i : Nat} {xs ys : List α} {y : α} (hx : xs.length = keys)
    (hy : ys[i]? = some y) : alone keys i (xs ++ ys) = xs ++ [y] := by
  subst hx
  rw [alone, List.take_left, List.getElem?_append_right (Nat.le_add_right _ _),
    Nat.add_sub_cancel_left, hy]
  rfl

/-- The second plan has the keys of the first, of its aggregates the one at a position, and of its
joins those that stay. -/
structure Thins (flags : List Bool) (i : Nat) (p q : Plan) : Prop where
  joins : SameJoins (true :: flags) flags p.joins q.joins
  keys : List.Forall₂ (fun a b => SameColumn (true :: flags) a.column b.column ∧ b.name = a.name)
    p.groupBy q.groupBy
  aggregate : ∃ a b, p.aggregates[i]? = some a ∧ q.aggregates = [b] ∧ b.op = a.op ∧
    b.name = a.name ∧ SameTarget (true :: flags) a.target b.target

theorem bindKeys_thin {as bs : List GroupingKey} {places : List Place}
    (h : List.Forall₂ (fun a b => SameColumn keep a.column b.column ∧ b.name = a.name) as bs)
    (hp : List.Forall₂ (fun (k : GroupingKey) place => bind relations k.column = .ok place) as places) :
    ∃ places', List.Forall₂ (fun (k : GroupingKey) place =>
        bind (thin keep relations) k.column = .ok place) bs places' ∧
      List.Forall₂ (SamePlace keep) places places' := by
  induction h generalizing places with
  | nil =>
    cases hp
    exact ⟨[], .nil, .nil⟩
  | cons hab _ ih =>
    cases hp with
    | cons hx hxs =>
      obtain ⟨place', hp', hsame⟩ := bind_thin hab.1 hx
      obtain ⟨rest, hrest, hsames⟩ := ih hxs
      exact ⟨place' :: rest, .cons hp' hrest, .cons hsame hsames⟩

theorem outputColumns_thin {flags : List Bool} {i : Nat} {p q : Plan} (h : Thins flags i p q) :
    q.outputColumns = alone p.groupBy.length i p.outputColumns := by
  obtain ⟨a, b, ha, hb, _, hname, _⟩ := h.aggregate
  have hnames : p.groupBy.map (·.name) = q.groupBy.map (·.name) :=
    forall₂_map_eq (fun _ _ hk => hk.2.symm) h.keys
  have ha' : (p.aggregates.map (·.name))[i]? = some a.name := by
    rw [List.getElem?_map, ha]
    rfl
  rw [Plan.outputColumns, Plan.outputColumns, alone_append (List.length_map _) ha', hb, hnames,
    List.map_singleton, hname]

/-- **A plan with one of the aggregates gives the keys and the cells of that aggregate**, row for
row, whatever the other aggregates join. -/
theorem evaluateOn_thin {flags : List Bool} {i : Nat} {p q : Plan} (h : Thins flags i p q)
    {base : Relation} {targets : List Relation} {result : Result}
    (hr : evaluateOn base targets p = .ok result) :
    ∃ result', evaluateOn base (thin flags targets) q = .ok result' ∧
      result'.columns = alone p.groupBy.length i result.columns ∧
      result'.rows = result.rows.map (alone p.groupBy.length i) := by
  obtain ⟨a, b, ha, hb, hop, _, htarget⟩ := h.aggregate
  simp only [evaluateOn, bind_eq_ok_iff, pure_eq_ok_iff, mapM_eq_ok_iff] at hr
  obtain ⟨rows, hrows, keys, hkeys, inputs, hinputs, rfl⟩ := hr
  have hstart : (((List.range base.rows.length).map fun position => [some position]).map
      (thin (true :: flags))).eraseDups =
        (List.range base.rows.length).map fun position => [some position] := by
    rw [List.map_map, show thin (true :: flags) ∘ (fun position => [some position]) =
      fun position : Nat => [some position] from funext fun position => by simp [thin]]
    refine eraseDups_of_nodup (List.nodup_range.map fun x y hxy => ?_)
    exact Option.some.inj (List.cons.inj hxy).1
  have hone : rank (true :: flags) 1 = 1 := by rw [rank, rank_zero]; rfl
  have hjoined := joinRows_thin h.joins [true] rfl (by simp) hrows
  rw [hstart, List.length_singleton, hone] at hjoined
  obtain ⟨keys', hkeys', hsame⟩ := bindKeys_thin h.keys hkeys
  obtain ⟨⟨op, input⟩, hi, hinput⟩ := forall₂_getElem? hinputs ha
  simp only [Prod.mk.injEq] at hinput
  obtain ⟨_, hinput, rfl, rfl⟩ := hinput
  obtain ⟨input', hinput', hsameInput⟩ := bindTarget_thin htarget hinput
  refine ⟨⟨q.outputColumns, _⟩, ?_, outputColumns_thin h, rfl⟩
  simp only [evaluateOn, bind_eq_ok_iff, pure_eq_ok_iff, mapM_eq_ok_iff, hb]
  refine ⟨_, hjoined, keys', hkeys', [(b.op, input')], .cons ?_ .nil, ?_⟩
  · exact ⟨input', hinput', rfl⟩
  refine congrArg (Result.mk q.outputColumns) ?_
  rw [show base :: thin flags targets = thin (true :: flags) (base :: targets) from rfl,
    groups_thin hsame rows, List.map_map, List.map_map]
  refine List.map_congr_left fun g hg => ?_
  have hlength : g.keys.length = p.groupBy.length :=
    (groups_keys_length hg).trans hkeys.length_eq.symm
  simp only [Function.comp_apply, thinGroup, List.map_cons, List.map_nil,
    aggregate_thin hsameInput b.op g.rows]
  rw [alone_append hlength (by rw [List.getElem?_map, hi]; rfl), hop]

end Joinery.Engine
