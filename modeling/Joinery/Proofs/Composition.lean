/-
Paths compose.

The front of a path goes over joins to some source, perhaps behind the name of the start (`Over`). What
follows is resolved from there, whatever sources and joins the walk has been over: its end is found
behind the joins so far, and its error is the same, but for a position, which is counted from the start
of the whole path (`Over.resolveFrom_append`). A path that ends at a join is such a front for what is put behind
it (`resolveFrom_append`). The name of a source is passed over at the start of a path only, so what
follows must not stand behind the name of its source (`Plain`).
-/
import Joinery.Proofs.Plan.Leads

namespace Joinery

/-- One path behind another. -/
instance : Append Path := ⟨fun p q => ⟨p.segments ++ q.segments⟩⟩

@[simp] theorem Path.segments_append (p q : Path) : (p ++ q).segments = p.segments ++ q.segments := rfl

/-- A path behind so many rounds of another. -/
def Path.rounds (p q : Path) : Nat → Path
  | 0 => q
  | n + 1 => p ++ p.rounds q n

/-- What is found behind some joins. -/
def Resolved.behind (joins : List Field) (r : Resolved) : Resolved := { r with joins := joins ++ r.joins }

theorem Resolved.behind_behind (fs gs : List Field) (r : Resolved) :
    (r.behind gs).behind fs = r.behind (fs ++ gs) := by
  simp [behind]

/-- The error of a path in front of which so many segments stand. -/
def ResolutionError.shift (n : Nat) : ResolutionError → ResolutionError
  | .unknownSegment source segment position => .unknownSegment source segment (n + position)
  | e => e

theorem ResolutionError.shift_shift (n m : Nat) (e : ResolutionError) :
    (e.shift m).shift n = e.shift (n + m) := by
  cases e <;> simp [shift, Nat.add_assoc]

namespace Store

variable {s : Store} {start there : Source} {p q : Path} {r : Resolved} {joins : List Field}
  {front rest : List String}

/-- The outcome of a path that stands behind so many segments and some joins. -/
def onward (segments : Nat) (joins : List Field) (x : Except ResolutionError Resolved) :
    Except ResolutionError Resolved :=
  (x.map (.behind joins)).mapError (.shift segments)

theorem onward_nil (x : Except ResolutionError Resolved) : onward 0 [] x = x := by
  cases x with
  | ok r => rfl
  | error e => cases e <;> simp [onward, Except.map, Except.mapError, ResolutionError.shift]

theorem onward_onward (m n : Nat) (fs gs : List Field) (x : Except ResolutionError Resolved) :
    onward n fs (onward m gs x) = onward (n + m) (fs ++ gs) x := by
  cases x with
  | ok r => simp [onward, Except.map, Except.mapError, Resolved.behind_behind]
  | error e => simp [onward, Except.map, Except.mapError, ResolutionError.shift_shift]

/-! ## Walks -/

theorem follow_of_target? {f : Field} {target : Source} (here : Source) (h : s.target? f = some target) :
    s.follow here f = .ok target := by
  obtain ⟨join, hj, hn⟩ := Option.bind_eq_some_iff.mp h
  simp only [follow, hj, hn]

theorem lookup_shift (here : Source) (segment : String) (n position : Nat) :
    s.lookup here segment (n + position) = (s.lookup here segment position).mapError (.shift n) := by
  unfold lookup
  cases s.fieldNamed? here.id segment <;> rfl

theorem follow_shift (here : Source) (f : Field) (n : Nat) :
    (s.follow here f).mapError (.shift n) = s.follow here f := by
  unfold follow
  split
  · rfl
  · split <;> rfl

theorem walk_shift : ∀ (segments : List String) (here : Source) (n position : Nat),
    s.walk here (n + position) segments = (s.walk here position segments).mapError (.shift n)
  | [], _, _, _ => rfl
  | [final], here, n, position => by
    rw [walk, walk, lookup_shift, mapError_bind]
    rfl
  | segment :: next :: rest, here, n, position => by
    simp only [walk, mapError_bind, lookup_shift, follow_shift, Nat.add_assoc,
      walk_shift (next :: rest)]
    rfl

theorem walk_step {here next : Source} {f : Field} (hf : s.fieldNamed? here.id f.name = some f)
    (ht : s.target? f = some next) (hrest : rest ≠ []) (position : Nat) :
    s.walk here position (f.name :: rest) = onward (position + 1) [f] (s.walk next 0 rest) := by
  obtain ⟨second, more, rfl⟩ := List.exists_cons_of_ne_nil hrest
  have hlookup : s.lookup here f.name position = .ok f := by rw [lookup, hf]
  simp only [walk, hlookup]
  show (s.follow here f >>= fun target => s.walk target (position + 1) (second :: more) >>= fun r =>
    pure (r.behind [f])) = _
  rw [follow_of_target? here ht]
  show (s.walk next (position + 1 + 0) (second :: more) >>= fun r => pure (r.behind [f])) = _
  rw [walk_shift]
  cases s.walk next 0 (second :: more) <;> rfl

/-- The names of joins are walked over to where they lead. -/
theorem Leads.walk (hrest : rest ≠ []) : ∀ {joins : List Field} {here : Source}, s.Leads here joins there →
    ∀ position : Nat, s.walk here position (joins.map (·.name) ++ rest) =
      onward (position + joins.length) joins (s.walk there 0 rest)
  | [], here, h, position => by
    obtain rfl : here = there := h
    have hzero := walk_shift (s := s) rest here position 0
    cases hwalk : s.walk here 0 rest <;> rw [hwalk] at hzero <;> exact hzero
  | f :: joins, here, ⟨hf, next, ht, h⟩, position => by
    rw [List.map_cons, List.cons_append, walk_step hf ht (by simp [hrest]), Leads.walk hrest h 0,
      onward_onward, List.length_cons, Nat.zero_add, Nat.add_assoc, Nat.add_comm 1]
    rfl

theorem walk_names : ∀ {segments : List String} {here : Source} {position : Nat} {r : Resolved},
    s.walk here position segments = .ok r → segments = (r.joins ++ [r.field]).map (·.name)
  | [], _, _, _, h => nomatch h
  | [final], _, _, _, h => by
    simp only [Store.walk, bind_eq_ok_iff, pure_eq_ok_iff] at h
    obtain ⟨f, hf, rfl⟩ := h
    rw [← (fieldNamed?_owner (lookup_eq_ok hf)).2]
    rfl
  | segment :: next :: rest, _, _, _, h => by
    simp only [Store.walk, bind_eq_ok_iff, pure_eq_ok_iff] at h
    obtain ⟨f, hf, target, _, r, hr, rfl⟩ := h
    rw [walk_names hr, ← (fieldNamed?_owner (lookup_eq_ok hf)).2]
    rfl

/-- The segments of a path are those of its walk, perhaps behind the name of the start. -/
theorem resolveFrom_names (h : s.resolveFrom start p = .ok r) :
    p.segments = (r.joins ++ [r.field]).map (·.name) ∨
      p.segments = start.name :: (r.joins ++ [r.field]).map (·.name) ∧
        s.fieldNamed? start.id start.name = none := by
  unfold Store.resolveFrom at h
  split at h
  · next hqualified =>
    right
    unfold isQualified at hqualified
    split at hqualified
    · next first second tail hp =>
      rw [Bool.and_eq_true, beq_iff_eq, Option.isNone_iff_eq_none] at hqualified
      obtain ⟨rfl, hnone⟩ := hqualified
      rw [hp, List.tail_cons] at h
      exact ⟨by rw [hp, walk_names h], hnone⟩
    · cases hqualified
  · exact .inl (walk_names h)

/-! ## Fronts of paths -/

/-- The front of a path goes over some joins from the start: it consists of their names, perhaps behind
the name of the start, which must not be a field there. -/
structure Over (s : Store) (start : Source) (front : List String) (joins : List Field) (there : Source) :
    Prop where
  leads : s.Leads start joins there
  names : front = joins.map (·.name) ∨
    front = start.name :: joins.map (·.name) ∧ s.fieldNamed? start.id start.name = none

theorem over_of_resolveFrom {final : String} (h : s.resolveFrom start ⟨front ++ [final]⟩ = .ok r) :
    s.Over start front r.joins r.source := by
  refine ⟨(resolveFrom_leads h).1, ?_⟩
  have hnames := resolveFrom_names h
  simp only [List.map_append, List.map_singleton, ← List.cons_append] at hnames
  rcases hnames with hnames | ⟨hnames, hnone⟩
  · exact .inl (List.append_inj' hnames rfl).1
  · exact .inr ⟨(List.append_inj' hnames rfl).1, hnone⟩

/-- A path that ends at a join goes over that as well. -/
theorem over_of_target (h : s.resolveFrom start p = .ok r) (ht : s.target? r.field = some there) :
    s.Over start p.segments (r.joins ++ [r.field]) there := by
  obtain ⟨hleads, hfield⟩ := resolveFrom_leads h
  exact ⟨leads_concat_iff.mpr ⟨r.source, hleads, hfield, ht⟩, resolveFrom_names h⟩

/-- What follows the front of a path is resolved from where it goes. -/
theorem Over.resolveFrom (h : s.Over start front joins there) (hfront : front ≠ []) (hrest : rest ≠ []) :
    s.resolveFrom start ⟨front ++ rest⟩ = onward front.length joins (s.walk there 0 rest) := by
  unfold Store.resolveFrom
  rcases h.names with rfl | ⟨rfl, hnone⟩
  · -- The first segment is a field of the start.
    have hqualified : s.isQualified start (joins.map (·.name) ++ rest) = false := by
      cases joins with
      | nil => exact absurd rfl hfront
      | cons f joins =>
        obtain ⟨hf, -⟩ := h.leads
        cases hmore : joins.map (·.name) ++ rest <;> simp [hmore, isQualified, hf]
    rw [hqualified, if_neg Bool.false_ne_true, h.leads.walk hrest, List.length_map, Nat.zero_add]
  · have hqualified : s.isQualified start (start.name :: joins.map (·.name) ++ rest) = true := by
      obtain ⟨second, tail, htail⟩ :=
        List.exists_cons_of_ne_nil (l := joins.map (·.name) ++ rest) (by simp [hrest])
      simp [htail, isQualified, hnone]
    rw [hqualified, if_pos rfl, List.cons_append, List.tail_cons, h.leads.walk hrest, List.length_cons,
      List.length_map, Nat.add_comm]

/-! ## Paths behind a front -/

/-- A path in which the name of its start is not passed over: it has one segment, or the first is a
field of the start, or not its name. -/
def Plain (s : Store) (start : Source) (path : Path) : Prop :=
  path.segments.length = 1 ∨ ∃ first ∈ path.segments.head?,
    (∃ f, s.fieldNamed? start.id first = some f) ∨ first ≠ start.name

theorem Plain.ne_nil (h : s.Plain start p) : p.segments ≠ [] := by
  rintro hnil
  rcases h with hone | ⟨first, hfirst, -⟩
  · simp [hnil] at hone
  · simp [hnil] at hfirst

theorem Plain.resolveFrom (h : s.Plain start p) : s.resolveFrom start p = s.walk start 0 p.segments := by
  have hqualified : s.isQualified start p.segments = false := by
    unfold isQualified
    split
    · next first second tail hp =>
      rcases h with hone | ⟨_, hfirst, hname⟩
      · simp [hp] at hone
      · rw [hp, List.head?_cons, Option.mem_some_iff] at hfirst
        subst hfirst
        rcases hname with ⟨f, hf⟩ | hname
        · simp [hf]
        · simp [hname]
    · rfl
  rw [Store.resolveFrom, hqualified, if_neg Bool.false_ne_true]

/-- **A path behind a front is resolved from where the front goes.** -/
theorem Over.resolveFrom_append (h : s.Over start front joins there) (hq : front = [] ∨ s.Plain there q) :
    s.resolveFrom start ⟨front ++ q.segments⟩ =
      onward front.length joins (s.resolveFrom there q) := by
  by_cases hfront : front = []
  · obtain rfl : joins = [] := by
      rcases h.names with hnames | ⟨hnames, -⟩
      · exact List.map_eq_nil_iff.mp (hnames.symm.trans hfront)
      · exact absurd (hnames.symm.trans hfront) (by simp)
    obtain rfl : start = there := h.leads
    rw [hfront, List.length_nil, onward_nil]
    rfl
  · have hplain : s.Plain there q := hq.resolve_left hfront
    rw [hplain.resolveFrom, h.resolveFrom hfront hplain.ne_nil]

theorem resolveFrom_append (h : s.resolveFrom start p = .ok r) (ht : s.target? r.field = some there)
    (hq : s.Plain there q) : s.resolveFrom start (p ++ q) =
      onward p.segments.length (r.joins ++ [r.field]) (s.resolveFrom there q) :=
  (over_of_target h ht).resolveFrom_append (.inr hq)

/-! ## Rounds -/

theorem Plain.append (hp : s.Plain start p) (h : s.resolveFrom start p = .ok r) (q : Path) :
    s.Plain start (p ++ q) := by
  obtain ⟨first, rest, hsegments⟩ := List.exists_cons_of_ne_nil hp.ne_nil
  refine .inr ⟨first, by simp [hsegments], ?_⟩
  rcases hp with hone | ⟨_, hfirst, hname⟩
  · obtain rfl : rest = [] := by simpa [hsegments] using hone
    obtain ⟨segments⟩ := p
    obtain rfl : segments = [first] := hsegments
    simp only [Store.resolveFrom, isQualified, Bool.false_eq_true, if_false, walk, bind_eq_ok_iff] at h
    obtain ⟨f, hf, -⟩ := h
    exact .inl ⟨f, lookup_eq_ok hf⟩
  · rw [hsegments, List.head?_cons, Option.mem_some_iff] at hfirst
    exact hfirst ▸ hname

theorem Plain.rounds (h : s.resolveFrom start p = .ok r) (hp : s.Plain start p) (hq : s.Plain start q) :
    ∀ n : Nat, s.Plain start (p.rounds q n)
  | 0 => hq
  | n + 1 => hp.append h (p.rounds q n)

/-- A path that leads back to its start may be gone any number of times. -/
theorem resolveFrom_rounds (h : s.resolveFrom start p = .ok r) (ht : s.target? r.field = some start)
    (hp : s.Plain start p) (hq : s.Plain start q) (n : Nat) : s.resolveFrom start (p.rounds q n) =
      onward (n * p.segments.length) (List.replicate n (r.joins ++ [r.field])).flatten
        (s.resolveFrom start q) := by
  induction n with
  | zero => rw [Path.rounds, Nat.zero_mul, List.replicate_zero, List.flatten_nil, onward_nil]
  | succ n ih =>
    rw [Path.rounds, resolveFrom_append h ht (Plain.rounds h hp hq n), ih, onward_onward, Nat.succ_mul,
      Nat.add_comm, List.replicate_succ, List.flatten_cons]

/-- **Resolving composes.** A path behind one that ends at a join is resolved from the target of the
join, and what is found stands behind the joins so far; if it fails there, it fails with the same error,
in which a position is shifted by the segments in front. Neither a source nor a join is resolved in
another way when the walk comes to it again: rounds that lead back to the start can be made any number
of times. -/
theorem paths_compose (h : s.resolveFrom start p = .ok r) (ht : s.target? r.field = some there)
    (hq : s.Plain there q) :
    s.resolveFrom start (p ++ q) =
      onward p.segments.length (r.joins ++ [r.field]) (s.resolveFrom there q) ∧
    (∀ name, s.sourceNamed? name = some start → s.resolve name (p ++ q) =
      onward p.segments.length (r.joins ++ [r.field]) (s.resolve there.name q)) ∧
    (there = start → s.Plain start p → ∀ n, s.resolveFrom start (p.rounds q n) =
      onward (n * p.segments.length) (List.replicate n (r.joins ++ [r.field])).flatten
        (s.resolveFrom start q)) := by
  refine ⟨resolveFrom_append h ht hq, fun name hname => ?_, ?_⟩
  · obtain ⟨join, -, hn⟩ := target?_eq_some ht
    simp only [resolve, hname, sourceNamed?_self hn]
    exact resolveFrom_append h ht hq
  · rintro rfl hp n
    exact resolveFrom_rounds h ht hp hq n

/-- The orders of the customers lead back to the customers. Behind a path that names the customers first,
an unknown field is reported at its place in the whole path; after two rounds, what the customers have
spent is found behind the joins of both. -/
theorem paths_compose_shop :
    let customers : Source := ⟨0, "customers", some "id", none⟩
    let named : Path := ⟨["customers", "orders", "customer"]⟩
    let round : Path := ⟨["orders", "customer"]⟩
    let total : Path := ⟨["spending", "total"]⟩
    ∃ r r', shop.resolveFrom customers named = .ok r ∧ shop.target? r.field = some customers ∧
      shop.resolveFrom customers round = .ok r' ∧ shop.target? r'.field = some customers ∧
      shop.Plain customers round ∧ shop.Plain customers total ∧
      shop.resolve "customers" (named ++ ⟨["spending", "sum"]⟩) =
        .error (.unknownSegment "spending" "sum" 4) ∧
      (shop.resolveFrom customers (round.rounds total 2)).map (·.joins.map (·.name)) =
        .ok ["orders", "customer", "orders", "customer", "spending"] := by
  intro customers named round total
  have plain (first second : String) (h : first ≠ "customers") : shop.Plain customers ⟨[first, second]⟩ :=
    .inr ⟨first, rfl, .inr h⟩
  have hnamed : shop.resolveFrom customers named = .ok _ := rfl
  have hround : shop.resolveFrom customers round = .ok _ := rfl
  refine ⟨_, _, hnamed, rfl, hround, rfl, plain _ _ (by decide), plain _ _ (by decide), ?_, ?_⟩
  · have hunknown := (paths_compose hnamed rfl (plain "spending" "sum" (by decide))).2.1 "customers" rfl
    exact hunknown
  · have hrounds := (paths_compose hround rfl (plain "spending" "total" (by decide))).2.2 rfl
      (plain _ _ (by decide)) 2
    rw [hrounds]
    rfl

end Store

end Joinery
