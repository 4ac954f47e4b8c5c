/-
Requests, built and written.

Requests are written as one value exactly if they are the same once the segments
of their paths are cut at their dots (`Request.toValue_eq_iff`), members that are
left out included. A request that is built from texts or read from a tree has
paths that were read (`Request.Built.parsed`), and in those there is nothing to
cut (`Request.Parsed.undotted`, `Request.Undotted.cut`).
-/
import Joinery.Form.Model
import Joinery.Proofs.Aggregate
import Joinery.Proofs.Json.Writer

namespace Joinery

open Json

/-! ## Building -/

/-- The path of the aggregate, if it has one, was read. -/
def AggregateRequest.Parsed (a : AggregateRequest) : Prop := ∀ p ∈ a.path, p.Parsed

namespace Request

/-- The paths of the request were read. -/
structure Parsed (r : Request) : Prop where
  groupBy : ∀ p ∈ r.groupBy, p.Parsed
  aggregates : ∀ a ∈ r.aggregates, a.Parsed

/-- The request was built from texts, or read from a tree. -/
inductive Built (r : Request) : Prop where
  | parse (source : String) (groupBy aggregates : List String)
    (h : Request.parse source groupBy aggregates = .ok r)
  | read (o : Origin) (t : Tree) (h : Request.ofTree? o t = some r)

end Request

theorem mapM_except_mem {ε α β : Type} {f : α → Except ε β} : ∀ {xs : List α} {ys : List β},
    xs.mapM f = .ok ys → ∀ y ∈ ys, ∃ x, f x = .ok y
  | [], ys, h, y, hy => by
    simp only [List.mapM_nil, pure_eq_ok_iff] at h
    rw [← h] at hy
    cases hy
  | x :: xs, ys, h, y, hy => by
    simp only [List.mapM_cons, bind_eq_ok_iff, pure_eq_ok_iff] at h
    obtain ⟨z, hz, zs, hzs, rfl⟩ := h
    rcases List.mem_cons.mp hy with rfl | hy
    · exact ⟨x, hz⟩
    · exact mapM_except_mem hzs y hy

theorem mapM_option_mem {α β : Type} {f : α → Option β} : ∀ {xs : List α} {ys : List β},
    xs.mapM f = some ys → ∀ y ∈ ys, ∃ x, f x = some y
  | [], ys, h, y, hy => by
    simp only [List.mapM_nil, Option.pure_def, Option.some.injEq] at h
    rw [← h] at hy
    cases hy
  | x :: xs, ys, h, y, hy => by
    simp only [List.mapM_cons, Option.bind_eq_bind, Option.bind_eq_some_iff, Option.pure_def,
      Option.some.injEq] at h
    obtain ⟨z, hz, zs, hzs, rfl⟩ := h
    rcases List.mem_cons.mp hy with rfl | hy
    · exact ⟨x, hz⟩
    · exact mapM_option_mem hzs y hy

theorem AggregateRequest.parsed_of_parse {text : String} {a : AggregateRequest}
    (h : AggregateRequest.parse text = .ok a) : a.Parsed := by
  rcases AggregateRequest.parse_cases h with ⟨-, -, he⟩ | ⟨_, _, -, -, he⟩
  · exact AggregateRequest.parseExpression_parsed he
  · exact AggregateRequest.parseExpression_parsed he

theorem Path.parsed_of_tree {t : Tree} {p : Path} (h : Path.ofTree? t = some p) : p.Parsed := by
  simp only [Path.ofTree?, Option.bind_eq_bind, Option.bind_eq_some_iff] at h
  obtain ⟨text, -, h⟩ := h
  refine ⟨text, ?_⟩
  cases hp : Path.parse text with
  | error e => simp [hp, Except.toOption] at h
  | ok q => simpa [hp, Except.toOption] using h

theorem optionalMember_read {α : Type} {ms : Members} {name : String} {read : Tree → Option α}
    {a : Option α} (h : ms.optional name read = some a) : ∀ x ∈ a, ∃ t, read t = some x := by
  intro x hx
  rw [Option.mem_def.mp hx] at h
  unfold Members.optional at h
  split at h
  · cases h
  · cases h
  · next t _ _ =>
    obtain ⟨y, hy, he⟩ := Option.map_eq_some_iff.mp h
    exact ⟨t, Option.some.inj he ▸ hy⟩

theorem AggregateRequest.parsed_of_tree {o : Origin} {t : Tree} {a : AggregateRequest}
    (h : AggregateRequest.ofTree? o t = some a) : a.Parsed := by
  simp only [AggregateRequest.ofTree?, Option.bind_eq_bind, Option.bind_eq_some_iff,
    Option.pure_def, Option.some.injEq] at h
  obtain ⟨ms, -, name, -, op, -, path, hpath, rfl⟩ := h
  intro p hp
  obtain ⟨tree, htree⟩ := optionalMember_read hpath p hp
  exact Path.parsed_of_tree htree

/-- A list that is read, or the empty one in its place, has items that were read. -/
theorem listMember_read {α : Type} {ms : Members} {name : String} {read : Tree → Option α}
    {xs : List α} (h : ms.withDefault name [] (list? read) = some xs) :
    ∀ x ∈ xs, ∃ t, read t = some x := by
  unfold Members.withDefault at h
  split at h
  · cases h
    intro x hx
    cases hx
  · unfold list? at h
    split at h
    · exact mapM_option_mem h
    · cases h

/-- Both ways of building a request read its paths. -/
theorem Request.Built.parsed {r : Request} : r.Built → r.Parsed
  | .parse source groupBy aggregates h => by
    simp only [Request.parse, bind_eq_ok_iff, pure_eq_ok_iff] at h
    obtain ⟨keys, hk, aggs, ha, rfl⟩ := h
    refine ⟨fun p hp => ?_, fun a hmem => ?_⟩
    · exact mapM_except_mem hk p hp
    · obtain ⟨text, htext⟩ := mapM_except_mem ha a hmem
      exact AggregateRequest.parsed_of_parse htext
  | .read o t h => by
    simp only [Request.ofTree?, Option.bind_eq_bind, Option.bind_eq_some_iff, Option.pure_def,
      Option.some.injEq] at h
    obtain ⟨ms, -, source, -, keys, hk, aggs, ha, rfl⟩ := h
    refine ⟨fun p hp => ?_, fun a hmem => ?_⟩
    · obtain ⟨tree, htree⟩ := listMember_read hk p hp
      exact Path.parsed_of_tree htree
    · obtain ⟨tree, htree⟩ := listMember_read ha a hmem
      exact AggregateRequest.parsed_of_tree htree

/-! ## Writing -/

theorem ifPresent_isFinite {α : Type} {name : String} {write : α → Value} {a : Option α}
    {ms : List (String × Value)} (hw : ∀ x, (write x).IsFinite)
    (h : Value.MembersFinite ms) : Value.MembersFinite (ifPresent name write a ++ ms) := by
  cases a with
  | none => exact h
  | some x => exact ⟨hw x, h⟩

theorem map_isFinite {α : Type} {write : α → Value} (hw : ∀ x, (write x).IsFinite) :
    ∀ xs : List α, Value.ItemsFinite (xs.map write)
  | [] => trivial
  | x :: xs => ⟨hw x, map_isFinite hw xs⟩

theorem Path.toValue_isFinite (p : Path) : p.toValue.IsFinite := trivial

theorem Operator.toValue_isFinite (op : Operator) : op.toValue.IsFinite := trivial

theorem AggregateRequest.toValue_isFinite (a : AggregateRequest) : a.toValue.IsFinite := by
  have path : Value.MembersFinite (ifPresent "path" Path.toValue a.path ++ []) :=
    ifPresent_isFinite Path.toValue_isFinite trivial
  have op : Value.MembersFinite (ifPresent "op" Operator.toValue a.op ++
      (ifPresent "path" Path.toValue a.path ++ [])) :=
    ifPresent_isFinite Operator.toValue_isFinite path
  have name : Value.MembersFinite (ifPresent "name" .string a.name ++
      (ifPresent "op" Operator.toValue a.op ++ (ifPresent "path" Path.toValue a.path ++ []))) :=
    ifPresent_isFinite (fun _ => trivial) op
  rw [List.append_nil, ← List.append_assoc] at name
  exact name

theorem Request.toValue_isFinite (r : Request) : r.toValue.IsFinite :=
  ⟨trivial, map_isFinite Path.toValue_isFinite r.groupBy,
    map_isFinite AggregateRequest.toValue_isFinite r.aggregates, trivial⟩

/-- A member that may be left out, in front of members of other names. -/
theorem ifPresent_inj {α : Type} {name : String} {write : α → Value} {a b : Option α}
    {ms ns : List (String × Value)} (hm : ∀ m ∈ ms, m.1 ≠ name) (hn : ∀ n ∈ ns, n.1 ≠ name)
    (h : ifPresent name write a ++ ms = ifPresent name write b ++ ns) :
    a.map write = b.map write ∧ ms = ns := by
  rcases a with _ | x <;> rcases b with _ | y
  · exact ⟨rfl, h⟩
  · exact absurd rfl (hm (name, write y) (by simp only [ifPresent, List.nil_append] at h; simp [h]))
  · exact absurd rfl (hn (name, write x) (by simp only [ifPresent, List.nil_append] at h; simp [← h]))
  · simp only [ifPresent, List.cons_append, List.nil_append, List.cons.injEq, Prod.mk.injEq,
      true_and] at h
    exact ⟨by simp [h.1], h.2⟩

theorem ifPresent_name {α : Type} {name : String} {write : α → Value} {a : Option α} :
    ∀ m ∈ ifPresent name write a, m.1 = name := by
  cases a <;> simp [ifPresent]

theorem Operator.toValue_inj {a b : Operator} (h : a.toValue = b.toValue) : a = b := by
  revert h
  cases a <;> cases b <;> simp [toValue, name]

theorem Path.toValue_eq_iff {p q : Path} : p.toValue = q.toValue ↔ p.cut = q.cut := by
  simp only [toValue, Value.string.injEq, text_eq_iff]

namespace AggregateRequest

/-- The aggregate with the segments of its path cut at their dots. -/
def cut (a : AggregateRequest) : AggregateRequest := { a with path := a.path.map Path.cut }

/-- The path of the aggregate, if it has one, has no dots in it. -/
def Undotted (a : AggregateRequest) : Prop := ∀ p ∈ a.path, p.Undotted

theorem Undotted.cut {a : AggregateRequest} (h : a.Undotted) : a.cut = a := by
  obtain ⟨name, op, path⟩ := a
  cases path with
  | none => rfl
  | some p => rw [AggregateRequest.cut, Option.map_some, (h p rfl).cut]

theorem toValue_eq_iff {a b : AggregateRequest} : a.toValue = b.toValue ↔ a.cut = b.cut := by
  have path (a : AggregateRequest) : ∀ m ∈ ifPresent "path" Path.toValue a.path, m.1 ≠ "op" :=
    fun m hm => by rw [ifPresent_name m hm]; decide
  have op (a : AggregateRequest) : ∀ m ∈ ifPresent "op" Operator.toValue a.op ++
      ifPresent "path" Path.toValue a.path, m.1 ≠ "name" := fun m hm => by
    rcases List.mem_append.mp hm with hm | hm <;> rw [ifPresent_name m hm] <;> decide
  have paths : ∀ {x y : Option Path}, x.map Path.toValue = y.map Path.toValue ↔
      x.map Path.cut = y.map Path.cut := by
    intro x y
    cases x <;> cases y <;> simp [Path.toValue_eq_iff]
  obtain ⟨aname, aop, apath⟩ := a
  obtain ⟨bname, bop, bpath⟩ := b
  simp only [cut, mk.injEq, ← paths]
  constructor
  · intro h
    simp only [toValue, Value.object.injEq, List.append_assoc] at h
    obtain ⟨hname, h⟩ := ifPresent_inj (op ⟨aname, aop, apath⟩) (op ⟨bname, bop, bpath⟩) h
    obtain ⟨hop, h⟩ := ifPresent_inj (path ⟨aname, aop, apath⟩) (path ⟨bname, bop, bpath⟩) h
    rw [← List.append_nil (ifPresent "path" _ apath), ← List.append_nil (ifPresent "path" _ bpath)] at h
    obtain ⟨hpath, -⟩ := ifPresent_inj (by simp) (by simp) h
    exact ⟨Option.map_injective (fun _ _ => Value.string.inj) hname,
      Option.map_injective (fun _ _ => Operator.toValue_inj) hop, hpath⟩
  · rintro ⟨rfl, rfl, hpath⟩
    have hmember : ifPresent "path" Path.toValue apath = ifPresent "path" Path.toValue bpath := by
      cases apath <;> cases bpath <;> simp_all [ifPresent]
    simp only [toValue, hmember]

end AggregateRequest

/-- Of two functions that tell the same items apart, the one tells the same lists apart as the other. -/
theorem map_eq_map_iff {α β γ : Type} {f : α → β} {g : α → γ}
    (h : ∀ x y, f x = f y ↔ g x = g y) : ∀ {xs ys : List α},
    xs.map f = ys.map f ↔ xs.map g = ys.map g
  | [], [] => by simp
  | [], _ :: _ => by simp
  | _ :: _, [] => by simp
  | x :: xs, y :: ys => by
    simp only [List.map_cons, List.cons.injEq, h x y, map_eq_map_iff h]

namespace Request

/-- The request with the segments of its paths cut at their dots. -/
def cut (r : Request) : Request :=
  { r with groupBy := r.groupBy.map Path.cut, aggregates := r.aggregates.map AggregateRequest.cut }

/-- The paths of the request have no dots in them. -/
structure Undotted (r : Request) : Prop where
  groupBy : ∀ p ∈ r.groupBy, p.Undotted
  aggregates : ∀ a ∈ r.aggregates, a.Undotted

theorem Parsed.undotted {r : Request} (h : r.Parsed) : r.Undotted :=
  ⟨fun p hp => (h.groupBy p hp).undotted, fun a ha p hp => (h.aggregates a ha p hp).undotted⟩

theorem Undotted.cut {r : Request} (h : r.Undotted) : r.cut = r := by
  have hkeys : r.groupBy.map Path.cut = r.groupBy :=
    (List.map_congr_left fun p hp => (h.groupBy p hp).cut).trans (List.map_id _)
  have haggs : r.aggregates.map AggregateRequest.cut = r.aggregates :=
    (List.map_congr_left fun a ha => (h.aggregates a ha).cut).trans (List.map_id _)
  rw [Request.cut, hkeys, haggs]

/-- **The value tells a request up to the dots of its paths, and no more.** -/
theorem toValue_eq_iff {r q : Request} : r.toValue = q.toValue ↔ r.cut = q.cut := by
  simp only [toValue, listed, Value.object.injEq, List.cons.injEq, Prod.mk.injEq, true_and,
    Value.string.injEq, Value.array.injEq, and_true, cut, mk.injEq,
    map_eq_map_iff (fun _ _ => Path.toValue_eq_iff),
    map_eq_map_iff (fun _ _ => AggregateRequest.toValue_eq_iff)]

end Request

end Joinery
