/-
Grouping by a join.

A key is planned by the end of its path, and the paths to one end are planned alike, but for what they
are called (`addKey_parallel`). A join ends at the primary key of its target, and so does the path that
goes on to it (`keyEndOf_join`).
-/
import Joinery.Proofs.Composition
import Joinery.Proofs.Plan.Substitution

namespace Joinery

/-- The key of a path, and the same as the key of another path, for which it is named. -/
def GroupingKey.Renamed (path path' : Path) (name : String) (a b : GroupingKey) : Prop :=
  a.path = path ∧ b = { a with name, path := path' }

namespace Store

variable {s : Store} {derive : Derive} {start target : Source} {path : Path} {r : Resolved}

theorem addKey_parallel {path' : Path} {e : KeyEnd} {name : String}
    (he : s.keyEndOf start path = .ok e) (he' : s.keyEndOf start path' = .ok e)
    (hname : path'.last? = some name) (a : Assembly) :
    Parallel (fun out out' => GroupingKey.Renamed path path' name out.1 out'.1 ∧ out.2 = out'.2)
      (s.addKey derive start a path) (s.addKey derive start a path') := by
  refine .of_ok ?_ ?_
  · rintro ⟨key, b⟩ h
    obtain ⟨e₁, _, slot, he₁, -, hchain, rfl⟩ := addKey_eq_ok_iff.mp h
    cases he.symm.trans he₁
    have h' := addKey_eq_ok_iff.mpr ⟨e, name, slot, he', hname, hchain, rfl⟩
    exact ⟨_, h', ⟨rfl, rfl⟩, rfl⟩
  · rintro ⟨key, b⟩ h'
    obtain ⟨e₁, _, slot, he₁, -, hchain, rfl⟩ := addKey_eq_ok_iff.mp h'
    cases he'.symm.trans he₁
    obtain ⟨last, hlast⟩ := keyEndOf_last he
    exact ⟨_, addKey_eq_ok_iff.mpr ⟨e, last, slot, he, hlast, hchain, rfl⟩⟩

/-- A join ends where the path behind it ends that names the primary key of its target. -/
theorem keyEndOf_join {key : Field} (h : s.resolveFrom start path = .ok r)
    (ht : s.target? r.field = some target) (hprimary : target.primaryKey = some key.name)
    (hkey : s.fieldNamed? target.id key.name = some key) (hscalar : key.kind = .scalar) :
    s.keyEndOf start path = .ok ⟨r.joins ++ [r.field], key, target⟩ ∧
      s.keyEndOf start (path ++ ⟨[key.name]⟩) = .ok ⟨r.joins ++ [r.field], key, target⟩ := by
  have hbehind := resolveFrom_append h ht (q := ⟨[key.name]⟩) (.inl rfl)
  rw [resolveFrom_field hkey] at hbehind
  obtain ⟨join, hkind, hn⟩ := target?_eq_some ht
  refine ⟨?_, ?_⟩
  · have hend : s.keyEnd path r = .ok ⟨r.joins ++ [r.field], key, target⟩ := by
      simp only [keyEnd, hkind, hn, hprimary, Option.bind_some, hkey]
    exact bind_eq_ok_iff.mpr ⟨r, mapError_eq_ok_iff.mpr h, hend⟩
  · refine bind_eq_ok_iff.mpr ⟨_, mapError_eq_ok_iff.mpr hbehind, ?_⟩
    simp only [keyEnd, Resolved.behind, hscalar, List.append_nil]

/-- **Grouping by a join is grouping by the primary key of its target.** A grouping path that ends at a
join and the path that goes on to a scalar primary key can stand for each other beside any other items:
both requests fail, or both compile, to plans that differ only in what one key is called, and that give
the same rows. -/
theorem join_groups_by_primary_key {name k : String} {before after : List Path}
    {requests : List AggregateRequest} (hstart : s.sourceNamed? name = some start)
    (h : s.resolveFrom start path = .ok r) (ht : s.target? r.field = some target)
    (hk : target.primaryKey = some k) (hscalar : s.HasScalar target k)
    (hnames : (Stage.mk (before ++ path :: after) requests).outputNames.Nodup)
    (hnames' : (Stage.mk (before ++ (path ++ ⟨[k]⟩) :: after) requests).outputNames.Nodup) :
    Parallel (fun p q =>
        q = { p with groupBy := q.groupBy } ∧
        DifferAt before.length (GroupingKey.Renamed path (path ++ ⟨[k]⟩) k) p.groupBy q.groupBy ∧
        ∀ tables, (Engine.run tables p).map (·.rows) = (Engine.run tables q).map (·.rows))
      (s.compileRequest ⟨name, before ++ path :: after, requests⟩)
      (s.compileRequest ⟨name, before ++ (path ++ ⟨[k]⟩) :: after, requests⟩) := by
  obtain ⟨key, hkey, hscalar⟩ := hscalar
  obtain rfl : key.name = k := (fieldNamed?_owner hkey).2
  obtain ⟨he, he'⟩ := keyEndOf_join h ht hk hkey hscalar
  have hlast : (path ++ ⟨[key.name]⟩ : Path).last? = some key.name := List.getLast?_concat
  refine substitute_key (R := GroupingKey.Renamed path (path ++ ⟨[key.name]⟩) key.name)
    (fun start' hstart' a => ?_) (fun _ _ hrenamed => by rw [hrenamed.2]) hnames hnames'
  cases hstart.symm.trans hstart'
  exact addKey_parallel he he' hlast a

/-- Behind the name of the start and over the customers once more, what the customers have spent, which
is derived from the orders, stands for its primary key. -/
theorem join_groups_by_primary_key_shop :
    let path : Path := ⟨["customers", "orders", "customer", "spending"]⟩
    let stage (key : Path) : Stage :=
      ⟨[⟨["region"]⟩] ++ key :: [⟨["orders", "amount"]⟩], [⟨none, some .count, some ⟨["orders"]⟩⟩]⟩
    let request (key : Path) : Request := ⟨"customers", (stage key).groupBy, (stage key).aggregates⟩
    (stage path).outputNames.Nodup ∧ (stage (path ++ ⟨["customer_id"]⟩)).outputNames.Nodup ∧
    ∃ r target p q, shop.resolveFrom ⟨0, "customers", some "id", none⟩ path = .ok r ∧
      shop.target? r.field = some target ∧ target.primaryKey = some "customer_id" ∧
      shop.HasScalar target "customer_id" ∧
      shop.compileRequest (request path) = .ok p ∧
      shop.compileRequest (request (path ++ ⟨["customer_id"]⟩)) = .ok q ∧
      q = { p with groupBy := q.groupBy } ∧
      DifferAt 1 (GroupingKey.Renamed path (path ++ ⟨["customer_id"]⟩) "customer_id")
        p.groupBy q.groupBy := by
  intro path stage request
  have hnames : (stage path).outputNames.Nodup := by decide
  have hnames' : (stage (path ++ ⟨["customer_id"]⟩)).outputNames.Nodup := by decide
  have hstart : shop.sourceNamed? "customers" = some ⟨0, "customers", some "id", none⟩ := rfl
  have hpath : shop.resolveFrom ⟨0, "customers", some "id", none⟩ path = .ok _ := rfl
  obtain ⟨p, hp⟩ := exists_ok (x := shop.compileRequest (request path)) (by decide +kernel)
  obtain ⟨q, hq, hsame, hd, -⟩ := (join_groups_by_primary_key hstart hpath rfl rfl ⟨_, rfl, rfl⟩
    hnames hnames').left hp
  exact ⟨hnames, hnames', _, _, p, q, hpath, rfl, rfl, ⟨_, rfl, rfl⟩, hp, hq, hsame, hd⟩

end Store

end Joinery
