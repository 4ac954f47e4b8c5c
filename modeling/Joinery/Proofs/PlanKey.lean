/-
Which plan a session answers with.

Plans are cached by the text of a request, which tells the request up to the dots
of its paths (`keyText_eq_iff`). So, until the model changes, a session answers
with the plan of the first request of that text that has compiled
(`Store.served`), as its cache finds that plan or none (`Session.Filled`): one
request keeps the cache so (`Session.Filled.compile`), and hence a run does. Where
no path has a dot in it every request has its own answer (`Session.served_by_key`);
a dot in a segment can get a request the plan of another
(`Session.plan_of_another`).
-/
import Joinery.Proofs.Session

namespace Joinery

namespace Store

/-- The plan of the first of the requests that compiles and is `q` up to the dots of its paths. -/
def firstPlan? (s : Store) (rs : List Request) (q : Request) : Option Plan :=
  rs.findSome? fun r => if r.cut = q.cut then (s.compileRequest r).toOption else none

/-- That plan, or what `q` itself compiles to. -/
def served (s : Store) (rs : List Request) (q : Request) : Except CompileError Plan :=
  match s.firstPlan? rs q with
  | some p => .ok p
  | none => s.compileRequest q

variable {s : Store} {rs : List Request} {q r : Request}

theorem firstPlan?_congr (h : r.cut = q.cut) : s.firstPlan? rs r = s.firstPlan? rs q := by
  simp only [firstPlan?, h]

theorem firstPlan?_concat : s.firstPlan? (rs ++ [r]) q =
    (s.firstPlan? rs q).or (if r.cut = q.cut then (s.compileRequest r).toOption else none) := by
  rw [firstPlan?, List.findSome?_append, List.findSome?_singleton]
  rfl

/-- One more request that is `q` up to dots changes nothing once there is a plan, and no other request
changes anything. -/
theorem firstPlan?_concat_of_isSome (h : (s.firstPlan? rs r).isSome) :
    s.firstPlan? (rs ++ [r]) q = s.firstPlan? rs q := by
  rw [firstPlan?_concat]
  by_cases hcut : r.cut = q.cut
  · rw [firstPlan?_congr hcut] at h
    obtain ⟨p, hp⟩ := Option.isSome_iff_exists.mp h
    rw [hp, Option.some_or]
  · rw [if_neg hcut, Option.or_none]

/-- If every request that is `q` up to dots compiles as `q` does, `q` has its own answer. -/
theorem served_eq (h : ∀ r ∈ rs, r.cut = q.cut → s.compileRequest r = s.compileRequest q) :
    s.served rs q = s.compileRequest q := by
  unfold served
  split
  · next p hp =>
    obtain ⟨r, hr, hp⟩ := List.exists_of_findSome?_eq_some hp
    split at hp
    · next hcut =>
      rw [← h r hr hcut]
      cases hc : s.compileRequest r with
      | error e => simp [hc, Except.toOption] at hp
      | ok p' => simpa [hc, Except.toOption] using hp.symm
    · cases hp
  · rfl

end Store

namespace Session

variable {store : Store} {texts : List String} {rs : List Request} {s : Session}

/-- Of the requests with these texts, the cache finds the plan of the first of `rs` that compiles and
has the text, and no other plan. -/
structure Filled (store : Store) (texts : List String) (rs : List Request) (s : Session) : Prop where
  store_eq : s.store = store
  planCache : s.planCache = true
  cached : ∀ q, keyText store.revision q ∈ texts →
    (s.cached? (planKey store.revision q)).map (·.plan) = store.firstPlan? rs q

theorem Filled.start (store : Store) (texts : List String) : Filled store texts [] (ofStore store true) :=
  ⟨rfl, rfl, fun _ _ => rfl⟩

theorem planKey_eq_iff (hd : NoCollision texts) {n : Nat} {r q : Request} (hr : keyText n r ∈ texts)
    (hq : keyText n q ∈ texts) : planKey n r = planKey n q ↔ r.cut = q.cut := by
  have htext : planKey n r = planKey n q ↔ keyText n r = keyText n q :=
    ⟨hd _ hr _ hq, congrArg Digest.ofText⟩
  rw [htext, keyText_eq_iff, and_iff_right rfl]

theorem cached?_concat (hs : s.planCache = true) (key key' : String) (c : Compiled) (n : Nat) :
    (cached? { s with plans := s.plans ++ [(key, c)], count := n } key') =
      (s.cached? key').or (if key = key' then some c else none) := by
  simp only [cached?, hs, if_true, List.find?_append, Option.map_or, List.find?_singleton, beq_iff_eq]
  split <;> rfl

/-- What one request does: it is answered with the plan of the first one with its text, and is that
itself if there was none. -/
theorem Filled.compile (h : Filled store texts rs s) (hd : NoCollision texts) {r : Request}
    (hr : keyText store.revision r ∈ texts) :
    (s.perform (.compile r)).1 = .compiled (store.served rs r) ∧
      Filled store texts (rs ++ [r]) (s.perform (.compile r)).2 := by
  obtain ⟨store, planCache, plans, count⟩ := s
  obtain ⟨rfl, rfl, hcached⟩ := h
  have hfound := hcached r hr
  simp only [perform, Session.compile, Store.served, if_true]
  cases hc : cached? ⟨store, true, plans, count⟩ (planKey store.revision r) with
  | some c =>
    rw [hc, Option.map_some] at hfound
    rw [← hfound]
    refine ⟨rfl, rfl, rfl, fun q hq => ?_⟩
    rw [Store.firstPlan?_concat_of_isSome (by rw [← hfound]; rfl)]
    exact hcached q hq
  | none =>
    rw [hc, Option.map_none] at hfound
    rw [← hfound]
    cases hp : store.compileRequest r with
    | error e =>
      refine ⟨rfl, rfl, rfl, fun q hq => ?_⟩
      have hnone : (if r.cut = q.cut then (store.compileRequest r).toOption else none) = none := by
        rw [hp]
        exact ite_self none
      rw [Store.firstPlan?_concat, hnone, Option.or_none]
      exact hcached q hq
    | ok p =>
      refine ⟨rfl, rfl, rfl, fun q hq => ?_⟩
      have hsame := cached?_concat (s := ⟨store, true, plans, count⟩) rfl (planKey store.revision r)
        (planKey store.revision q) ⟨count, p⟩ (count + 1)
      simp only [planKey_eq_iff hd hr hq] at hsame
      refine (congrArg (Option.map (·.plan)) hsame).trans ?_
      rw [Option.map_or, hcached q hq, Store.firstPlan?_concat, hp]
      split <;> rfl

/-- Some requests leave the cache filled with them. -/
theorem Filled.compileAll (hd : NoCollision texts) : ∀ {qs rs : List Request} {s : Session},
    Filled store texts rs s → (∀ q ∈ qs, keyText store.revision q ∈ texts) →
    Filled store texts (rs ++ qs) (s.after (qs.map .compile))
  | [], rs, s, h, _ => by
    rw [List.append_nil]
    exact h
  | q :: qs, rs, s, h, ht => by
    have hnext := (h.compile hd (ht q List.mem_cons_self)).2
    have hrest := Filled.compileAll hd hnext fun q' hq' => ht q' (List.mem_cons_of_mem q hq')
    rw [List.append_assoc, List.singleton_append] at hrest
    exact hrest

/-- **A session answers with the plan of the first request that has the key.** Keys have one text just if
the requests are the same up to the dots of their paths. Of a session that has compiled some requests,
with no collision of the digests, the answer to the next is that of the first request with its text
that compiled; so it is its own unless a request that differs in dots only compiles to another plan,
and none does where no segment of a path has a dot in it, as requests of other outcomes have other
texts then. -/
theorem served_by_key (store : Store) (rs : List Request) (q : Request)
    (hd : NoCollision ((rs ++ [q]).map (keyText store.revision))) :
    let answer := (((ofStore store true).after (rs.map .compile)).perform (.compile q)).1
    (∀ (n : Nat) (r : Request), keyText n r = keyText n q ↔ r.cut = q.cut) ∧
    answer = .compiled (store.served rs q) ∧
    ((∀ r ∈ rs, r.cut = q.cut → store.compileRequest r = store.compileRequest q) →
      answer = .compiled (store.compileRequest q)) ∧
    (q.Undotted → (∀ r ∈ rs, r.Undotted) →
      answer = .compiled (store.compileRequest q) ∧
      ∀ r ∈ rs, store.compileRequest r ≠ store.compileRequest q →
        keyText store.revision r ≠ keyText store.revision q) := by
  intro answer
  have hasked : ∀ r ∈ rs ++ [q], keyText store.revision r ∈ (rs ++ [q]).map (keyText store.revision) :=
    fun r hr => List.mem_map_of_mem hr
  have hfilled := (Filled.start store _).compileAll hd fun r hr => hasked r (List.mem_append_left _ hr)
  have hanswer : answer = .compiled (store.served rs q) :=
    (hfilled.compile hd (hasked q (by simp))).1
  have hkey (n : Nat) (r : Request) : keyText n r = keyText n q ↔ r.cut = q.cut := by
    rw [keyText_eq_iff, and_iff_right rfl]
  refine ⟨hkey, hanswer, fun halike => ?_, fun hq hr => ⟨?_, fun r hmem hne htext => ?_⟩⟩
  · rw [hanswer, Store.served_eq halike]
  · rw [hanswer, Store.served_eq]
    intro r hmem hcut
    rw [(hr r hmem).cut, hq.cut] at hcut
    rw [hcut]
  · rw [hkey, (hr r hmem).cut, hq.cut] at htext
    exact hne (congrArg store.compileRequest htext)

/-- Orders by their customers' numbers, after a request by regions and one for a field that there is
not. -/
theorem served_by_key_shop :
    let regions : Request := ⟨"orders", [⟨["customer", "region"]⟩], []⟩
    let missing : Request := ⟨"orders", [⟨["customer.id"]⟩], []⟩
    let numbers : Request := ⟨"orders", [⟨["customer", "id"]⟩], []⟩
    NoCollision (([regions, missing] ++ [numbers]).map (keyText Store.shop.revision)) ∧
    missing.cut = numbers.cut ∧ (Store.shop.compileRequest missing).toOption = none ∧
    (((ofStore Store.shop true).after [.compile regions, .compile missing]).perform
      (.compile numbers)).1 = .compiled (Store.shop.compileRequest numbers) := by
  intro regions missing numbers
  have digests : (([regions, missing] ++ [numbers]).map
      (keyText Store.shop.revision)).eraseDups.map Digest.ofText =
        ["f4eae78a483acb349ee4e1ffbea287cf241924b82e1dbb695fcada6338a8e359",
          "8afef82f352605e80a72d09fd8ecad2e91e46712aef6e44e8f7c0e1e485e334b"] := by decide +kernel
  have hd : NoCollision (([regions, missing] ++ [numbers]).map (keyText Store.shop.revision)) :=
    NoCollision.of_nodup (by rw [digests]; decide)
  have hmissing : (Store.shop.compileRequest missing).toOption = none := by decide +kernel
  have hserved : Store.shop.served [regions, missing] numbers = Store.shop.compileRequest numbers := by
    rw [Store.served, Store.firstPlan?]
    simp only [List.findSome?_cons, hmissing]
    rfl
  refine ⟨hd, by decide, hmissing, ?_⟩
  rw [← hserved]
  exact (served_by_key Store.shop [regions, missing] numbers hd).2.1

/-- The plan of another request: a field of that dotted name is not in the model, but the plan for the
field of the customer is in the cache. -/
theorem plan_of_another :
    let region : Request := ⟨"orders", [⟨["customer", "region"]⟩], []⟩
    let dotted : Request := ⟨"orders", [⟨["customer.region"]⟩], []⟩
    Store.shop.Reachable ∧ (∀ n, keyText n region = keyText n dotted) ∧
    ∃ plan e, Store.shop.compileRequest region = .ok plan ∧
      Store.shop.compileRequest dotted = .error e ∧
      (ofStore Store.shop true).answers [.compile region, .compile dotted] =
        [.compiled (.ok plan), .compiled (.ok plan)] ∧
      (ofStore Store.shop false).answers [.compile region, .compile dotted] =
        [.compiled (.ok plan), .compiled (.error e)] := by
  intro region dotted
  have hkey (n : Nat) : keyText n region = keyText n dotted := keyText_eq_iff.mpr ⟨rfl, by decide⟩
  have hsame : planKey Store.shop.revision region = planKey Store.shop.revision dotted :=
    congrArg Digest.ofText (hkey _)
  have hregion : (Store.shop.compileRequest region).toOption.isSome = true := by decide +kernel
  have hdotted : (Store.shop.compileRequest dotted).toOption.isSome = false := by decide +kernel
  obtain ⟨plan, hplan⟩ := exists_ok hregion
  cases he : Store.shop.compileRequest dotted with
  | ok p => simp [he, Except.toOption] at hdotted
  | error e =>
    refine ⟨Store.shop_reachable, hkey, plan, e, hplan, rfl, ?_, ?_⟩
    · simp [answers, perform, Session.compile, cached?, ofStore, hplan, hsame]
    · simp [answers, perform, Session.compile, cached?, ofStore, hplan, he]

end Session

end Joinery
