/-
A session answers as its model does, whether plans are cached or not.

A cached plan stays what its own request compiles to as long as the model stays
the same (`Session.Sound`), and two requests have one key only if they are one
request (`keyText_inj`), the digests of the texts that a run hashes being
distinct. So every answer of a run is that of the model alone
(`Session.perform_sound`), and the cache changes none of them
(`Session.answers_cached`).
-/
import Joinery.Proofs.Form.Request
import Joinery.Proofs.Store.Reachable
import Joinery.Session
import Mathlib.Data.List.Nodup

namespace Joinery

open Json (Value)

/-! ## Keys -/

/-- The text whose digest a plan is cached under. -/
def keyText (revision : Nat) (r : Request) : String :=
  (Value.array [.int revision, r.toValue]).text

theorem planKey_eq (revision : Nat) (r : Request) :
    planKey revision r = Digest.ofText (keyText revision r) := rfl

/-- The text tells the revision, and the request up to the dots of its paths. -/
theorem keyText_eq_iff {m n : Nat} {r q : Request} :
    keyText m r = keyText n q ↔ m = n ∧ r.cut = q.cut := by
  have isFinite (k : Nat) (r : Request) : (Value.array [.int k, r.toValue]).IsFinite :=
    ⟨trivial, r.toValue_isFinite, trivial⟩
  have htext : keyText m r = keyText n q ↔
      Value.array [.int m, r.toValue] = Value.array [.int n, q.toValue] :=
    ⟨Value.text_inj (isFinite m r) (isFinite n q), congrArg Value.text⟩
  simp only [htext, Value.int, Value.array.injEq, List.cons.injEq, Value.number.injEq,
    Json.Number.int.injEq, Int.ofNat_inj, and_true, Request.toValue_eq_iff]

theorem keyText_inj {m n : Nat} {r q : Request} (hr : r.Parsed) (hq : q.Parsed)
    (h : keyText m r = keyText n q) : m = n ∧ r = q := by
  rw [keyText_eq_iff, hr.undotted.cut, hq.undotted.cut] at h
  exact h

/-- No two of the texts have one digest. -/
def NoCollision (texts : List String) : Prop :=
  ∀ a ∈ texts, ∀ b ∈ texts, Digest.ofText a = Digest.ofText b → a = b

theorem NoCollision.of_nodup {texts : List String}
    (h : (texts.eraseDups.map Digest.ofText).Nodup) : NoCollision texts := by
  intro a ha b hb hab
  exact List.inj_on_of_nodup_map h (List.mem_eraseDups.mpr ha) (List.mem_eraseDups.mpr hb) hab

namespace Session

/-! ## Runs -/

/-- What may be asked of a session. -/
inductive Operation where
  | amend (amendments : List Amendment)
  | compile (request : Request)
  | run (tables : Tables) (request : Request)
  | runAll (tables : Tables) (requests : List Request)

/-- The requests that an operation compiles. -/
def Operation.requests : Operation → List Request
  | .amend _ => []
  | .compile r => [r]
  | .run _ r => [r]
  | .runAll _ rs => rs

/-- What a session answers. -/
inductive Answer where
  | amended (ids : Except ModelError (List FieldId))
  | compiled (plan : Except CompileError Plan)
  | ran (result : Except ExecutionError Result)
  | ranAll (results : List (Except ExecutionError Result))

/-- One operation. If it fails the session stays as it is. -/
def perform (s : Session) : Operation → Answer × Session
  | .amend amendments =>
    match s.amend amendments with
    | .ok (ids, t) => (.amended (.ok ids), t)
    | .error e => (.amended (.error e), s)
  | .compile r =>
    match s.compile r with
    | .ok (c, t) => (.compiled (.ok c.plan), t)
    | .error e => (.compiled (.error e), s)
  | .run tables r => (.ran (s.run tables r).1, (s.run tables r).2)
  | .runAll tables rs => (.ranAll (s.runAll tables rs).1, (s.runAll tables rs).2)

/-- The answers of a run. -/
def answers (s : Session) : List Operation → List Answer
  | [] => []
  | op :: ops => (s.perform op).1 :: answers (s.perform op).2 ops

/-- The session after a run. -/
def after (s : Session) : List Operation → Session
  | [] => s
  | op :: ops => after (s.perform op).2 ops

/-- The texts that a run hashes. -/
def hashed (s : Session) : List Operation → List String
  | [] => []
  | op :: ops =>
    op.requests.map (keyText s.store.revision) ++ hashed (s.perform op).2 ops

end Session

namespace Store

/-- What a request gives on some tables. -/
def answer (s : Store) (tables : Tables) (r : Request) : Except ExecutionError Result :=
  match s.compileRequest r with
  | .ok p => Engine.run tables p
  | .error e => .error (.compile e)

/-- An operation on the model alone, without a session. -/
def respond (s : Store) : Session.Operation → Session.Answer × Store
  | .amend amendments =>
    match s.apply amendments with
    | .ok (ids, t) => (.amended (.ok ids), t)
    | .error e => (.amended (.error e), s)
  | .compile r => (.compiled (s.compileRequest r), s)
  | .run tables r => (.ran (s.answer tables r), s)
  | .runAll tables rs => (.ranAll (rs.map (s.answer tables)), s)

end Store

namespace Session

/-! ## The cache -/

/-- Every cached plan is what a request compiles to on the model as it is now, and its key is
the digest of one of the texts. -/
def Sound (texts : List String) (s : Session) : Prop :=
  ∀ e ∈ s.plans, ∃ r : Request, r.Parsed ∧ e.1 = planKey s.store.revision r ∧
    keyText s.store.revision r ∈ texts ∧ s.store.compileRequest r = .ok e.2.plan

theorem Sound.ofStore (texts : List String) (store : Store) (planCache : Bool) :
    Sound texts (ofStore store planCache) := fun _ he => nomatch he

variable {texts : List String} {s : Session}

theorem Sound.cached (h : Sound texts s) (hd : NoCollision texts) {r : Request} (hr : r.Parsed)
    (ht : keyText s.store.revision r ∈ texts) {c : Compiled}
    (hc : s.cached? (planKey s.store.revision r) = some c) :
    s.store.compileRequest r = .ok c.plan := by
  unfold cached? at hc
  split at hc
  · obtain ⟨e, he, rfl⟩ := Option.map_eq_some_iff.mp hc
    obtain ⟨q, hq, hkey, htext, hplan⟩ := h e (List.mem_of_find?_eq_some he)
    have hsame : e.1 = planKey s.store.revision r := by
      simpa using List.find?_some he
    rw [hkey, planKey_eq, planKey_eq] at hsame
    obtain ⟨-, rfl⟩ := keyText_inj hq hr (hd _ htext _ ht hsame)
    exact hplan
  · cases hc

/-- What compiling does: the plan is that of the model, which stays, and so does soundness. -/
theorem Sound.compile (h : Sound texts s) (hd : NoCollision texts) {r : Request} (hr : r.Parsed)
    (ht : keyText s.store.revision r ∈ texts) :
    (∃ c t, s.compile r = .ok (c, t) ∧ s.store.compileRequest r = .ok c.plan ∧
      t.store = s.store ∧ Sound texts t) ∨
    ∃ e, s.compile r = .error e ∧ s.store.compileRequest r = .error e := by
  simp only [Session.compile]
  cases hc : s.cached? (planKey s.store.revision r) with
  | some c => exact .inl ⟨c, s, rfl, h.cached hd hr ht hc, rfl, h⟩
  | none =>
    cases hp : s.store.compileRequest r with
    | error e => exact .inr ⟨e, rfl, rfl⟩
    | ok p =>
      refine .inl ⟨_, _, rfl, rfl, rfl, fun e he => ?_⟩
      have he : e ∈ s.plans ∨ e = (planKey s.store.revision r, ⟨s.count, p⟩) := by
        split at he
        · simpa using he
        · exact .inl he
      rcases he with he | rfl
      · exact h e he
      · exact ⟨r, hr, rfl, ht, hp⟩

theorem Sound.run (h : Sound texts s) (hd : NoCollision texts) (tables : Tables) {r : Request}
    (hr : r.Parsed) (ht : keyText s.store.revision r ∈ texts) :
    (s.run tables r).1 = s.store.answer tables r ∧ (s.run tables r).2.store = s.store ∧
      Sound texts (s.run tables r).2 := by
  unfold Session.run Store.answer
  rcases h.compile hd hr ht with ⟨c, t, hc, hp, hstore, ht⟩ | ⟨e, hc, hp⟩
  · rw [hc, hp]
    exact ⟨rfl, hstore, ht⟩
  · rw [hc, hp]
    exact ⟨rfl, rfl, h⟩

theorem Sound.runAll (hd : NoCollision texts) (tables : Tables) : ∀ {rs : List Request}
    {s : Session}, Sound texts s → (∀ r ∈ rs, r.Parsed) →
    (∀ r ∈ rs, keyText s.store.revision r ∈ texts) →
    (s.runAll tables rs).1 = rs.map (s.store.answer tables) ∧
      (s.runAll tables rs).2.store = s.store ∧ Sound texts (s.runAll tables rs).2
  | [], s, h, _, _ => ⟨rfl, rfl, h⟩
  | r :: rs, s, h, hr, ht => by
    obtain ⟨hout, hstore, hs⟩ := h.run hd tables (hr r List.mem_cons_self) (ht r List.mem_cons_self)
    obtain ⟨houts, hstores, hss⟩ := Sound.runAll hd tables hs
      (fun q hq => hr q (List.mem_cons_of_mem r hq))
      (fun q hq => by rw [hstore]; exact ht q (List.mem_cons_of_mem r hq))
    rw [hstore] at houts hstores
    simp only [Session.runAll, List.map_cons, hout, houts, hstores, hss, and_self]

/-- One operation is answered as by the model alone, whatever is cached. -/
theorem perform_sound (h : Sound texts s) (hd : NoCollision texts) (op : Operation)
    (hr : ∀ r ∈ op.requests, r.Parsed)
    (ht : ∀ r ∈ op.requests, keyText s.store.revision r ∈ texts) :
    (s.perform op).1 = (s.store.respond op).1 ∧
      (s.perform op).2.store = (s.store.respond op).2 ∧ Sound texts (s.perform op).2 := by
  cases op with
  | amend amendments =>
    simp only [perform, Store.respond, Session.amend]
    cases ha : s.store.apply amendments with
    | error e => exact ⟨rfl, rfl, h⟩
    | ok out => exact ⟨rfl, rfl, fun _ he => nomatch he⟩
  | compile r =>
    simp only [perform, Store.respond]
    rcases h.compile hd (hr r List.mem_cons_self) (ht r List.mem_cons_self) with
      ⟨c, t, hc, hp, hstore, hs⟩ | ⟨e, hc, hp⟩
    · rw [hc, hp]
      exact ⟨rfl, hstore, hs⟩
    · rw [hc, hp]
      exact ⟨rfl, rfl, h⟩
  | run tables r =>
    obtain ⟨hout, hstore, hs⟩ := h.run hd tables (hr r List.mem_cons_self) (ht r List.mem_cons_self)
    exact ⟨congrArg Answer.ran hout, hstore, hs⟩
  | runAll tables rs =>
    obtain ⟨hout, hstore, hs⟩ := Sound.runAll hd tables h hr ht
    exact ⟨congrArg Answer.ranAll hout, hstore, hs⟩

/-! ## Whole runs -/

/-- Two sessions of one model whose caches are sound. -/
structure Beside (texts : List String) (s t : Session) : Prop where
  store : s.store = t.store
  left : Sound texts s
  right : Sound texts t

/-- One operation gives both one answer and leaves them beside each other. -/
theorem Beside.perform {s t : Session} (h : Beside texts s t) (hd : NoCollision texts)
    (op : Operation) (hr : ∀ r ∈ op.requests, r.Parsed)
    (ht : ∀ r ∈ op.requests, keyText s.store.revision r ∈ texts) :
    (s.perform op).1 = (t.perform op).1 ∧ Beside texts (s.perform op).2 (t.perform op).2 := by
  obtain ⟨hs, hstore, hsound⟩ := perform_sound h.left hd op hr ht
  rw [h.store] at hs hstore ht
  obtain ⟨ht, hstore', hsound'⟩ := perform_sound h.right hd op hr ht
  exact ⟨hs.trans ht.symm, hstore.trans hstore'.symm, hsound, hsound'⟩

theorem Beside.run (hd : NoCollision texts) : ∀ {ops : List Operation} {s t : Session},
    Beside texts s t → (∀ op ∈ ops, ∀ r ∈ op.requests, r.Parsed) →
    (∀ text ∈ s.hashed ops, text ∈ texts) →
    s.answers ops = t.answers ops ∧ Beside texts (s.after ops) (t.after ops)
  | [], s, t, h, _, _ => ⟨rfl, h⟩
  | op :: ops, s, t, h, hr, ht => by
    have now : ∀ r ∈ op.requests, keyText s.store.revision r ∈ texts := fun r hmem =>
      ht _ (List.mem_append_left _ (List.mem_map_of_mem hmem))
    obtain ⟨hanswer, hnext⟩ := h.perform hd op (hr op List.mem_cons_self) now
    obtain ⟨hanswers, hafter⟩ := Beside.run hd hnext
      (fun op' hmem => hr op' (List.mem_cons_of_mem op hmem))
      (fun text hmem => ht text (List.mem_append_right _ hmem))
    exact ⟨by rw [answers, answers, hanswer, hanswers], hafter⟩

theorem hashed_append (s : Session) : ∀ pre post : List Operation,
    s.hashed (pre ++ post) = s.hashed pre ++ (s.after pre).hashed post
  | [], _ => rfl
  | op :: pre, post => by
    rw [List.cons_append, hashed, hashed, hashed_append _ pre post, List.append_assoc, after]

/-- **The cache changes no answer.** Of a run whose requests were built, and whose hashed texts
have no collision, every answer is the same with and without the cache. At every step the model is
the same too, a compiled plan is the one the model gives, and of several requests each has the
answer that it has alone. -/
theorem answers_cached (store : Store) (ops : List Operation)
    (hb : ∀ op ∈ ops, ∀ r ∈ op.requests, r.Built)
    (hd : NoCollision ((ofStore store true).hashed ops)) :
    (ofStore store true).answers ops = (ofStore store false).answers ops ∧
    ∀ pre op post, ops = pre ++ op :: post →
      let s := (ofStore store true).after pre
      s.store = ((ofStore store false).after pre).store ∧
      (∀ r, op = .compile r → (s.perform op).1 = .compiled (s.store.compileRequest r)) ∧
      ∀ tables rs, op = .runAll tables rs →
        (s.perform op).1 = .ranAll (rs.map fun r => (s.run tables r).1) := by
  have start : Beside ((ofStore store true).hashed ops) (ofStore store true) (ofStore store false) :=
    ⟨rfl, Sound.ofStore _ _ _, Sound.ofStore _ _ _⟩
  have parsed : ∀ op ∈ ops, ∀ r ∈ op.requests, r.Parsed := fun op hop r hr => (hb op hop r hr).parsed
  refine ⟨(start.run hd parsed fun _ h => h).1, ?_⟩
  rintro pre op post rfl s
  have reached := (start.run hd (fun op' h => parsed op' (List.mem_append_left _ h)) fun text h => by
    rw [hashed_append]
    exact List.mem_append_left _ h).2
  have now : ∀ r ∈ op.requests, keyText s.store.revision r ∈
      (ofStore store true).hashed (pre ++ op :: post) := fun r hr => by
    rw [hashed_append, hashed]
    exact List.mem_append_right _ (List.mem_append_left _ (List.mem_map_of_mem hr))
  have hop : op ∈ pre ++ op :: post := by simp
  refine ⟨reached.store, ?_, ?_⟩
  · rintro r rfl
    exact (perform_sound reached.left hd _ (parsed _ hop) now).1
  · rintro tables rs rfl
    rw [(perform_sound reached.left hd _ (parsed _ hop) now).1, Store.respond]
    refine congrArg Answer.ranAll (List.map_congr_left fun r hr => ?_)
    exact (reached.left.run hd tables (parsed _ hop r hr) (now r hr)).1.symm

/-- Orders by their number and alone, from the cache and not, before and after they get a note. -/
theorem answers_cached_shop :
    let keys : Request := ⟨"orders", [⟨["id"]⟩], []⟩
    let bare : Request := ⟨"orders", [], []⟩
    let tables : Tables := ⟨[⟨"orders", ["id"], [[.int 1]]⟩]⟩
    let ops : List Operation := [.compile keys, .run tables keys,
      .amend [⟨"orders", ⟨"note", .scalar⟩⟩], .amend [], .runAll tables [keys, bare, keys]]
    (∀ op ∈ ops, ∀ r ∈ op.requests, r.Built) ∧
    NoCollision ((ofStore Store.shop true).hashed ops) ∧
    (ofStore Store.shop true).answers ops = (ofStore Store.shop false).answers ops := by
  intro keys bare tables ops
  have hkeys : keys.Built := .parse "orders" ["id"] [] rfl
  have hbare : bare.Built := .parse "orders" [] [] rfl
  have hb : ∀ op ∈ ops, ∀ r ∈ op.requests, r.Built := by
    simp [ops, Operation.requests, hkeys, hbare]
  have digests : ((ofStore Store.shop true).hashed ops).eraseDups.map Digest.ofText =
      ["2b919fc37321937d81a070a291e1ef1408af840ba09322c379808aff7019630a",
        "e6c4e5bb2953d63e2f1dbe410855a2fc91bf15c93d914feea479c01e24bc4630",
        "c9394c03144730f6b8363e5b7168b08e2f962f060dfb87a967a4da7759753d4a"] := by decide +kernel
  have hd : NoCollision ((ofStore Store.shop true).hashed ops) :=
    NoCollision.of_nodup (by rw [digests]; decide)
  exact ⟨hb, hd, (answers_cached Store.shop ops hb hd).1⟩

end Session

end Joinery
