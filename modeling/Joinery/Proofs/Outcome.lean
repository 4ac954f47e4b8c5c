/-
Outcomes of computations that may fail.

A sequence succeeds when each of its steps does (`bind_eq_ok_iff`). One outcome
is kept by another if its success is (`Kept`), and two agree if they are one
error or successes that are related (`Agree`); both pass through sequences, so
two runs of one program are compared step by step. Where the errors of the two are
of no interest, it is enough that both fail (`Parallel`). Whether something fails, and
why, is its `verdict`; that of a list is the first failure among its members. A
sequence fails only with errors of one kind if each of its steps does (`FailsOnly`),
and it accepts what each of its steps accepts (`Accepts`).
-/

import Mathlib.Data.List.Forall2

namespace Joinery

section

variable {ε ε' α β γ δ : Type}

theorem bind_eq_ok_iff {x : Except ε α} {f : α → Except ε β} {b : β} :
    (x >>= f) = .ok b ↔ ∃ a, x = .ok a ∧ f a = .ok b := by
  cases x <;> simp [bind, Except.bind]

theorem pure_eq_ok_iff {a b : α} : (pure a : Except ε α) = .ok b ↔ a = b := by
  simp [pure, Except.pure]

theorem map_eq_ok_iff {x : Except ε α} {f : α → β} {b : β} :
    x.map f = .ok b ↔ ∃ a, x = .ok a ∧ f a = b := by
  cases x <;> simp [Except.map]

theorem mapError_eq_ok_iff {x : Except ε α} {f : ε → ε'} {a : α} :
    x.mapError f = .ok a ↔ x = .ok a := by
  cases x <;> simp [Except.mapError]

theorem mapError_bind (f : ε → ε') (x : Except ε α) (g : α → Except ε β) :
    (x >>= g).mapError f = x.mapError f >>= fun a => (g a).mapError f := by
  cases x <;> rfl

theorem except_map_bind (f : β → γ) (x : Except ε α) (g : α → Except ε β) :
    (x >>= g).map f = x >>= fun a => (g a).map f := by
  cases x <;> rfl

theorem exists_ok {x : Except ε α} (h : x.toOption.isSome = true) : ∃ a, x = .ok a := by
  cases x with
  | error e => cases h
  | ok a => exact ⟨a, rfl⟩

theorem getElem?_concat_eq_some {xs : List α} {x y : α} {i : Nat} (h : (xs ++ [x])[i]? = some y) :
    xs[i]? = some y ∨ i = xs.length ∧ y = x := by
  rw [List.getElem?_append, List.getElem?_singleton] at h
  split at h
  · exact .inl h
  · split at h
    · cases h
      exact .inr ⟨by omega, rfl⟩
    · cases h

theorem forall₂_getElem? {R : α → β → Prop} {xs : List α} {ys : List β} (h : List.Forall₂ R xs ys)
    {i : Nat} {x : α} (hx : xs[i]? = some x) : ∃ y, ys[i]? = some y ∧ R x y := by
  induction h generalizing i with
  | nil => simp at hx
  | cons hab _ ih =>
    cases i with
    | zero =>
      cases hx
      exact ⟨_, rfl, hab⟩
    | succ i => exact ih hx

theorem forall₂_mem {R : α → β → Prop} {xs : List α} {ys : List β} (h : List.Forall₂ R xs ys)
    {x : α} (hx : x ∈ xs) : ∃ y ∈ ys, R x y := by
  obtain ⟨i, hi⟩ := List.getElem?_of_mem hx
  obtain ⟨y, hy, hR⟩ := forall₂_getElem? h hi
  exact ⟨y, List.mem_of_getElem? hy, hR⟩

theorem forall₂_congr_of_mem {R S : α → β → Prop} : ∀ {xs : List α} {ys : List β},
    (∀ x ∈ xs, ∀ y, R x y ↔ S x y) → (List.Forall₂ R xs ys ↔ List.Forall₂ S xs ys)
  | [], ys, _ => by rw [List.forall₂_nil_left_iff, List.forall₂_nil_left_iff]
  | x :: xs, ys, h => by
    have ih (ys : List β) : List.Forall₂ R xs ys ↔ List.Forall₂ S xs ys :=
      forall₂_congr_of_mem fun z hz => h z (List.mem_cons_of_mem x hz)
    simp only [List.forall₂_cons_left_iff, h x List.mem_cons_self, ih]

theorem forall₂_exists {R : α → β → Prop} : ∀ {xs : List α}, (∀ x ∈ xs, ∃ y, R x y) →
    ∃ ys, List.Forall₂ R xs ys
  | [], _ => ⟨[], .nil⟩
  | x :: xs, h => by
    obtain ⟨y, hy⟩ := h x List.mem_cons_self
    obtain ⟨ys, hys⟩ := forall₂_exists fun z hz => h z (List.mem_cons_of_mem x hz)
    exact ⟨y :: ys, .cons hy hys⟩

theorem forall₂_congr_left {R : α → γ → Prop} {S : β → γ → Prop} {xs : List α} {ys : List β}
    (h : List.Forall₂ (fun x y => ∀ z, R x z ↔ S y z) xs ys) (zs : List γ) :
    List.Forall₂ R xs zs ↔ List.Forall₂ S ys zs := by
  induction h generalizing zs with
  | nil => rw [List.forall₂_nil_left_iff, List.forall₂_nil_left_iff]
  | cons hxy _ ih => simp only [List.forall₂_cons_left_iff, hxy, ih]

theorem forall₂_map_eq {R : α → β → Prop} {f : α → γ} {g : β → γ} (hR : ∀ a b, R a b → f a = g b)
    {xs : List α} {ys : List β} (h : List.Forall₂ R xs ys) : xs.map f = ys.map g := by
  induction h with
  | nil => rfl
  | cons hab _ ih => rw [List.map_cons, List.map_cons, hR _ _ hab, ih]

theorem mapM_eq_ok_iff {f : α → Except ε β} : ∀ {xs : List α} {ys : List β},
    xs.mapM f = .ok ys ↔ List.Forall₂ (fun x y => f x = .ok y) xs ys
  | [], ys => by
    rw [List.mapM_nil, pure_eq_ok_iff, List.forall₂_nil_left_iff, eq_comm]
  | x :: xs, ys => by
    simp only [List.mapM_cons, bind_eq_ok_iff, pure_eq_ok_iff, mapM_eq_ok_iff,
      List.forall₂_cons_left_iff]
    constructor
    · rintro ⟨y, hy, ys, hys, rfl⟩
      exact ⟨y, ys, hy, hys, rfl⟩
    · rintro ⟨y, ys, hy, hys, rfl⟩
      exact ⟨y, hy, ys, hys, rfl⟩

theorem exists_mapM_ok_iff {f : α → Except ε β} {xs : List α} :
    (∃ ys, xs.mapM f = .ok ys) ↔ ∀ x ∈ xs, ∃ y, f x = .ok y := by
  simp only [mapM_eq_ok_iff]
  constructor
  · rintro ⟨ys, h⟩ x hx
    obtain ⟨y, -, hy⟩ := forall₂_mem h hx
    exact ⟨y, hy⟩
  · exact forall₂_exists

/-- Mapping does not tell members that are related apart. -/
theorem mapM_congr_forall₂ {R : α → β → Prop} {f : α → Except ε γ} {g : β → Except ε γ}
    (hR : ∀ a b, R a b → f a = g b) {xs : List α} {ys : List β} (h : List.Forall₂ R xs ys) :
    xs.mapM f = ys.mapM g := by
  induction h with
  | nil => rfl
  | cons hab _ ih => rw [List.mapM_cons, List.mapM_cons, hR _ _ hab, ih]

theorem optionRel_cases {R : α → β → Prop} {x : Option α} {y : Option β} (h : Option.Rel R x y) :
    (x = none ∧ y = none) ∨ ∃ a b, x = some a ∧ y = some b ∧ R a b := by
  cases h with
  | none => exact .inl ⟨rfl, rfl⟩
  | some h => exact .inr ⟨_, _, rfl, rfl, h⟩

/-! ## Success that is kept -/

/-- If the first succeeds, so does the second, with the same value. -/
def Kept (x y : Except ε α) : Prop := ∀ a, x = .ok a → y = .ok a

theorem Kept.refl (x : Except ε α) : Kept x x := fun _ h => h

theorem Kept.error {e : ε} {y : Except ε α} : Kept (.error e) y := fun _ h => nomatch h

theorem Kept.bind {x y : Except ε α} {f g : α → Except ε β} (h : Kept x y)
    (hf : ∀ a, x = .ok a → Kept (f a) (g a)) : Kept (x >>= f) (y >>= g) := by
  intro b hb
  obtain ⟨a, ha, hb⟩ := bind_eq_ok_iff.mp hb
  exact bind_eq_ok_iff.mpr ⟨a, h a ha, hf a ha b hb⟩

theorem Kept.mapError {x y : Except ε α} {f g : ε → ε'} (h : Kept x y) :
    Kept (x.mapError f) (y.mapError g) :=
  fun a ha => mapError_eq_ok_iff.mpr (h a (mapError_eq_ok_iff.mp ha))

/-! ## Outcomes that agree -/

/-- Both fail with one error, or both succeed with values that are related. -/
inductive Agree (R : α → β → Prop) : Except ε α → Except ε β → Prop where
  | ok {a : α} {b : β} (h : R a b) : Agree R (.ok a) (.ok b)
  | error (e : ε) : Agree R (.error e) (.error e)

namespace Agree

variable {R R' : α → β → Prop} {Q : γ → δ → Prop} {x : Except ε α} {y : Except ε β}

theorem left (h : Agree R x y) {a : α} (hx : x = .ok a) : ∃ b, y = .ok b ∧ R a b := by
  cases h with
  | ok h => cases hx; exact ⟨_, rfl, h⟩
  | error e => cases hx

theorem right (h : Agree R x y) {b : β} (hy : y = .ok b) : ∃ a, x = .ok a ∧ R a b := by
  cases h with
  | ok h => cases hy; exact ⟨_, rfl, h⟩
  | error e => cases hy

theorem mono (h : Agree R x y) (hR : ∀ a b, R a b → R' a b) : Agree R' x y := by
  cases h with
  | ok h => exact .ok (hR _ _ h)
  | error e => exact .error e

/-- What is known to agree may be related by whatever relates its values. -/
theorem sharpen (h : Agree R x y) (hR : ∀ a b, x = .ok a → y = .ok b → R' a b) : Agree R' x y := by
  cases h with
  | ok _ => exact .ok (hR _ _ rfl rfl)
  | error e => exact .error e

theorem refl (x : Except ε α) : Agree Eq x x := by
  cases x with
  | ok a => exact .ok rfl
  | error e => exact .error e

theorem eq {y : Except ε α} (h : Agree Eq x y) : x = y := by
  cases h with
  | ok h => rw [h]
  | error e => rfl

theorem bind {f : α → Except ε γ} {g : β → Except ε δ} (h : Agree R x y)
    (hf : ∀ a b, R a b → Agree Q (f a) (g b)) : Agree Q (x >>= f) (y >>= g) := by
  cases h with
  | ok h => exact hf _ _ h
  | error e => exact .error e

theorem step {R' : α → δ → Prop} {g : β → Except ε δ} (h : Agree R x y)
    (hg : ∀ a b, R a b → ∃ d, g b = .ok d ∧ R' a d) : Agree R' x (y >>= g) := by
  cases h with
  | ok h =>
    obtain ⟨d, hd, hR⟩ := hg _ _ h
    show Agree R' _ (g _)
    rw [hd]
    exact .ok hR
  | error e => exact .error e

theorem mapError {f : ε → ε'} (h : Agree R x y) : Agree R (x.mapError f) (y.mapError f) := by
  cases h with
  | ok h => exact .ok h
  | error e => exact .error (f e)

theorem mapM {S : γ → δ → Prop} {f : γ → Except ε α} {g : δ → Except ε β} {xs : List γ} {ys : List δ}
    (h : List.Forall₂ S xs ys) (hfg : ∀ c d, S c d → Agree R (f c) (g d)) :
    Agree (List.Forall₂ R) (xs.mapM f) (ys.mapM g) := by
  induction h with
  | nil => exact .ok .nil
  | cons hcd _ ih =>
    rw [List.mapM_cons, List.mapM_cons]
    exact (hfg _ _ hcd).bind fun a b hab => ih.bind fun _ _ hs => .ok (.cons hab hs)

end Agree

/-! ## Outcomes of which both fail or neither -/

/-- Both fail, with whatever errors, or both succeed with values that are related. -/
inductive Parallel (R : α → β → Prop) : Except ε α → Except ε' β → Prop where
  | ok {a : α} {b : β} (h : R a b) : Parallel R (.ok a) (.ok b)
  | error (e : ε) (e' : ε') : Parallel R (.error e) (.error e')

namespace Parallel

variable {R : α → β → Prop} {Q : γ → δ → Prop} {x : Except ε α} {y : Except ε β}

theorem refl (x : Except ε α) : Parallel Eq x x := by
  cases x with
  | ok a => exact .ok rfl
  | error e => exact .error e e

theorem of_ok {x : Except ε α} {y : Except ε' β} (hx : ∀ a, x = .ok a → ∃ b, y = .ok b ∧ R a b)
    (hy : ∀ b, y = .ok b → ∃ a, x = .ok a) : Parallel R x y := by
  cases x with
  | ok a =>
    obtain ⟨b, rfl, hR⟩ := hx a rfl
    exact .ok hR
  | error e =>
    cases y with
    | ok b =>
      obtain ⟨a, ha⟩ := hy b rfl
      cases ha
    | error e' => exact .error e e'

theorem left (h : Parallel R x y) {a : α} (hx : x = .ok a) : ∃ b, y = .ok b ∧ R a b := by
  cases h with
  | ok h => cases hx; exact ⟨_, rfl, h⟩
  | error e e' => cases hx

theorem bind {f : α → Except ε γ} {g : β → Except ε δ} (h : Parallel R x y)
    (hf : ∀ a b, x = .ok a → y = .ok b → R a b → Parallel Q (f a) (g b)) :
    Parallel Q (x >>= f) (y >>= g) := by
  cases h with
  | ok h => exact hf _ _ rfl rfl h
  | error e e' => exact .error e e'

theorem mono {R' : α → β → Prop} (h : Parallel R x y) (hR : ∀ a b, R a b → R' a b) : Parallel R' x y := by
  cases h with
  | ok h => exact .ok (hR _ _ h)
  | error e e' => exact .error e e'

theorem mapError {f g : ε → ε'} (h : Parallel R x y) : Parallel R (x.mapError f) (y.mapError g) := by
  cases h with
  | ok h => exact .ok h
  | error e e' => exact .error (f e) (g e')

end Parallel

/-! ## Verdicts -/

/-- The outcome without its value. -/
def verdict (x : Except ε α) : Except ε Unit := x.map fun _ => ()

theorem verdict_eq_ok_iff {x : Except ε α} : verdict x = .ok () ↔ ∃ a, x = .ok a := by
  cases x <;> simp [verdict, Except.map]

theorem verdict_eq_error_iff {x : Except ε α} {e : ε} : verdict x = .error e ↔ x = .error e := by
  cases x <;> simp [verdict, Except.map]

theorem verdict_unit (x : Except ε Unit) : verdict x = x := by
  cases x <;> rfl

theorem verdict_bind {x : Except ε α} {f : α → Except ε β} {y : Except ε Unit}
    (h : ∀ a, x = .ok a → verdict (f a) = y) : verdict (x >>= f) = verdict x >>= fun _ => y := by
  cases x with
  | error e => rfl
  | ok a => exact h a rfl

/-- Mapping a list succeeds when each member does, and the first that does not gives the error. -/
theorem verdict_mapM (f : α → Except ε β) : ∀ xs : List α,
    verdict (xs.mapM f) = forM xs fun x => verdict (f x)
  | [] => rfl
  | x :: xs => by
    rw [List.mapM_cons, List.forM_cons, ← verdict_mapM f xs]
    refine verdict_bind fun a _ => ?_
    cases xs.mapM f <;> rfl

theorem Agree.verdict {R : α → β → Prop} {x : Except ε α} {y : Except ε β} (h : Agree R x y) :
    verdict x = verdict y := by
  cases h <;> rfl

theorem forM_eq_ok {f : α → Except ε Unit} : ∀ {xs : List α}, (∀ x ∈ xs, f x = .ok ()) →
    forM xs f = .ok ()
  | [], _ => rfl
  | x :: xs, h => by
    rw [List.forM_cons, h x (by simp)]
    exact forM_eq_ok fun y hy => h y (List.mem_cons_of_mem x hy)

theorem forM_eq_error {f : α → Except ε Unit} {e : ε} {x : α} {before after : List α}
    (hb : ∀ y ∈ before, f y = .ok ()) (hx : f x = .error e) :
    forM (before ++ x :: after) f = .error e := by
  rw [List.forM_append, forM_eq_ok hb, List.forM_cons, hx]
  rfl

/-- What fails has a first step that fails. -/
theorem exists_of_forM_eq_error {f : α → Except ε Unit} {e : ε} : ∀ {xs : List α}, forM xs f = .error e →
    ∃ before x after, xs = before ++ x :: after ∧ (∀ y ∈ before, f y = .ok ()) ∧ f x = .error e
  | [], h => nomatch h
  | x :: xs, h => by
    rw [List.forM_cons] at h
    cases hx : f x with
    | error e' =>
      rw [hx] at h
      cases h
      exact ⟨[], x, xs, rfl, by simp, hx⟩
    | ok _ =>
      rw [hx] at h
      obtain ⟨before, y, after, rfl, hbefore, hy⟩ := exists_of_forM_eq_error h
      exact ⟨x :: before, y, after, rfl, List.forall_mem_cons.mpr ⟨hx, hbefore⟩, hy⟩

/-! ## Failures of one kind -/

/-- If it fails, the error is of this kind. -/
def FailsOnly (P : ε → Prop) (x : Except ε α) : Prop := ∀ e, x = .error e → P e

namespace FailsOnly

variable {P Q : ε → Prop} {x : Except ε α}

theorem ok (a : α) : FailsOnly P (.ok a : Except ε α) := fun _ h => nomatch h

theorem error {e : ε} (h : P e) : FailsOnly P (.error e : Except ε α) := by
  rintro _ ⟨⟩
  exact h

theorem mono (h : FailsOnly P x) (hPQ : ∀ e, P e → Q e) : FailsOnly Q x :=
  fun e he => hPQ e (h e he)

theorem bind {f : α → Except ε β} (h : FailsOnly P x) (hf : ∀ a, x = .ok a → FailsOnly P (f a)) :
    FailsOnly P (x >>= f) := by
  cases x with
  | ok a => exact hf a rfl
  | error e => exact .error (h e rfl)

theorem map {f : α → β} (h : FailsOnly P x) : FailsOnly P (x.map f) := by
  cases x with
  | ok a => exact .ok _
  | error e => exact .error (h e rfl)

theorem mapError {P : ε' → Prop} {f : ε → ε'} (h : FailsOnly (fun e => P (f e)) x) :
    FailsOnly P (x.mapError f) := by
  cases x with
  | ok a => exact .ok a
  | error e => exact .error (h e rfl)

theorem mapM {f : α → Except ε β} : ∀ {xs : List α}, (∀ x ∈ xs, FailsOnly P (f x)) →
    FailsOnly P (xs.mapM f)
  | [], _ => by
    rw [List.mapM_nil]
    exact .ok []
  | x :: xs, h => by
    rw [List.mapM_cons]
    refine (h x List.mem_cons_self).bind fun y _ => ?_
    exact (FailsOnly.mapM fun z hz => h z (List.mem_cons_of_mem x hz)).bind fun ys _ => .ok (y :: ys)

end FailsOnly

/-! ## Exact conditions of success -/

/-- It succeeds just if the input is valid, and then with a value of which `post` holds. -/
def Accepts (x : Except ε α) (valid : Prop) (post : α → Prop) : Prop :=
  match x with
  | .ok a => valid ∧ post a
  | .error _ => ¬ valid

namespace Accepts

variable {x : Except ε α} {valid valid' : Prop} {post : α → Prop}

theorem ok {a : α} (hv : valid) (hp : post a) : Accepts (.ok a : Except ε α) valid post := ⟨hv, hp⟩

theorem error {e : ε} (hv : ¬ valid) : Accepts (.error e) valid post := hv

/-- The condition may be put in other words, and the value of a success has every property that a success
has. -/
theorem imp {post' : α → Prop} (h : Accepts x valid post) (hv : valid ↔ valid')
    (hp : ∀ a, x = .ok a → post a → post' a) : Accepts x valid' post' := by
  cases x with
  | ok a => exact ⟨hv.mp h.1, hp a rfl h.2⟩
  | error e => exact fun hvalid => h (hv.mpr hvalid)

theorem bind {f : α → Except ε β} {post' : β → Prop} (h : Accepts x valid post)
    (hf : ∀ a, valid → post a → Accepts (f a) valid' post') :
    Accepts (x >>= f) (valid ∧ valid') post' := by
  cases x with
  | error e => exact fun hvalid => h hvalid.1
  | ok a =>
    obtain ⟨hv, hp⟩ := h
    have hfa := hf a hv hp
    show Accepts (f a) (valid ∧ valid') post'
    exact hfa.imp (and_iff_right hv).symm fun _ _ hpost => hpost

theorem bind_pure {f : α → β} {post' : β → Prop} (h : Accepts x valid post)
    (hp : ∀ a, post a → post' (f a)) : Accepts (x >>= fun a => pure (f a)) valid post' := by
  cases x with
  | ok a => exact ⟨h.1, hp a h.2⟩
  | error e => exact h

theorem map {f : α → β} {post : β → Prop} (h : Accepts x valid fun a => post (f a)) :
    Accepts (x.map f) valid post := by
  cases x with
  | ok a => exact h
  | error e => exact h

theorem mapError {f : ε → ε'} (h : Accepts x valid post) : Accepts (x.mapError f) valid post := by
  cases x with
  | ok a => exact h
  | error e => exact h

theorem mapM {f : α → Except ε β} {g : α → β} {valid : α → Prop} : ∀ {xs : List α},
    (∀ x ∈ xs, Accepts (f x) (valid x) (· = g x)) →
    Accepts (xs.mapM f) (∀ x ∈ xs, valid x) (· = xs.map g)
  | [], _ => by
    rw [List.mapM_nil]
    exact .ok (by simp) rfl
  | x :: xs, h => by
    rw [List.mapM_cons]
    have hrest := Accepts.mapM fun z hz => h z (List.mem_cons_of_mem x hz)
    have hall : Accepts _ _ (· = (x :: xs).map g) := (h x List.mem_cons_self).bind fun y _ hy =>
      hrest.bind_pure fun ys hys => by rw [hy, hys, List.map_cons]
    exact hall.imp List.forall_mem_cons.symm fun _ _ hpost => hpost

end Accepts

end

end Joinery
