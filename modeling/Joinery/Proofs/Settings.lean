/-
Expanding a text part by part.

The reader of a text with references goes on behind a part where it stands
(`piecesFrom_append`), and where it stands shows in what it has read (`Stands.run`).
So unless the border cuts a reference, the pieces of two texts in a row are those of the
one and then those of the other (`pieces_append`), and so are their values
(`expand_append`). What a variable holds is put in as it is, between the two.
-/
import Joinery.Proofs.Outcome
import Joinery.Settings

namespace Joinery

/-! ## Where the reader stands -/

/-- The pieces that a text completes, and where the reader stands behind it. -/
def Scan.run (scan : Scan) : List Char → List Piece × Scan
  | [] => ([], scan)
  | c :: cs => ((scan.step c).1 ++ ((scan.step c).2.run cs).1, ((scan.step c).2.run cs).2)

theorem piecesFrom_append (b : List Char) : ∀ (a : List Char) (scan : Scan),
    piecesFrom scan (a ++ b) = (scan.run a).1 ++ piecesFrom (scan.run a).2 b
  | [], scan => rfl
  | c :: a, scan => by
    rw [List.cons_append, piecesFrom, piecesFrom_append b a, Scan.run, List.append_assoc]

theorem piecesFrom_eq (scan : Scan) (a : List Char) :
    piecesFrom scan a = (scan.run a).1 ++ (scan.run a).2.finish := by
  have h := piecesFrom_append [] a scan
  rwa [List.append_nil] at h

/-- What was read last, by where the reader stands. -/
def Scan.Stands (read : List Char) : Scan → Prop
  | .outside | .braced _ => True
  | .dollar => ∃ before, read = before ++ ['$']
  | .bare name => (∃ before, read = before ++ '$' :: name.reverse) ∧ ∀ c ∈ name, isNameChar c = true

namespace Scan.Stands

theorem ordinary (read : List Char) (c : Char) : Stands (read ++ [c]) (ordinary c).2 := by
  unfold Joinery.ordinary
  by_cases hc : c = '$'
  · rw [if_pos hc, hc]
    exact ⟨read, rfl⟩
  · rw [if_neg hc]
    trivial

/-- One character more. -/
theorem step {read : List Char} {scan : Scan} (h : scan.Stands read) (c : Char) :
    (scan.step c).2.Stands (read ++ [c]) := by
  cases scan with
  | outside => exact ordinary read c
  | dollar =>
    obtain ⟨before, rfl⟩ := h
    simp only [Scan.step]
    by_cases hb : c = '{'
    · rw [if_pos hb]
      trivial
    rw [if_neg hb]
    by_cases hn : isNameChar c = true
    · rw [if_pos hn]
      exact ⟨⟨before, by simp⟩, by simpa using hn⟩
    · rw [if_neg hn]
      exact ordinary _ c
  | bare name =>
    obtain ⟨⟨before, rfl⟩, hname⟩ := h
    simp only [Scan.step]
    by_cases hn : isNameChar c = true
    · rw [if_pos hn]
      exact ⟨⟨before, by simp⟩, List.forall_mem_cons.mpr ⟨hn, hname⟩⟩
    · rw [if_neg hn]
      exact ordinary _ c
  | braced name =>
    simp only [Scan.step]
    by_cases hb : c = '}'
    · rw [if_pos hb]
      trivial
    · rw [if_neg hb]
      trivial

theorem run : ∀ (a : List Char) {read : List Char} {scan : Scan}, scan.Stands read →
    (scan.run a).2.Stands (read ++ a)
  | [], read, scan, h => by
    rw [List.append_nil]
    exact h
  | c :: a, read, scan, h => by
    have hrest := run a (h.step c)
    rw [List.append_assoc, List.singleton_append] at hrest
    exact hrest

end Scan.Stands

/-! ## Borders -/

/-- The border between two texts cuts no reference: behind a dollar sign and name characters to the end
of the first, the second goes on with no name character, and behind a dollar sign at the end with no
brace. -/
structure Parted (a b : List Char) : Prop where
  name : ∀ before name, a = before ++ '$' :: name → '$' ∉ name → (∀ c ∈ name, isNameChar c = true) →
    ∀ c ∈ b.head?, isNameChar c = false
  brace : a.getLast? = some '$' → b.head? ≠ some '{'

theorem isNameChar_dollar : isNameChar '$' = false := by decide +kernel

/-- At such a border the reader completes its piece and starts anew, unless it stands in braces. -/
theorem Parted.restart {a b : List Char} (h : Parted a b) {scan : Scan} (hs : scan.Stands a)
    (hbraced : ∀ name, scan ≠ .braced name) : piecesFrom scan b = scan.finish ++ piecesFrom .outside b := by
  cases b with
  | nil => simp [piecesFrom, Scan.finish]
  | cons c b =>
    cases scan with
    | outside => rfl
    | dollar =>
      obtain ⟨before, rfl⟩ := hs
      have hc : isNameChar c = false := h.name before [] rfl (by simp) (by simp) c rfl
      have hb : c ≠ '{' := by simpa using h.brace (by simp)
      simp [piecesFrom, Scan.step, Scan.finish, hb, hc]
    | bare name =>
      obtain ⟨⟨before, rfl⟩, hname⟩ := hs
      have hdollar : '$' ∉ name.reverse := by
        intro hmem
        have hd := hname '$' (by simpa using hmem)
        rw [isNameChar_dollar] at hd
        cases hd
      have hc : isNameChar c = false :=
        h.name before name.reverse rfl hdollar (by simpa using hname) c rfl
      simp [piecesFrom, Scan.step, Scan.finish, hc]
    | braced name => exact absurd rfl (hbraced name)

theorem pieces_append {a b : String} (h : Parted a.toList b.toList) (ha : .unterminated ∉ pieces a) :
    pieces (a ++ b) = pieces a ++ pieces b := by
  have hbraced : ∀ name, (Scan.outside.run a.toList).2 ≠ .braced name := by
    intro name hb
    apply ha
    rw [pieces, piecesFrom_eq, hb]
    simp [Scan.finish]
  have hstart : Scan.outside.Stands [] := trivial
  have hstands : (Scan.outside.run a.toList).2.Stands a.toList := hstart.run a.toList
  rw [pieces, String.toList_append, piecesFrom_append, h.restart hstands hbraced,
    ← List.append_assoc, ← piecesFrom_eq]
  rfl

/-! ## Values -/

/-- An error of a part of a text, reported on the whole. -/
def SettingsError.onWhole (text : String) : SettingsError → SettingsError
  | .unterminatedReference _ => .unterminatedReference text
  | e => e

variable {values : String → Option String}

theorem expand_eq_ok_iff {text x : String} : expand values text = .ok x ↔ ∃ parts,
    (pieces text).mapM (Piece.value values text) = .ok parts ∧ String.ofList parts.flatten = x := by
  simp only [expand, bind_eq_ok_iff, pure_eq_ok_iff]

theorem unterminated_not_mem {text x : String} (h : expand values text = .ok x) :
    .unterminated ∉ pieces text := by
  intro hmem
  obtain ⟨parts, hparts, -⟩ := expand_eq_ok_iff.mp h
  obtain ⟨part, -, hpart⟩ := forall₂_mem (mapM_eq_ok_iff.mp hparts) hmem
  cases hpart

/-- Only a reference without its closing brace is reported with the text that it stands in. -/
theorem Piece.value_onWhole (text whole : String) (p : Piece) :
    p.value values whole = (p.value values text).mapError (.onWhole whole) := by
  rcases p with c | name | _
  · rfl
  · simp only [Piece.value]
    cases values name <;> rfl
  · rfl

theorem mapM_value_onWhole (text whole : String) : ∀ ps : List Piece,
    ps.mapM (Piece.value values whole) =
      (ps.mapM (Piece.value values text)).mapError (.onWhole whole)
  | [] => rfl
  | p :: ps => by
    simp only [List.mapM_cons, mapError_bind]
    rw [← Piece.value_onWhole, ← mapM_value_onWhole text whole ps]
    rfl

/-- The values of the pieces of two texts in a row. -/
theorem expand_parted {a b x : String} (ha : expand values a = .ok x)
    (h : Parted a.toList b.toList) :
    expand values (a ++ b) = ((expand values b).map (x ++ ·)).mapError (.onWhole (a ++ b)) := by
  have hpieces := pieces_append h (unterminated_not_mem ha)
  obtain ⟨parts, hparts, rfl⟩ := expand_eq_ok_iff.mp ha
  have hfirst : (pieces a).mapM (Piece.value values (a ++ b)) = .ok parts := by
    rw [mapM_value_onWhole a, hparts]
    rfl
  simp only [expand, hpieces, List.mapM_append, hfirst, mapM_value_onWhole b (a ++ b) (pieces b)]
  cases (pieces b).mapM (Piece.value values b) with
  | error e => rfl
  | ok more => simp [bind, Except.bind, pure, Except.pure, Except.map, Except.mapError]

/-- The two ways to fail. -/
def ExpansionError (values : String → Option String) (text : String) (e : SettingsError) : Prop :=
  (∃ name, e = .missingVariable name ∧ values name = none) ∨ e = .unterminatedReference text

theorem expand_fails (text : String) :
    FailsOnly (ExpansionError values text) (expand values text) := by
  unfold expand
  refine (FailsOnly.mapM fun p _ => ?_).bind fun parts _ => .ok _
  rcases p with c | name | _
  · exact .ok _
  · simp only [Piece.value]
    cases hv : values name with
    | some value => exact .ok _
    | none => exact .error (.inl ⟨name, rfl, hv⟩)
  · exact .error (.inr rfl)

/-! ## Single references -/

theorem Parted.of_last {a b : List Char} {c : Char} (ha : a.getLast? = some c) (hd : c ≠ '$')
    (hn : isNameChar c = false) : Parted a b := by
  refine ⟨?_, fun hlast => ?_⟩
  · rintro before name rfl - hname
    rcases List.eq_nil_or_concat name with rfl | ⟨init, d, rfl⟩
    · simp at ha
      exact absurd ha.symm hd
    · have hc : d = c := by simpa [List.getLast?_cons] using ha
      rw [← hc, hname d (by simp)] at hn
      cases hn
  · rw [ha, Option.some.injEq] at hlast
    exact absurd hlast hd

theorem Parted.of_head {b : List Char} (a : List Char)
    (h : ∀ c ∈ b.head?, isNameChar c = false ∧ c ≠ '{') : Parted a b :=
  ⟨fun _ _ _ _ _ c hc => (h c hc).1, fun _ hbrace => (h '{' hbrace).2 rfl⟩

theorem piecesFrom_braced : ∀ {name : List Char} (read : List Char), '}' ∉ name →
    piecesFrom (.braced read) (name ++ ['}']) = [reference (name.reverse ++ read)]
  | [], read, _ => by simp [piecesFrom, Scan.step, Scan.finish]
  | c :: name, read, h => by
    simp only [List.mem_cons, not_or] at h
    simp [piecesFrom, Scan.step, Ne.symm h.1, piecesFrom_braced (c :: read) h.2]

theorem piecesFrom_bare : ∀ {name : List Char} (read : List Char), (∀ c ∈ name, isNameChar c = true) →
    piecesFrom (.bare read) name = [reference (name.reverse ++ read)]
  | [], read, _ => by simp [piecesFrom, Scan.finish]
  | c :: name, read, h => by
    obtain ⟨hc, hname⟩ := List.forall_mem_cons.mp h
    simp [piecesFrom, Scan.step, hc, piecesFrom_bare (c :: read) hname]

theorem reference_reverse {name : String} (hne : name ≠ "") :
    reference name.toList.reverse = .variable name := by
  simp [reference, hne]

/-- A name in braces stands for its value, whatever else the name is made of. -/
theorem expand_braced {name value : String} (hne : name ≠ "") (hname : '}' ∉ name.toList)
    (hvalue : values name = some value) : expand values ("$\x7b" ++ name ++ "\x7d") = .ok value := by
  have hpieces : pieces ("$\x7b" ++ name ++ "\x7d") = [.variable name] := by
    have hread := piecesFrom_braced [] hname
    rw [List.append_nil, reference_reverse hne] at hread
    simpa [pieces, piecesFrom, Scan.step, ordinary] using hread
  rw [expand_eq_ok_iff, hpieces]
  exact ⟨[value.toList], by simp [Piece.value, hvalue], by simp⟩

/-- So does one without braces. -/
theorem expand_bare {name value : String} (hne : name ≠ "")
    (hname : ∀ c ∈ name.toList, isNameChar c = true) (hvalue : values name = some value) :
    expand values ("$" ++ name) = .ok value := by
  have hpieces : pieces ("$" ++ name) = [.variable name] := by
    have hlist : name.toList ≠ [] := by simpa using hne
    obtain ⟨c, cs, hcs⟩ := List.exists_cons_of_ne_nil hlist
    rw [hcs] at hname
    obtain ⟨hc, hrest⟩ := List.forall_mem_cons.mp hname
    have hb : c ≠ '{' := by
      rintro rfl
      revert hc
      decide +kernel
    have hread := piecesFrom_bare [c] hrest
    rw [← List.reverse_cons, ← hcs, reference_reverse hne] at hread
    simpa [pieces, hcs, piecesFrom, Scan.step, ordinary, hb, hc] using hread
  rw [expand_eq_ok_iff, hpieces]
  exact ⟨[value.toList], by simp [Piece.value, hvalue], by simp⟩

/-- No dollar sign of the text starts a reference: behind each comes neither a name character nor a
brace. -/
def Unreferring (u : List Char) : Prop :=
  ∀ before after, u = before ++ '$' :: after → ∀ c ∈ after.head?, isNameChar c = false ∧ c ≠ '{'

theorem piecesFrom_unreferring : ∀ {u : List Char}, Unreferring u →
    piecesFrom .outside u = u.map .char
  | [], _ => rfl
  | c :: u, h => by
    have hrest : Unreferring u := by
      rintro before after rfl
      exact h (c :: before) after rfl
    have ih := piecesFrom_unreferring hrest
    by_cases hc : c = '$'
    · subst hc
      have hparted : Parted ['$'] u := .of_head _ (h [] u rfl)
      have hstands : Scan.dollar.Stands ['$'] := ⟨[], rfl⟩
      have hrestart := hparted.restart hstands nofun
      rw [piecesFrom]
      simp [Scan.step, ordinary, hrestart, Scan.finish, ih]
    · rw [piecesFrom]
      simp [Scan.step, ordinary, hc, ih]

theorem expand_unreferring {u : String} (h : Unreferring u.toList) : expand values u = .ok u := by
  have hvalues : ∀ cs : List Char, (cs.map Piece.char).mapM (Piece.value values u) =
      .ok (cs.map ([·])) := by
    intro cs
    rw [mapM_eq_ok_iff, List.forall₂_map_left_iff, List.forall₂_map_right_iff]
    exact List.forall₂_same.mpr fun _ _ => rfl
  rw [expand_eq_ok_iff, pieces, piecesFrom_unreferring h]
  refine ⟨_, hvalues u.toList, ?_⟩
  rw [← List.flatMap_def, List.flatMap_singleton', String.ofList_toList]

/-! ## The whole -/

/-- What stands before and behind a reference, each expanded for itself. -/
theorem expand_around {a b reference x y value : String} (ha : expand values a = .ok x)
    (hb : expand values b = .ok y) (hvalue : expand values reference = .ok value)
    (hhead : reference.toList.head? = some '$') (h : Parted reference.toList b.toList) :
    expand values (a ++ reference ++ b) = .ok (x ++ value ++ y) := by
  have hback : expand values (reference ++ b) = .ok (value ++ y) := by
    rw [expand_parted hvalue h, hb]
    rfl
  have hborder : Parted a.toList (reference ++ b).toList := by
    refine .of_head _ fun c hc => ?_
    rw [String.toList_append, List.head?_append, hhead] at hc
    cases hc
    exact ⟨isNameChar_dollar, by decide⟩
  rw [String.append_assoc, expand_parted ha hborder, hback, String.append_assoc]
  rfl

/-- **A text is expanded in one pass, part by part.** A text that follows one that expands fares as it does
for itself, unless the border cuts a reference; a reference between two texts puts its value between
theirs, whatever the value holds; and what refers to nothing stays as it is. -/
theorem expand_append {a x : String} (ha : expand values a = .ok x) :
    (∀ b, Parted a.toList b.toList →
      (∀ y, expand values b = .ok y → expand values (a ++ b) = .ok (x ++ y)) ∧
      (∀ name, expand values b = .error (.missingVariable name) →
        expand values (a ++ b) = .error (.missingVariable name)) ∧
      (∀ whole, expand values b = .error (.unterminatedReference whole) →
        expand values (a ++ b) = .error (.unterminatedReference (a ++ b))) ∧
      ∀ e, expand values b = .error e → ExpansionError values b e) ∧
    (∀ b y name value, expand values b = .ok y → values name = some value → name ≠ "" →
      ('}' ∉ name.toList →
        expand values (a ++ ("$\x7b" ++ name ++ "\x7d") ++ b) = .ok (x ++ value ++ y)) ∧
      ((∀ c ∈ name.toList, isNameChar c = true) → (∀ c ∈ b.toList.head?, isNameChar c = false) →
        expand values (a ++ ("$" ++ name) ++ b) = .ok (x ++ value ++ y))) ∧
    ∀ u, Unreferring u.toList → expand values u = .ok u := by
  refine ⟨fun b h => ⟨fun y hb => ?_, fun name hb => ?_, fun whole hb => ?_, expand_fails b⟩,
    fun b y name value hb hvalue hne => ⟨fun hname => ?_, fun hname hhead => ?_⟩,
    fun u => expand_unreferring⟩
  · rw [expand_parted ha h, hb]
    rfl
  · rw [expand_parted ha h, hb]
    rfl
  · rw [expand_parted ha h, hb]
    rfl
  · refine expand_around ha hb (expand_braced hne hname hvalue) (by simp) ?_
    exact Parted.of_last (c := '}') (by simp [List.getLast?_cons]) (by decide) (by decide +kernel)
  · refine expand_around ha hb (expand_bare hne hname hvalue) (by simp) ⟨fun _ _ _ _ _ => hhead, ?_⟩
    -- the last character is one of the name
    intro hlast
    have hlist : name.toList ≠ [] := by simpa using hne
    rw [String.toList_append, List.getLast?_append_of_ne_nil _ hlist] at hlast
    have hd := hname '$' (List.mem_of_getLast? hlast)
    rw [isNameChar_dollar] at hd
    cases hd

/-- A value that looks like a reference, and a lone dollar sign at the border. -/
theorem expand_append_lone :
    let values : String → Option String := fun name =>
      if name = "A" then some "$B$\x7b" else if name = "B" then some "b" else none
    let a := "in $\x7bA\x7d, $"
    expand values a = .ok "in $B$\x7b, $" ∧ Parted a.toList " 5 $B!".toList ∧
      expand values (a ++ " 5 $B!") = .ok ("in $B$\x7b, $" ++ " 5 b!") ∧
      expand values (a ++ " 5 $\x7bC\x7d $\x7b") = .error (.missingVariable "C") := by
  intro values a
  have ha : expand values a = .ok "in $B$\x7b, $" := by decide +kernel
  have hb : expand values " 5 $B!" = .ok " 5 b!" := by decide +kernel
  have hc : expand values " 5 $\x7bC\x7d $\x7b" = .error (.missingVariable "C") := by decide +kernel
  have hborder : ∀ b : String, b.toList.head? = some ' ' → Parted a.toList b.toList := by
    intro b hhead
    refine .of_head _ fun c h => ?_
    rw [hhead] at h
    cases h
    exact ⟨by decide +kernel, by decide⟩
  exact ⟨ha, hborder _ (by decide), ((expand_append ha).1 _ (hborder _ (by decide))).1 _ hb,
    ((expand_append ha).1 _ (hborder _ (by decide))).2.1 _ hc⟩

end Joinery
