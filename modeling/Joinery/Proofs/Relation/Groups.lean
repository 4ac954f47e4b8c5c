/-
The groups of joined rows in closed form.

There is one group for each signature, in the order in which signatures first
occur; its keys are the cells of the first row of the signature, and its rows
are all rows of the signature in their order (`groups_eq`).
-/
import Joinery.Proofs.Relation.Repeats
import Joinery.Relation.Engine
import Mathlib.Data.List.Induction

namespace Joinery.Engine

open Json (Value)

/-- The signature of a joined row that has these cells as keys. -/
def signatureOf (cells : JoinedRow → List Value) (row : JoinedRow) : String :=
  Cell.signature (cells row)

/-- The rows of a signature. -/
def groupOf (cells : JoinedRow → List Value) (rows : List JoinedRow) (signature : String) : Group :=
  { signature
    keys := ((rows.find? (signatureOf cells · == signature)).map cells).getD []
    rows := rows.filter (signatureOf cells · == signature) }

/-- The groups of some rows, by the cells that are their keys. -/
def groupsBy (cells : JoinedRow → List Value) (rows : List JoinedRow) : List Group :=
  (rows.map (signatureOf cells)).eraseDups.map (groupOf cells rows)

theorem addRow_mem {signature : String} {keys : List Value} {row : JoinedRow}
    {g : String → Group} (hg : ∀ t, (g t).signature = t) : ∀ {ts : List String}, ts.Nodup →
    signature ∈ ts → addRow signature keys row (ts.map g) =
      ts.map fun t => if t = signature then { g t with rows := (g t).rows ++ [row] } else g t
  | [], _, h => nomatch h
  | t :: ts, hnodup, h => by
    obtain ⟨ht, hts⟩ := List.nodup_cons.mp hnodup
    rw [List.map_cons, List.map_cons, addRow]
    by_cases hsame : t = signature
    · subst hsame
      rw [if_pos (hg t), if_pos rfl]
      refine congrArg (_ :: ·) (List.map_congr_left fun u hu => ?_)
      have hne : u ≠ t := fun he => ht (he ▸ hu)
      rw [if_neg hne]
    · have hmem : signature ∈ ts := (List.mem_cons.mp h).resolve_left fun he => hsame he.symm
      rw [if_neg fun he => hsame ((hg t).symm.trans he), if_neg hsame, addRow_mem hg hts hmem]

/-- A row of a new signature starts a group. -/
theorem addRow_not_mem {signature : String} {keys : List Value} {row : JoinedRow}
    {g : String → Group} (hg : ∀ t, (g t).signature = t) : ∀ {ts : List String},
    signature ∉ ts → addRow signature keys row (ts.map g) = ts.map g ++ [⟨signature, keys, [row]⟩]
  | [], _ => rfl
  | t :: ts, h => by
    have hne : t ≠ signature := fun he => h (he ▸ List.mem_cons_self)
    rw [List.map_cons, addRow, hg, if_neg hne,
      addRow_not_mem hg fun hm => h (List.mem_cons_of_mem t hm), List.cons_append]

theorem groupsBy_append (cells : JoinedRow → List Value) (rows : List JoinedRow) (row : JoinedRow) :
    addRow (signatureOf cells row) (cells row) row (groupsBy cells rows) =
      groupsBy cells (rows ++ [row]) := by
  have hsignature (rows : List JoinedRow) (t : String) : (groupOf cells rows t).signature = t := rfl
  have other {t : String} (ht : signatureOf cells row ≠ t) :
      groupOf cells (rows ++ [row]) t = groupOf cells rows t := by
    simp [groupOf, List.find?_append, List.filter_append, ht]
  unfold groupsBy
  rw [List.map_append, List.map_singleton, List.eraseDups_append]
  by_cases hm : signatureOf cells row ∈ rows.map (signatureOf cells)
  · have hgone : [signatureOf cells row].removeAll (rows.map (signatureOf cells)) = [] := by
      simpa [List.removeAll] using hm
    rw [hgone, List.eraseDups_nil, List.append_nil,
      addRow_mem (hsignature rows) (nodup_eraseDups _) (List.mem_eraseDups.mpr hm)]
    refine List.map_congr_left fun t _ => ?_
    by_cases ht : t = signatureOf cells row
    · obtain ⟨r, hr, hsame⟩ := List.mem_map.mp hm
      have hfound : (rows.find? (signatureOf cells · == signatureOf cells row)).isSome :=
        List.find?_isSome.mpr ⟨r, hr, by simpa using hsame⟩
      obtain ⟨q, hq⟩ := Option.isSome_iff_exists.mp hfound
      subst ht
      simp [groupOf, List.find?_append, List.filter_append, hq]
    · rw [if_neg ht, other fun he => ht he.symm]
  · have hnew : [signatureOf cells row].removeAll (rows.map (signatureOf cells)) =
        [signatureOf cells row] := by
      simpa [List.removeAll] using hm
    have hnone : ∀ r ∈ rows, signatureOf cells r ≠ signatureOf cells row := fun r hr he =>
      hm (List.mem_map.mpr ⟨r, hr, he⟩)
    have hfind : rows.find? (signatureOf cells · == signatureOf cells row) = none :=
      List.find?_eq_none.mpr fun r hr => by simpa using hnone r hr
    have hfilter : rows.filter (signatureOf cells · == signatureOf cells row) = [] :=
      List.filter_eq_nil_iff.mpr fun r hr => by simpa using hnone r hr
    have hgroup : groupOf cells (rows ++ [row]) (signatureOf cells row) =
        ⟨signatureOf cells row, cells row, [row]⟩ := by
      simp [groupOf, List.find?_append, List.filter_append, hfind, hfilter]
    have hold : (rows.map (signatureOf cells)).eraseDups.map (groupOf cells (rows ++ [row])) =
        (rows.map (signatureOf cells)).eraseDups.map (groupOf cells rows) :=
      List.map_congr_left fun t ht => other fun he => hm (List.mem_eraseDups.mp (he ▸ ht))
    rw [hnew, addRow_not_mem (hsignature rows) fun h => hm (List.mem_eraseDups.mp h),
      List.map_append, hold, ← hgroup]
    rfl

theorem foldl_addRow (cells : JoinedRow → List Value) (rows : List JoinedRow) :
    rows.foldl (fun gs row => addRow (signatureOf cells row) (cells row) row gs) [] =
      groupsBy cells rows := by
  induction rows using List.reverseRecOn with
  | nil => rfl
  | append_singleton rows row ih =>
    rw [List.foldl_append, ih, List.foldl_cons, List.foldl_nil, groupsBy_append]

/-- The groups in closed form; without keys all rows are one group, even if there are none. -/
theorem groups_eq (relations : List Relation) (keys : List Place) (rows : List JoinedRow) :
    groups relations keys rows =
      if keys = [] then [⟨Cell.signature [], [], rows⟩]
      else groupsBy (fun row => keys.map (cell relations row)) rows := by
  unfold groups
  cases keys with
  | nil => rfl
  | cons k ks =>
    rw [if_neg (List.cons_ne_nil k ks)]
    exact foldl_addRow (fun row => (k :: ks).map (cell relations row)) rows

theorem groupsBy_signatures_nodup (cells : JoinedRow → List Value) (rows : List JoinedRow) :
    ((groupsBy cells rows).map (·.signature)).Nodup := by
  unfold groupsBy
  rw [List.map_map]
  exact (List.map_id _).symm ▸ nodup_eraseDups _

theorem mem_groupsBy_iff {cells : JoinedRow → List Value} {rows : List JoinedRow} {g : Group} :
    g ∈ groupsBy cells rows ↔ ∃ row ∈ rows, groupOf cells rows (signatureOf cells row) = g := by
  simp only [groupsBy, List.mem_map, List.mem_eraseDups, exists_exists_and_eq_and]

theorem groupsBy_keys {cells : JoinedRow → List Value} {rows : List JoinedRow} {g : Group}
    (hg : g ∈ groupsBy cells rows) : ∃ row ∈ g.rows, g.keys = cells row := by
  obtain ⟨r, hr, rfl⟩ := mem_groupsBy_iff.mp hg
  have hfound : (rows.find? (signatureOf cells · == signatureOf cells r)).isSome :=
    List.find?_isSome.mpr ⟨r, hr, beq_self_eq_true _⟩
  obtain ⟨q, hq⟩ := Option.isSome_iff_exists.mp hfound
  have hsig := List.find?_some hq
  refine ⟨q, List.mem_filter.mpr ⟨List.mem_of_find?_eq_some hq, hsig⟩, ?_⟩
  simp only [groupOf, hq, Option.map_some, Option.getD_some]

theorem groups_keys_length {relations : List Relation} {keys : List Place} {rows : List JoinedRow}
    {g : Group} (hg : g ∈ groups relations keys rows) : g.keys.length = keys.length := by
  rw [groups_eq] at hg
  split at hg
  · next hk =>
    rw [List.mem_singleton.mp hg, hk]
    rfl
  · obtain ⟨row, _, hkeys⟩ := groupsBy_keys hg
    rw [hkeys, List.length_map]

end Joinery.Engine
