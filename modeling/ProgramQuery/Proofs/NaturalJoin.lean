import Mathlib.Data.List.Induction
import ProgramQuery.Proofs.Joining

/-!
# Joins of several tables

Tables of values and of pairs are joined one after another, each to what has come of the earlier
ones. The columns of the result, and the place of each column in it, depend on the order of the
tables. What can be read from it by the names of the columns does not: the result has the columns of
all tables, and its rows are those of the assignments that fit every table.

The table that joining starts with stands for no table at all, and not for the join of none. It has
no rows, although every assignment fits all of no tables.

## Main definitions

- `Table.IsPlain`: the tables that joins are made of.
- `Table.joinAll`: tables joined one after another.
- `Table.IsJoinOf`: a table has the columns of some tables and is fitted by what fits all of them.

## Main statements

- `Table.IsJoinOf.join`, `Table.isJoinOf_joinAll`: one more table, and all tables.
- `Table.tuples_joinAll`: what can be read from joined tables, whatever their order.
-/

namespace ProgramQuery

namespace Table

/-- The tables of values in one column, and of pairs of values in two different ones. -/
inductive IsPlain : Table → Prop where
  | values (column : String) (values : List String) : IsPlain (ofValues column values)
  | pairs {first second : String} (hne : first ≠ second) (pairs : List (String × String)) :
      IsPlain (ofPairs first second pairs)

theorem IsPlain.isRegular {t : Table} (h : t.IsPlain) : t.IsRegular := by
  cases h with
  | values column values => exact isRegular_ofValues column values
  | pairs hne pairs => exact isRegular_ofPairs hne pairs

theorem IsPlain.columns_ne_nil {t : Table} (h : t.IsPlain) : t.columns ≠ [] := by
  cases h <;> exact List.cons_ne_nil _ _

/-- Joins some tables one after another, starting with no table. -/
def joinAll (tables : List Table) : Table :=
  tables.foldl join {}

theorem joinAll_concat (tables : List Table) (t : Table) :
    joinAll (tables ++ [t]) = (joinAll tables).join t := by
  simp [joinAll]

/-- The table has the columns of the tables in the list, and is fitted by the assignments that fit
all of them. -/
structure IsJoinOf (t : Table) (tables : List Table) : Prop where
  isRegular : t.IsRegular
  mem_columns : ∀ c, c ∈ t.columns ↔ ∃ u ∈ tables, c ∈ u.columns
  fits_iff : ∀ v, t.Fits v ↔ ∀ u ∈ tables, u.Fits v

namespace IsJoinOf

variable {t u : Table} {tables others : List Table}

theorem singleton (h : t.IsPlain) : t.IsJoinOf [t] :=
  ⟨h.isRegular, by simp, by simp⟩

theorem columns_ne_nil (h : t.IsJoinOf tables) (hu : u ∈ tables) (hplain : u.IsPlain) :
    t.columns ≠ [] := by
  obtain ⟨c, hc⟩ := List.exists_mem_of_ne_nil _ hplain.columns_ne_nil
  exact List.ne_nil_of_mem ((h.mem_columns c).mpr ⟨u, hu, hc⟩)

/-- One more table adds its columns and what it says about them. -/
theorem join (h : t.IsJoinOf tables) (hne : t.columns ≠ []) (hu : u.IsPlain) :
    (t.join u).IsJoinOf (tables ++ [u]) where
  isRegular := h.isRegular.join hu.isRegular
  mem_columns c := by
    rw [mem_columns_join, h.mem_columns]
    simp [or_and_right, exists_or]
  fits_iff v := by
    rw [fits_join h.isRegular hu.isRegular hne, h.fits_iff]
    simp [or_imp, forall_and]

theorem perm (h : t.IsJoinOf tables) (hperm : tables.Perm others) : t.IsJoinOf others :=
  ⟨h.isRegular, by simpa [hperm.mem_iff] using h.mem_columns,
    by simpa [hperm.mem_iff] using h.fits_iff⟩

theorem rows_eq_nil_iff (h : t.IsJoinOf tables) :
    t.rows = [] ↔ ¬∃ v, ∀ u ∈ tables, u.Fits v := by
  constructor
  · rintro hnil ⟨v, hv⟩
    have hmem : t.Fits v := (h.fits_iff v).mpr hv
    rw [Fits, hnil] at hmem
    cases hmem
  · intro hnone
    refine List.eq_nil_iff_forall_not_mem.mpr fun row hrow => hnone ?_
    obtain ⟨v, hv, -⟩ := h.isRegular.exists_fits hrow
    exact ⟨v, (h.fits_iff v).mp hv⟩

/-- Tuples are missing if a column is in no table. -/
theorem tuples?_eq_none_iff (h : t.IsJoinOf tables) {columns : List String} :
    t.tuples? columns = none ↔ ∃ c ∈ columns, ∀ u ∈ tables, c ∉ u.columns := by
  simp [tuples?, h.mem_columns]

/-- The tuples are the parts of the assignments that fit all tables. -/
theorem mem_of_tuples? (h : t.IsJoinOf tables) {columns : List String} {rows : List Row}
    (hrows : t.tuples? columns = some rows) {row : Row} :
    row ∈ rows ↔ ∃ v : String → String, (∀ u ∈ tables, u.Fits v) ∧ row = columns.map v := by
  have hcolumns : ∀ c ∈ columns, c ∈ t.columns := by
    have hsome : t.tuples? columns ≠ none := by simp [hrows]
    intro c hc
    by_contra hnot
    exact hsome (h.tuples?_eq_none_iff.mpr ⟨c, hc, fun u hu hin =>
      hnot ((h.mem_columns c).mpr ⟨u, hu, hin⟩)⟩)
  have hmem : (∃ rows, t.tuples? columns = some rows ∧ row ∈ rows) ↔
      ∃ v, t.Fits v ∧ row = columns.map v := mem_tuples? h.isRegular hcolumns
  simpa [hrows, h.fits_iff] using hmem

/-- All joins of the same tables have the same tuples. -/
theorem tuples?_congr (h : t.IsJoinOf tables) (h' : u.IsJoinOf tables) (columns : List String) :
    t.tuples? columns = u.tuples? columns := by
  have hall : columns.all (· ∈ t.columns) = columns.all (· ∈ u.columns) := by
    simp [h.mem_columns, h'.mem_columns]
  by_cases hcolumns : columns.all (· ∈ t.columns) = true
  · have hrows : t.tuples? columns = some _ := if_pos hcolumns
    have hrows' : u.tuples? columns = some _ := if_pos (hall ▸ hcolumns)
    rw [hrows, hrows']
    refine congrArg some (ascending_congr fun row => ?_)
    rw [← mem_ascending, h.mem_of_tuples? hrows, ← h'.mem_of_tuples? hrows', mem_ascending]
  · rw [tuples?, tuples?, if_neg hcolumns, if_neg (hall ▸ hcolumns)]

end IsJoinOf

/-- Tables that are joined one after another give their join. -/
theorem isJoinOf_joinAll {tables : List Table} (htables : ∀ t ∈ tables, t.IsPlain)
    (hne : tables ≠ []) : (joinAll tables).IsJoinOf tables := by
  induction tables using List.reverseRecOn with
  | nil => exact absurd rfl hne
  | append_singleton tables u ih =>
    have hu : u.IsPlain := htables u (by simp)
    have hplain : ∀ t ∈ tables, t.IsPlain := fun t ht => htables t (List.mem_append_left _ ht)
    rw [joinAll_concat]
    rcases tables with _ | ⟨t, rest⟩
    · -- the first table takes the place of the start
      exact .singleton hu
    · have hjoin := ih hplain (List.cons_ne_nil t rest)
      exact hjoin.join (hjoin.columns_ne_nil List.mem_cons_self (hplain t List.mem_cons_self)) hu

theorem joinSome_eq_none_iff {t u : Table} :
    Candidates.joinSome t u = none ↔ (t.join u).rows = [] := by
  simp [Candidates.joinSome]

/-- Tables of values and pairs can be joined in any order. The tuples of some columns are missing if
one of the columns is in no table, and otherwise they are the parts of those assignments that fit
all tables. The last table to be joined leaves nothing if there is no such assignment. Before the
first table is joined there are no tuples, and none of any column. -/
theorem tuples_joinAll {tables sequence : List Table} (htables : ∀ t ∈ tables, t.IsPlain)
    (hperm : sequence.Perm tables) :
    (∀ columns, (joinAll sequence).tuples? columns = (joinAll tables).tuples? columns) ∧
    (∀ columns, (joinAll sequence).tuples? columns = none ↔
      ∃ c ∈ columns, ∀ t ∈ tables, c ∉ t.columns) ∧
    (tables ≠ [] → ∀ columns rows, (joinAll sequence).tuples? columns = some rows →
      ∀ row, row ∈ rows ↔
        ∃ v : String → String, (∀ t ∈ tables, t.Fits v) ∧ row = columns.map v) ∧
    (tables = [] → (joinAll sequence).tuples? [] = some []) ∧
    ∀ earlier last, sequence = earlier ++ [last] →
      (Candidates.joinSome (joinAll earlier) last = none ↔ ¬∃ v, ∀ t ∈ tables, t.Fits v) := by
  by_cases hne : tables = []
  · subst hne
    obtain rfl := hperm.eq_nil
    refine ⟨fun columns => rfl, fun columns => ?_, fun hne => absurd rfl hne, fun _ => rfl, ?_⟩
    · simp [tuples?, joinAll]
    · intro earlier last hsequence
      simp at hsequence
  · have hplain : ∀ t ∈ sequence, t.IsPlain := fun t ht => htables t (hperm.mem_iff.mp ht)
    have hne' : sequence ≠ [] := fun hnil => hne (hnil ▸ hperm).nil_eq.symm
    have hjoin := (isJoinOf_joinAll hplain hne').perm hperm
    refine ⟨hjoin.tuples?_congr (isJoinOf_joinAll htables hne),
      fun columns => hjoin.tuples?_eq_none_iff,
      fun _ columns rows hrows row => hjoin.mem_of_tuples? hrows, fun hnil => absurd hnil hne, ?_⟩
    rintro earlier last rfl
    rw [joinSome_eq_none_iff, ← joinAll_concat, hjoin.rows_eq_nil_iff]

/-- Without a table there are no tuples, also of no columns, although every assignment fits all of
no tables and has a part in no columns. -/
theorem tuples_joinAll_nil : ¬∃ rows, (joinAll []).tuples? [] = some rows ∧
    ∀ row : Row, row ∈ rows ↔
      ∃ v : String → String, (∀ t ∈ ([] : List Table), t.Fits v) ∧
        row = ([] : List String).map v := by
  rintro ⟨rows, hrows, hmem⟩
  have hnil : (joinAll []).tuples? [] = some [] := rfl
  obtain rfl := Option.some.inj (hnil.symm.trans hrows)
  exact absurd ((hmem []).mpr ⟨id, by simp, rfl⟩) List.not_mem_nil

/-- Three tables in a ring of columns, two of them with a column in another order. -/
def ring : List Table :=
  [ofPairs "a" "b" [("1", "2"), ("3", "4")], ofPairs "c" "b" [("x", "2"), ("y", "4"), ("x", "4")],
    ofPairs "a" "c" [("1", "x"), ("3", "x"), ("3", "z")]]

/-- The last table of the ring shares both of its columns with the earlier ones, in whatever order
the tables come. -/
theorem tuples_joinAll_ring :
    (∀ t ∈ ring, t.IsPlain) ∧ (joinAll ring.reverse).columns = ["a", "c", "b"] ∧
      (joinAll ring.reverse).tuples? ["b", "a"] = some [["2", "1"], ["4", "3"]] ∧
      (joinAll ring).tuples? ["b", "a"] = some [["2", "1"], ["4", "3"]] ∧
      (∃ v, ∀ t ∈ ring, t.Fits v) ∧ (joinAll ring.reverse).tuples? ["b", "d"] = none := by
  have hplain : ∀ t ∈ ring, t.IsPlain := by
    simp only [ring, List.forall_mem_cons]
    exact ⟨.pairs (by decide) _, .pairs (by decide) _, .pairs (by decide) _, by simp⟩
  obtain ⟨hsame, hnone, hrows, -, -⟩ := tuples_joinAll hplain (List.reverse_perm ring)
  have htuples : (joinAll ring.reverse).tuples? ["b", "a"] = some [["2", "1"], ["4", "3"]] := by
    decide +kernel
  refine ⟨hplain, by decide +kernel, htuples, (hsame _).symm.trans htuples, ?_,
    (hnone _).mpr ⟨"d", by decide, by decide⟩⟩
  obtain ⟨v, hv, -⟩ := (hrows (List.cons_ne_nil _ _) _ _ htuples ["2", "1"]).mp (by decide)
  exact ⟨v, hv⟩

end Table

end ProgramQuery
