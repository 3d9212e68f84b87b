import ProgramQuery.Proofs.Settling
import ProgramQuery.Query.Answer

/-!
# Rows as assignments

A row of a table gives a value to every column. An assignment of values to names fits a table if
the row that it gives is in the table. The natural join of two tables is fitted by the assignments
that fit both, so joining constraints finds the assignments that all of them admit.

## Main definitions

- `Table.Fits`: the row of an assignment is in the table.
- `Table.Represents`: the table is fitted by the assignments with a property.

## Main statements

- `Table.fits_join`: the join is fitted by what fits both tables.
- `Candidates.mem_rows?`: the rows for some synonyms are those of the assignments that are admitted
  by all constraints involved.
-/

namespace ProgramQuery

namespace Table

/-- The columns are distinct and every row has a value for each. -/
structure IsRegular (t : Table) : Prop where
  nodup : t.columns.Nodup
  length_eq : ∀ row ∈ t.rows, row.length = t.columns.length

/-- The row of an assignment is in the table. -/
def Fits (t : Table) (v : String → String) : Prop :=
  t.columns.map v ∈ t.rows

theorem zip_map_self (columns : List String) (v : String → String) :
    columns.zip (columns.map v) = columns.map fun c => (c, v c) := by
  induction columns with
  | nil => rfl
  | cons c columns ih => rw [List.map_cons, List.zip_cons_cons, ih, List.map_cons]

theorem lookup_map_self {columns : List String} (v : String → String) {c : String}
    (hc : c ∈ columns) : (columns.map fun c => (c, v c)).lookup c = some (v c) := by
  induction columns with
  | nil => cases hc
  | cons d columns ih =>
    rw [List.map_cons, Domains.lookup_cons_eq]
    split
    · rename_i heq
      rw [heq]
    · rename_i hne
      exact ih ((List.mem_cons.mp hc).resolve_left hne)

/-- Every regular row is the row of an assignment. -/
theorem exists_map_eq {columns : List String} (hnodup : columns.Nodup) {row : Row}
    (hlength : row.length = columns.length) : ∃ v : String → String, columns.map v = row := by
  induction columns generalizing row with
  | nil => exact ⟨id, (List.length_eq_zero_iff.mp hlength).symm⟩
  | cons c columns ih =>
    cases row with
    | nil => cases hlength
    | cons value row =>
      obtain ⟨hc, hcolumns⟩ := List.nodup_cons.mp hnodup
      obtain ⟨v, rfl⟩ := ih hcolumns (Nat.succ.inj hlength)
      refine ⟨fun d => if d = c then value else v d, ?_⟩
      rw [List.map_cons, if_pos rfl]
      refine congrArg (value :: ·) (List.map_congr_left fun d hd => if_neg ?_)
      rintro rfl
      exact hc hd

theorem IsRegular.exists_fits {t : Table} (h : t.IsRegular) {row : Row} (hrow : row ∈ t.rows) :
    ∃ v, t.Fits v ∧ row = t.columns.map v := by
  obtain ⟨v, rfl⟩ := exists_map_eq h.nodup (h.length_eq row hrow)
  exact ⟨v, hrow, rfl⟩

theorem project_map {t : Table} (v : String → String) {columns : List String}
    (h : ∀ c ∈ columns, c ∈ t.columns) :
    t.project (t.columns.map v) columns = columns.map v := by
  refine List.map_congr_left fun c hc => ?_
  rw [value, zip_map_self, lookup_map_self v (h c hc), Option.getD_some]

theorem split_map (t u : Table) (v : String → String) : split t u (u.columns.map v) =
    ((u.columns.filter (· ∈ t.columns)).map v, (u.columns.filter (· ∉ t.columns)).map v) := by
  rw [split, zip_map_self]
  simp [List.partition_eq_filter_filter, List.filter_map, Function.comp_def]

theorem mem_columns_join {t u : Table} {c : String} :
    c ∈ (t.join u).columns ↔ c ∈ t.columns ∨ c ∈ u.columns := by
  rw [join]
  split
  · rename_i hnil
    simp [hnil]
  · by_cases hc : c ∈ t.columns <;> simp [hc]

/-- The natural join is fitted by what fits both tables. -/
theorem fits_join {t u : Table} (ht : t.IsRegular) (hu : u.IsRegular) (hne : t.columns ≠ [])
    {v : String → String} : (t.join u).Fits v ↔ t.Fits v ∧ u.Fits v := by
  have hshared : ∀ c ∈ u.columns.filter (· ∈ t.columns), c ∈ t.columns := by
    intro c hc
    simpa using (List.mem_filter.mp hc).2
  rw [Fits, join, if_neg hne, List.map_append, List.mem_flatMap]
  simp only [List.mem_map, mem_getD_groupPairs]
  constructor
  · rintro ⟨row, hrow, extra, ⟨row', hrow', hsplit⟩, heq⟩
    obtain ⟨rfl, rfl⟩ := List.append_inj heq (by rw [ht.length_eq row hrow, List.length_map])
    refine ⟨hrow, ?_⟩
    -- the row of `u` has the values of the assignment in all of its columns
    obtain ⟨w, hw, rfl⟩ := hu.exists_fits hrow'
    rw [split_map, project_map v hshared] at hsplit
    obtain ⟨hin, hout⟩ := Prod.mk.inj hsplit
    have hsame : u.columns.map v = u.columns.map w := by
      refine List.map_congr_left fun c hc => ?_
      by_cases hct : c ∈ t.columns
      · exact (List.map_inj_left.mp hin c (by simp [hc, hct])).symm
      · exact (List.map_inj_left.mp hout c (by simp [hc, hct])).symm
    rw [Fits, hsame]
    exact hw
  · rintro ⟨hrow, hrow'⟩
    exact ⟨_, hrow, _, ⟨_, hrow', by rw [split_map, project_map v hshared]⟩, rfl⟩

theorem IsRegular.join {t u : Table} (ht : t.IsRegular) (hu : u.IsRegular) :
    (t.join u).IsRegular := by
  rw [Table.join]
  split
  · exact hu
  · constructor
    · refine List.nodup_append.mpr ⟨ht.nodup, hu.nodup.filter _, ?_⟩
      rintro c hc d hd rfl
      simpa [hc] using (List.mem_filter.mp hd).2
    · intro row hrow
      obtain ⟨row, hmem, hrow⟩ := List.mem_flatMap.mp hrow
      obtain ⟨extra, hextra, rfl⟩ := List.mem_map.mp hrow
      obtain ⟨row', hrow', hsplit⟩ := List.mem_map.mp (mem_getD_groupPairs.mp hextra)
      obtain ⟨w, -, rfl⟩ := hu.exists_fits hrow'
      rw [split_map] at hsplit
      rw [List.length_append, List.length_append, ht.length_eq row hmem,
        ← (Prod.mk.inj hsplit).2, List.length_map]

theorem isRegular_ofValues (column : String) (values : List String) :
    (ofValues column values).IsRegular :=
  ⟨by simp [ofValues], by simp [ofValues]⟩

theorem isRegular_ofPairs {first second : String} (h : first ≠ second)
    (pairs : List (String × String)) : (ofPairs first second pairs).IsRegular := by
  refine ⟨by simp [ofPairs, h], fun row hrow => ?_⟩
  obtain ⟨p, -, rfl⟩ := List.mem_map.mp hrow
  rfl

@[simp]
theorem fits_ofValues {column : String} {values : List String} {v : String → String} :
    (ofValues column values).Fits v ↔ v column ∈ values := by
  simp [Fits, ofValues]

@[simp]
theorem fits_ofPairs {first second : String} {pairs : List (String × String)}
    {v : String → String} :
    (ofPairs first second pairs).Fits v ↔ (v first, v second) ∈ pairs := by
  simp [Fits, ofPairs]

/-- The table, if there is one, is fitted by the assignments with a property. The table without
columns stands for a join that has not started, and there is no table if no assignment has the
property. -/
def Represents (t? : Option Table) (P : (String → String) → Prop) : Prop :=
  match t? with
  | none => ∀ v, ¬P v
  | some t => t.IsRegular ∧ ∀ v, (t.columns = [] ∨ t.Fits v) ↔ P v

theorem represents_empty : Represents (some {}) fun _ => True :=
  ⟨⟨List.nodup_nil, nofun⟩, fun _ => iff_true_intro (.inl rfl)⟩

theorem Represents.congr {t? : Option Table} {P Q : (String → String) → Prop}
    (h : Represents t? P) (hPQ : ∀ v, P v ↔ Q v) : Represents t? Q := by
  cases t? with
  | none => exact fun v hQ => h v ((hPQ v).mpr hQ)
  | some t => exact ⟨h.1, fun v => (h.2 v).trans (hPQ v)⟩

theorem Represents.bind {t? : Option Table} {f : Table → Option Table}
    {P Q : (String → String) → Prop} (h : Represents t? P)
    (hf : ∀ t, t? = some t → Represents (some t) P → Represents (f t) Q)
    (hQ : ∀ v, Q v → P v) : Represents (t? >>= f) Q := by
  cases t? with
  | none => exact fun v hv => h v (hQ v hv)
  | some t => exact hf t rfl h

/-- Joining a table adds what it says. -/
theorem Represents.joinSome {t u : Table} {P : (String → String) → Prop}
    (h : Represents (some t) P) (hu : u.IsRegular) (hne : u.columns ≠ []) :
    Represents (Candidates.joinSome t u) fun v => P v ∧ u.Fits v := by
  obtain ⟨ht, hP⟩ := h
  have hfits : ∀ v, (t.join u).Fits v ↔ P v ∧ u.Fits v := by
    intro v
    rw [← hP]
    by_cases hnil : t.columns = []
    · rw [join, if_pos hnil]
      simp [hnil]
    · rw [fits_join ht hu hnil]
      simp [hnil]
  rw [Candidates.joinSome]
  split
  · rename_i hempty
    intro v hv
    have hmem := (hfits v).mpr hv
    rw [Fits, List.isEmpty_iff.mp hempty] at hmem
    cases hmem
  · refine ⟨ht.join hu, fun v => ?_⟩
    refine Iff.trans (or_iff_right fun hnil => ?_) (hfits v)
    obtain ⟨c, hc⟩ := List.exists_mem_of_ne_nil _ hne
    have hmem : c ∈ (t.join u).columns := mem_columns_join.mpr (.inr hc)
    rw [hnil] at hmem
    cases hmem

theorem joinSome_eq {t u t' : Table} (h : Candidates.joinSome t u = some t') : t' = t.join u := by
  rw [Candidates.joinSome] at h
  split at h
  · cases h
  · exact (Option.some.inj h).symm

/-- The tuples of a table are the parts of the rows of the assignments that fit it. -/
theorem mem_tuples? {t : Table} (ht : t.IsRegular) {columns : List String}
    (hcolumns : ∀ c ∈ columns, c ∈ t.columns) {row : Row} :
    (∃ rows, t.tuples? columns = some rows ∧ row ∈ rows) ↔
      ∃ v, t.Fits v ∧ row = columns.map v := by
  have hall : columns.all (· ∈ t.columns) = true := by
    simpa using hcolumns
  rw [tuples?, if_pos hall]
  simp only [Option.some.injEq, exists_eq_left', mem_ascending, List.mem_map]
  constructor
  · rintro ⟨r, hr, rfl⟩
    obtain ⟨v, hv, rfl⟩ := ht.exists_fits hr
    exact ⟨v, hv, project_map v hcolumns⟩
  · rintro ⟨v, hv, rfl⟩
    exact ⟨_, hv, project_map v hcolumns⟩

end Table

namespace Candidates

/-- Joining constraints adds what each of them admits. -/
theorem represents_joinConstraints {t : Table} {pending : List Constraint}
    {P : (String → String) → Prop} (h : Table.Represents (some t) P)
    (hpending : ∀ c ∈ pending, c.first ≠ c.second) :
    Table.Represents (joinConstraints t pending) fun v => P v ∧ ∀ c ∈ pending, c.Admits v := by
  fun_induction joinConstraints t pending generalizing P with
  | case1 t pending hnext =>
    have hnil : pending = [] := by
      rw [nextConstraint?, Option.or_eq_none_iff] at hnext
      exact List.head?_eq_none_iff.mp hnext.2
    subst hnil
    exact h.congr fun v => by simp
  | case2 t pending c hnext ih =>
    have hc := mem_of_nextConstraint? hnext
    have hjoin := h.joinSome (Table.isRegular_ofPairs (hpending c hc) c.pairs)
      (by simp [Table.ofPairs])
    refine (hjoin.bind (fun t' _ ht' => ih t' ht' fun d hd => ?_) fun v hv => hv.1).congr
      fun v => ?_
    · exact hpending d (List.mem_of_mem_erase hd)
    · rw [Table.fits_ofPairs, and_assoc]
      refine and_congr_right fun _ => ⟨fun hv d hd => ?_, fun hv => ⟨hv c hc, fun d hd => ?_⟩⟩
      · by_cases heq : d = c
        · exact heq ▸ hv.1
        · exact hv.2 d ((List.mem_erase_of_ne heq).mpr hd)
      · exact hv d (List.mem_of_mem_erase hd)

theorem represents_joinValues {t : Table} {P : (String → String) → Prop}
    (h : Table.Represents (some t) P) (values : String → List String) (synonyms : List String) :
    Table.Represents
      (synonyms.foldlM (fun t x => joinSome t (.ofValues x (values x))) t)
      fun v => P v ∧ ∀ x ∈ synonyms, v x ∈ values x := by
  induction synonyms generalizing t P with
  | nil => exact h.congr fun v => by simp
  | cons x synonyms ih =>
    have hjoin := h.joinSome (Table.isRegular_ofValues x (values x)) (by simp [Table.ofValues])
    rw [List.foldlM_cons]
    refine (hjoin.bind (fun t' _ ht' => ih ht') fun v hv => hv.1).congr fun v => ?_
    rw [Table.fits_ofValues, and_assoc, List.forall_mem_cons]

theorem mem_columns_of_joinValues {t t' : Table} {values : String → List String}
    {synonyms : List String}
    (h : synonyms.foldlM (fun t x => joinSome t (.ofValues x (values x))) t = some t') :
    ∀ x, x ∈ t.columns ∨ x ∈ synonyms → x ∈ t'.columns := by
  induction synonyms generalizing t with
  | nil =>
    obtain rfl := Option.some.inj h
    simp
  | cons y synonyms ih =>
    rw [List.foldlM_cons] at h
    obtain ⟨u, hu, h⟩ := Option.bind_eq_some_iff.mp h
    intro x hx
    refine ih h x ?_
    rw [Table.joinSome_eq hu, Table.mem_columns_join]
    rcases hx with hx | hx
    · exact .inl (.inl hx)
    · rcases List.mem_cons.mp hx with rfl | hx
      · exact .inl (.inr (List.mem_singleton_self x))
      · exact .inr hx

/-- The join of the constraints that involve some synonyms and of their candidates. -/
def joined? (s : Candidates) (synonyms : List String) : Option Table := do
  let t ← joinConstraints {} (s.constraints.filter fun c => c.first ∈ s.involved synonyms)
  synonyms.eraseDups.foldlM (fun t x => joinSome t (.ofValues x (s.domains.get x))) t

theorem rows?_eq (s : Candidates) (synonyms : List String) :
    s.rows? synonyms = (s.joined? synonyms).bind (·.tuples? synonyms) := by
  simp only [rows?, joined?, Option.bind_eq_bind, Option.bind_assoc]

theorem represents_joined? {s : Candidates} (hs : ∀ c ∈ s.constraints, c.first ≠ c.second)
    (synonyms : List String) : Table.Represents (s.joined? synonyms) fun v =>
      (∀ c ∈ s.constraints, c.first ∈ s.involved synonyms → c.Admits v) ∧
        ∀ x ∈ synonyms, v x ∈ s.domains.get x := by
  have hpending : ∀ c ∈ s.constraints.filter fun c => c.first ∈ s.involved synonyms,
      c.first ≠ c.second := fun c hc => hs c (List.mem_filter.mp hc).1
  refine ((represents_joinConstraints Table.represents_empty hpending).bind
    (fun t _ ht => represents_joinValues ht s.domains.get synonyms.eraseDups)
    fun v hv => hv.1).congr fun v => ?_
  simp

/-- The rows for some synonyms are those of the assignments that are admitted by all constraints
involved and have candidates for the synonyms. -/
theorem mem_rows? {s : Candidates} (hs : ∀ c ∈ s.constraints, c.first ≠ c.second)
    {synonyms : List String} (hne : synonyms ≠ []) {row : Row} :
    (∃ rows, s.rows? synonyms = some rows ∧ row ∈ rows) ↔
      ∃ v : String → String,
        (∀ c ∈ s.constraints, c.first ∈ s.involved synonyms → c.Admits v) ∧
        (∀ x ∈ synonyms, v x ∈ s.domains.get x) ∧ row = synonyms.map v := by
  have hjoined := represents_joined? hs synonyms
  rw [rows?_eq]
  cases ht : s.joined? synonyms with
  | none =>
    rw [ht] at hjoined
    constructor
    · rintro ⟨rows, hrows, -⟩
      cases hrows
    · rintro ⟨v, hadmits, hmem, -⟩
      exact absurd ⟨hadmits, hmem⟩ (hjoined v)
  | some t =>
    rw [ht] at hjoined
    obtain ⟨hregular, hfits⟩ := hjoined
    obtain ⟨u, -, hvalues⟩ := Option.bind_eq_some_iff.mp ht
    have hcolumns : ∀ x ∈ synonyms, x ∈ t.columns := fun x hx =>
      mem_columns_of_joinValues hvalues x (.inr (List.mem_eraseDups.mpr hx))
    have hcolumns_ne : t.columns ≠ [] := by
      obtain ⟨x, hx⟩ := List.exists_mem_of_ne_nil _ hne
      exact List.ne_nil_of_mem (hcolumns x hx)
    rw [Option.bind_some, Table.mem_tuples? hregular hcolumns]
    refine exists_congr fun v => ?_
    rw [← and_assoc]
    exact and_congr_left fun _ => (or_iff_right hcolumns_ne).symm.trans (hfits v)

end Candidates

end ProgramQuery
