import ProgramQuery.Proofs.FactsWellFormed
import ProgramQuery.Proofs.Joining
import ProgramQuery.Proofs.Propagation

/-!
# What the answer to a query means

The answer to a query is compared with the assignments that satisfy it. No assignment is lost: the
row that a satisfying assignment shows is in the answer. The other direction holds as far as the
evaluation looks. The clauses about joined synonyms are checked together; all others only for two
synonyms at a time. So an answer stands for an assignment that satisfies the query pairwise, and in
a forest for one that satisfies it. In a cycle of clauses there may be an answer without one.

## Main definitions

- `Query.Shows`: what the selected elements show under an assignment.

## Main statements

- `Query.exists_selectedRows?`: the rows of candidates are those of the assignments that satisfy
  the query pairwise.
- `mem_answer_of_satisfies`: no answer is lost.
- `mem_answer_iff_satisfiesPairwise`: which answers there are.
-/

namespace ProgramQuery

namespace Candidates

theorem mem_linked {s : Candidates} {x y : String} :
    y ∈ s.linked x ↔ (x, y) ∈ s.keys ∨ (y, x) ∈ s.keys := by
  simp only [linked, keys, Constraint.key, List.mem_flatMap, List.mem_append, List.mem_map,
    Prod.mk.injEq]
  constructor
  · rintro ⟨k, hk, hy | hy⟩ <;> split at hy
    · rename_i hfirst
      exact .inl ⟨k, hk, hfirst, (List.mem_singleton.mp hy).symm⟩
    · cases hy
    · rename_i hsecond
      exact .inr ⟨k, hk, (List.mem_singleton.mp hy).symm, hsecond⟩
    · cases hy
  · rintro (⟨k, hk, rfl, rfl⟩ | ⟨k, hk, rfl, rfl⟩)
    · exact ⟨k, hk, .inl (by simp)⟩
    · exact ⟨k, hk, .inr (by simp)⟩

/-- The synonyms that are involved in a row are the joined ones. -/
theorem mem_involved {facts : Facts} {q : Query} {s : Candidates}
    (hsound : s.IsSound facts q.declarations q.clauses)
    (henforces : ∀ c ∈ q.clauses, s.Enforces facts c) (hseveral : q.elements.length ≠ 1)
    {synonyms : List String} (hsynonyms : ∀ x, x ∈ synonyms ↔ x ∈ q.selected) {x : String} :
    x ∈ s.involved synonyms ↔ q.IsJoined x := by
  rw [involved, mem_closure]
  constructor
  · intro h
    induction h with
    | seed _ hstart => exact .selected ((hsynonyms _).mp hstart)
    | next _ _ hedge ih =>
      rcases mem_linked.mp hedge with hkey | hkey
      · obtain ⟨c, hc, hfirst, hsecond⟩ := hsound.exists_clause _ hkey
        exact .clause hseveral ih hc hfirst hsecond
      · obtain ⟨c, hc, hfirst, hsecond⟩ := hsound.exists_clause _ hkey
        exact .clause hseveral ih hc hsecond hfirst
  · intro h
    induction h with
    | selected h =>
      have hmem := (hsynonyms _).mpr h
      exact .seed (List.mem_append_left _ hmem) hmem
    | @clause x y c _ _ hc hx hy ih =>
      by_cases hxy : x = y
      · exact hxy ▸ ih
      -- the clause has left a constraint between the two
      have hkey := (henforces c hc).mem_keys x hx y hy hxy
      refine .next ih (List.mem_append_right _ ?_) (mem_linked.mpr hkey)
      rcases hkey with hkey | hkey <;> obtain ⟨k, hk, heq⟩ := List.mem_map.mp hkey <;>
        obtain ⟨rfl, rfl⟩ := Prod.mk.inj heq
      · exact List.mem_flatMap.mpr ⟨k, hk, by simp⟩
      · exact List.mem_flatMap.mpr ⟨k, hk, by simp⟩

end Candidates

namespace Query

/-! ## Rows of candidates -/

variable {facts : Facts} {q : Query} {s : Candidates} {v : String → String}

theorem isTyped_of_mem_elements (ht : q.IsTyped) (hboolean : q.isBoolean = false) {e : Element}
    (he : e ∈ q.elements) : e.IsTyped q.declarations := by
  rcases ht.elements with htrue | ⟨-, helements⟩
  · rw [htrue] at hboolean
    cases hboolean
  · exact helements e he

theorem mem_selected (ht : q.IsTyped) (hboolean : q.isBoolean = false) {x : String} :
    x ∈ q.selected ↔ x ∈ q.elements.map Element.synonym := by
  have hplain : q.elements.filter (fun e => e.kind ≠ .boolean) = q.elements := by
    refine List.filter_eq_self.mpr fun e he => ?_
    obtain ⟨kind, -, hkind⟩ := isTyped_of_mem_elements ht hboolean he
    cases hk : e.kind <;> simp_all
  rw [selected, hplain, mem_ascending]

/-- The values for joined synonyms are candidates, and the constraints between these admit them. -/
structure Agrees (q : Query) (s : Candidates) (v : String → String) : Prop where
  mem : ∀ x, q.IsJoined x → v x ∈ s.domains.get x
  admits : ∀ k ∈ s.constraints, q.IsJoined k.first → q.IsJoined k.second → k.Admits v

/-- At the end, to agree with the candidates is to satisfy the query pairwise. -/
theorem agrees_iff_satisfiesPairwise (hf : facts.IsWellFormed) (ht : q.IsTyped)
    (heval : evaluate? facts q = some s) : q.Agrees s v ↔ q.SatisfiesPairwise facts v := by
  constructor
  · intro h
    have hne : ∀ x ∈ q.selected, s.domains.get x ≠ [] := fun x hx =>
      List.ne_nil_of_mem (h.mem x (.selected hx))
    refine ⟨⟨_, isConsistent_of_evaluate? hf ht heval hne, h.mem⟩, fun c hc hall => ?_⟩
    refine ((enforces_of_evaluate? hf ht heval).2 c hc).holds v (fun x hx => h.mem x (hall x hx)) ?_
    exact fun k hk hfirst hsecond => h.admits k hk (hall _ hfirst) (hall _ hsecond)
  · intro h
    obtain ⟨F, hF, hv⟩ := h.family
    obtain ⟨t, ht', hcontains⟩ := hF.exists_evaluate? hf ht
    obtain rfl : s = t := Option.some.inj (heval.symm.trans ht')
    refine ⟨fun x hx => hcontains.mem x _ ⟨hx.mem_synonyms, hv x hx⟩,
      fun k hk hfirst hsecond => ?_⟩
    refine hcontains.pair_mem k hk _ _ ⟨hfirst.mem_synonyms, hv _ hfirst⟩
      ⟨hsecond.mem_synonyms, hv _ hsecond⟩ fun c hc hall w hwfirst hwsecond => ?_
    -- a clause about the two synonyms of a constraint is about joined ones
    have hjoined : ∀ x ∈ c.synonyms, q.IsJoined x ∧ v x = w x := by
      intro x hx
      rcases hall x hx with rfl | rfl
      · exact ⟨hfirst, hwfirst.symm⟩
      · exact ⟨hsecond, hwsecond.symm⟩
    exact (h.holds c hc fun x hx => (hjoined x hx).1).congr fun x hx => (hjoined x hx).2

theorem isJoined_of_single {e : Element} (he : q.elements = [e]) {x : String}
    (h : q.IsJoined x) : x ∈ q.selected := by
  induction h with
  | selected h => exact h
  | clause hseveral => exact absurd (congrArg List.length he) hseveral

/-- The row of a single candidate. -/
theorem exists_agrees_of_single (hsound : s.IsSound facts q.declarations q.clauses)
    (ht : q.IsTyped) (hboolean : q.isBoolean = false) {e : Element} (he : q.elements = [e])
    {value : String} :
    value ∈ s.domains.get e.synonym ↔ ∃ v, q.Agrees s v ∧ value = v e.synonym := by
  have hselected : ∀ x, x ∈ q.selected ↔ x = e.synonym := by
    intro x
    rw [mem_selected ht hboolean, he]
    simp
  constructor
  · intro hvalue
    refine ⟨fun _ => value, ⟨fun x hx => ?_, fun k hk hfirst hsecond => ?_⟩, rfl⟩
    · rw [(hselected x).mp (isJoined_of_single he hx)]
      exact hvalue
    · -- a constraint is about two synonyms
      have hlt := hsound.ordered.first_lt_second hk
      rw [(hselected _).mp (isJoined_of_single he hfirst),
        (hselected _).mp (isJoined_of_single he hsecond)] at hlt
      exact absurd hlt (String.lt_irrefl _)
  · rintro ⟨v, hv, rfl⟩
    exact hv.mem _ (.selected ((hselected _).mpr rfl))

/-- What the constraints between involved synonyms admit agrees with the candidates. -/
theorem agrees_of_admits (hsound : s.IsSound facts q.declarations q.clauses)
    (henforces : ∀ c ∈ q.clauses, s.Enforces facts c)
    (hselected : ∀ x ∈ q.selected, v x ∈ s.domains.get x)
    (hadmits : ∀ k ∈ s.constraints, q.IsJoined k.first → k.Admits v) : q.Agrees s v := by
  refine ⟨fun x hx => ?_, fun k hk hfirst _ => hadmits k hk hfirst⟩
  induction hx with
  | selected h => exact hselected _ h
  | @clause x y c hseveral hx hc hxc hyc ih =>
    by_cases hxy : x = y
    · exact hxy ▸ ih
    have hy : q.IsJoined y := .clause hseveral hx hc hxc hyc
    rcases (henforces c hc).mem_keys x hxc y hyc hxy with hkey | hkey <;>
      obtain ⟨k, hk, heq⟩ := List.mem_map.mp hkey <;> obtain ⟨rfl, rfl⟩ := Prod.mk.inj heq
    · exact (hsound.settled k hk).snd_mem _ (hadmits k hk hx)
    · exact (hsound.settled k hk).fst_mem _ (hadmits k hk hy)

/-- The rows of candidates are those of the assignments that agree with them. -/
theorem mem_selectedRows? (hf : facts.IsWellFormed) (ht : q.IsTyped)
    (hboolean : q.isBoolean = false) (heval : evaluate? facts q = some s) {row : Row} :
    (∃ rows, s.selectedRows? q.elements = some rows ∧ row ∈ rows) ↔
      ∃ v, q.Agrees s v ∧ row = q.elements.map fun e => v e.synonym := by
  obtain ⟨hsound, henforces⟩ := enforces_of_evaluate? hf ht heval
  by_cases hseveral : q.elements.length = 1
  · obtain ⟨e, he⟩ := List.length_eq_one_iff.mp hseveral
    simp only [he, Candidates.selectedRows?, Option.some.injEq, exists_eq_left', List.mem_map,
      List.map_cons, List.map_nil, exists_agrees_of_single hsound ht hboolean he]
    constructor
    · rintro ⟨value, ⟨v, hv, rfl⟩, rfl⟩
      exact ⟨v, hv, rfl⟩
    · rintro ⟨v, hv, rfl⟩
      exact ⟨_, ⟨v, hv, rfl⟩, rfl⟩
  · have hrows : s.selectedRows? q.elements = s.rows? (q.elements.map Element.synonym) :=
      Candidates.selectedRows?.eq_2 _ _ fun e he => hseveral (congrArg List.length he)
    have hne : q.elements.map Element.synonym ≠ [] := by
      rcases ht.elements with htrue | ⟨hne, -⟩
      · rw [htrue] at hboolean
        cases hboolean
      · simpa using hne
    have hdistinct : ∀ k ∈ s.constraints, k.first ≠ k.second := fun k =>
      hsound.ordered.first_ne_second
    have hmem := fun x => (mem_selected ht hboolean (x := x)).symm
    rw [hrows, Candidates.mem_rows? hdistinct hne]
    simp only [Candidates.mem_involved hsound henforces hseveral hmem, List.map_map]
    refine exists_congr fun v => ⟨?_, ?_⟩
    · rintro ⟨hadmits, hselected, rfl⟩
      exact ⟨agrees_of_admits hsound henforces (fun x hx => hselected x ((hmem x).mpr hx)) hadmits,
        rfl⟩
    · rintro ⟨hv, rfl⟩
      refine ⟨fun k hk hfirst => ?_, fun x hx => hv.mem x (.selected ((hmem x).mp hx)), rfl⟩
      obtain ⟨c, hc, hfirst', hsecond⟩ := hsound.exists_clause k.key (List.mem_map_of_mem hk)
      exact hv.admits k hk hfirst (.clause hseveral hfirst hc hfirst' hsecond)

/-- The rows of candidates at the end are those of the assignments that satisfy the query
pairwise. -/
theorem exists_selectedRows? (hf : facts.IsWellFormed) (ht : q.IsTyped)
    (hboolean : q.isBoolean = false) {row : Row} :
    (∃ rows, (evaluate? facts q).bind (·.selectedRows? q.elements) = some rows ∧ row ∈ rows) ↔
      ∃ v, q.SatisfiesPairwise facts v ∧ row = q.elements.map fun e => v e.synonym := by
  cases heval : evaluate? facts q with
  | some s =>
    rw [Option.bind_some, mem_selectedRows? hf ht hboolean heval]
    simp only [agrees_iff_satisfiesPairwise hf ht heval]
  | none =>
    constructor
    · rintro ⟨rows, hrows, -⟩
      cases hrows
    · rintro ⟨v, hv, -⟩
      obtain ⟨F, hF, -⟩ := hv.family
      obtain ⟨s, hs, -⟩ := hF.exists_evaluate? hf ht
      rw [heval] at hs
      cases hs

/-- If only the truth is asked for, no synonym is joined. -/
theorem not_isJoined_of_isBoolean (hboolean : q.isBoolean = true) (x : String) :
    ¬q.IsJoined x := by
  obtain ⟨e, he, hkind⟩ : ∃ e, q.elements = [e] ∧ e.kind = .boolean := by
    unfold isBoolean at hboolean
    split at hboolean
    · rename_i e he
      exact ⟨e, he, by simpa using hboolean⟩
    · cases hboolean
  intro hx
  have hmem := isJoined_of_single he hx
  simp [selected, he, hkind] at hmem

theorem isSome_evaluate? (hf : facts.IsWellFormed) (ht : q.IsTyped)
    (hboolean : q.isBoolean = true) :
    (evaluate? facts q).isSome = true ↔ ∃ v, q.SatisfiesPairwise facts v := by
  have hnone := not_isJoined_of_isBoolean hboolean
  constructor
  · intro h
    obtain ⟨s, hs⟩ := Option.isSome_iff_exists.mp h
    have hagrees : q.Agrees s id :=
      ⟨fun x hx => absurd hx (hnone x), fun k _ hfirst => absurd hfirst (hnone _)⟩
    exact ⟨id, (agrees_iff_satisfiesPairwise hf ht hs).mp hagrees⟩
  · rintro ⟨v, hv⟩
    obtain ⟨F, hF, -⟩ := hv.family
    obtain ⟨s, hs, -⟩ := hF.exists_evaluate? hf ht
    rw [hs]
    rfl

/-! ## Shown rows -/

/-- What the selected elements show under an assignment. -/
def Shows (facts : Facts) (q : Query) (v : String → String) (row : Row) : Prop :=
  List.Forall₂ (fun e value => e.kind.shown? facts (v e.synonym) = some value) q.elements row

theorem shownRow?_eq_some {elements : List Element} {row : Row} :
    shownRow? facts elements (elements.map fun e => v e.synonym) = some row ↔
      List.Forall₂ (fun e value => e.kind.shown? facts (v e.synonym) = some value)
        elements row := by
  induction elements generalizing row with
  | nil => simp [shownRow?, eq_comm]
  | cons e elements ih =>
    rw [List.forall₂_cons_left_iff]
    simp only [shownRow?, List.map_cons, List.zip_cons_cons, List.mapM_cons,
      Option.bind_eq_bind, Option.bind_eq_some_iff, ← ih]
    constructor
    · rintro ⟨value, hvalue, row, hrow, heq⟩
      exact ⟨value, row, hvalue, hrow, (Option.some.inj heq).symm⟩
    · rintro ⟨value, row, hvalue, hrow, rfl⟩
      exact ⟨value, hvalue, row, hrow, rfl⟩

end Query

instance : Std.TransCmp compareKeys :=
  inferInstanceAs (Std.TransCmp (List.compareLex comparePairs))

instance : Std.LawfulEqCmp compareKeys :=
  inferInstanceAs (Std.LawfulEqCmp (List.compareLex comparePairs))

/-- A row can be read off its key. -/
theorem map_snd_rowKey (row : Row) : (rowKey row).map Prod.snd = row := by
  simp [rowKey, Function.comp_def]

theorem mem_sortedRows {rows : List Row} {row : Row} : row ∈ sortedRows rows ↔ row ∈ rows := by
  rw [sortedRows, List.mem_map]
  simp only [mem_sortedBy, List.mem_map]
  constructor
  · rintro ⟨-, ⟨row, hrow, rfl⟩, rfl⟩
    rw [map_snd_rowKey]
    exact hrow
  · intro hrow
    exact ⟨rowKey row, ⟨row, hrow, rfl⟩, map_snd_rowKey row⟩

/-- Each row comes before all larger ones. -/
theorem pairwise_sortedRows (rows : List Row) :
    (sortedRows rows).Pairwise fun row row' => compareRows row row' = .lt := by
  have hsorted : (sortedBy compareKeys (rows.map rowKey)).Pairwise (compareKeys · · = .lt) :=
    Std.TreeSet.ordered_toList
  rw [sortedRows, List.pairwise_map]
  refine hsorted.imp_of_mem fun {key key'} hkey hkey' hlt => ?_
  simp only [mem_sortedBy, List.mem_map] at hkey hkey'
  obtain ⟨row, -, rfl⟩ := hkey
  obtain ⟨row', -, rfl⟩ := hkey'
  rwa [map_snd_rowKey, map_snd_rowKey]

namespace Query

variable {facts : Facts} {q : Query} {v : String → String}

/-- The selected elements of a satisfying assignment can be shown. -/
theorem Satisfies.exists_shows (hf : facts.IsWellFormed) (ht : q.IsTyped)
    (hboolean : q.isBoolean = false) (h : q.Satisfies facts v) : ∃ row, q.Shows facts v row := by
  have hshown : ∀ e ∈ q.elements, ∃ value, e.kind.shown? facts (v e.synonym) = some value := by
    intro e he
    obtain ⟨kind, hdeclared, hkind⟩ := isTyped_of_mem_elements ht hboolean he
    have hselected : e.synonym ∈ q.selected :=
      (mem_selected ht hboolean).mpr (List.mem_map_of_mem he)
    have hentity := h.mem_domain e.synonym (List.mem_append_left _ hselected)
    rw [initialDomain, hdeclared] at hentity
    cases hk : e.kind with
    | attr a =>
      rw [hk] at hkind
      obtain ⟨name, hname, -⟩ := exists_attribute? hf hkind hentity
      exact ⟨name, hname⟩
    | plain | boolean => exact ⟨_, rfl⟩
  refine ⟨q.elements.map fun e => (e.kind.shown? facts (v e.synonym)).getD "",
    List.forall₂_map_right_iff.mpr (List.forall₂_same.mpr fun e he => ?_)⟩
  obtain ⟨value, hvalue⟩ := hshown e he
  rw [hvalue, Option.getD_some]

theorem answer_eq_true (hf : facts.IsWellFormed) (ht : q.IsTyped) (hboolean : q.isBoolean = true) :
    q.answer facts = ["TRUE"] ↔ ∃ v, q.SatisfiesPairwise facts v := by
  have hne : q.isEmpty = false := by
    cases helements : q.elements with
    | nil => simp [isBoolean, helements] at hboolean
    | cons e elements => simp [isEmpty, helements]
  rw [← isSome_evaluate? hf ht hboolean, answer, if_neg (by simp [hne]), if_pos hboolean]
  cases (evaluate? facts q).isSome <;> decide

theorem mem_answerRows (hf : facts.IsWellFormed) (ht : q.IsTyped) (hboolean : q.isBoolean = false)
    {row : Row} : row ∈ q.answerRows facts ↔
      ∃ v, q.SatisfiesPairwise facts v ∧ q.Shows facts v row := by
  have hrows := @exists_selectedRows? facts q hf ht hboolean
  have hshown : ∀ found, (evaluate? facts q).bind (·.selectedRows? q.elements) = found →
      (row ∈ q.answerRows facts ↔
        ∃ candidates, (∃ rows, found = some rows ∧ candidates ∈ rows) ∧
          shownRow? facts q.elements candidates = some row) := by
    rintro (- | rows) hfound
    · simp [answerRows, hfound]
    · simp [answerRows, hfound, mem_sortedRows]
  rw [hshown _ rfl]
  simp only [hrows]
  constructor
  · rintro ⟨-, ⟨v, hv, rfl⟩, hrow⟩
    exact ⟨v, hv, shownRow?_eq_some.mp hrow⟩
  · rintro ⟨v, hv, hrow⟩
    exact ⟨_, ⟨v, hv, rfl⟩, shownRow?_eq_some.mpr hrow⟩

/-- The answer has the texts of the rows that assignments show which satisfy the query pairwise. -/
theorem mem_answer (hf : facts.IsWellFormed) (ht : q.IsTyped) (hboolean : q.isBoolean = false)
    {text : String} : text ∈ q.answer facts ↔
      ∃ v row, q.SatisfiesPairwise facts v ∧ q.Shows facts v row ∧ text = " ".intercalate row := by
  have hne : q.isEmpty = false := by
    rcases ht.elements with htrue | ⟨hne, -⟩
    · rw [htrue] at hboolean
      cases hboolean
    · simpa [isEmpty] using hne
  rw [answer, if_neg (by simp [hne]), if_neg (by simp [hboolean]), List.mem_map]
  simp only [mem_answerRows hf ht hboolean]
  constructor
  · rintro ⟨row, ⟨v, hv, hrow⟩, rfl⟩
    exact ⟨v, row, hv, hrow, rfl⟩
  · rintro ⟨v, row, hv, hrow, rfl⟩
    exact ⟨row, ⟨v, hv, hrow⟩, rfl⟩

/-- What is shown depends on the selected synonyms only. -/
theorem Shows.congr {w : String → String} {row : Row} (ht : q.IsTyped)
    (hboolean : q.isBoolean = false) (h : q.Shows facts v row)
    (hvw : ∀ x ∈ q.selected, w x = v x) : q.Shows facts w row := by
  have hsame : ∀ e ∈ q.elements, w e.synonym = v e.synonym := fun e he =>
    hvw _ ((mem_selected ht hboolean).mpr (List.mem_map_of_mem he))
  refine ((List.forall₂_and_left _ _).mpr ⟨hsame, h⟩).imp fun e value hvalue => ?_
  rw [hvalue.1]
  exact hvalue.2

end Query

/-- No answer is lost. Whenever an assignment satisfies a query, its elements can be shown and the
row that they show is in the answer; and if only the truth is asked for, the answer is that the
clauses can hold. Statements are numbered within the range of numerals, as a text shorter than that
range has fewer statements. -/
theorem mem_answer_of_satisfies {source text : String} {facts : Facts} {q : Query}
    {v : String → String} (hlength : source.length < numeralBound)
    (hfacts : Facts.ofSource source = .ok facts) (hquery : Query.ofText text = .ok q)
    (hv : q.Satisfies facts v) :
    (q.isBoolean = true → q.answer facts = ["TRUE"]) ∧
      (q.isBoolean = false →
        ∃ row, q.Shows facts v row ∧ " ".intercalate row ∈ q.answer facts) := by
  have hf := isWellFormed_of_ofSource hfacts hlength
  have ht := isTyped_of_ofText hquery
  refine ⟨fun hboolean => ?_, fun hboolean => ?_⟩
  · exact (Query.answer_eq_true hf ht hboolean).mpr ⟨v, hv.satisfiesPairwise⟩
  · obtain ⟨row, hrow⟩ := hv.exists_shows hf ht hboolean
    exact ⟨row, hrow, (Query.mem_answer hf ht hboolean).mpr
      ⟨v, row, hv.satisfiesPairwise, hrow, rfl⟩⟩

/-- A counter that is set and then counted up in a loop. -/
def countingUp : String :=
  "procedure count \x7b x = 1; while (x < 9) \x7b x = x + 1; \x7d print x; \x7d"

/-- Which assignments of which variables reach an assignment that adds to the variable. -/
def increments : String :=
  "assign a, b; variable v; Select <a, v.varName> such that Affects(a, b) and Modifies(a, v) " ++
    "pattern b(v, _\"x + 1\"_) with v.varName = \"x\""

/-- The addition, for both assignments, and its variable. -/
def addition (x : String) : String :=
  if x = "v" then "x" else "3"

/-- Round the loop, the addition reaches itself: the row for it is in the answer. -/
theorem mem_answer_of_satisfies_increments : ∃ facts q,
    countingUp.length < numeralBound ∧ Facts.ofSource countingUp = .ok facts ∧
      Query.ofText increments = .ok q ∧ q.Satisfies facts addition ∧ q.isBoolean = false ∧
      ∃ row, q.Shows facts addition row ∧ " ".intercalate row ∈ q.answer facts := by
  have hlength : countingUp.length < numeralBound := by decide +kernel
  have hrun : (do
      let facts ← (Facts.ofSource countingUp).toOption
      let q ← (Query.ofText increments).toOption
      return decide (q.isBoolean = false ∧
        (∀ x ∈ q.synonyms, addition x ∈ initialDomain facts q.declarations x) ∧
        ∀ c ∈ q.clauses, ∃ left ∈ ["3", "x"], ∃ right ∈ ["3", "x"],
          c.left.Denotes addition left ∧ c.right.Denotes addition right ∧
            c.Relates facts left right)) =
      some true := by
    decide +kernel
  obtain ⟨facts, hfacts, hrun⟩ := Option.bind_eq_some_iff.mp hrun
  obtain ⟨q, hquery, hrun⟩ := Option.bind_eq_some_iff.mp hrun
  obtain ⟨hboolean, hdomain, hclauses⟩ := of_decide_eq_true (Option.some.inj hrun)
  have hfacts := eq_ok_of_toOption hfacts
  have hquery := eq_ok_of_toOption hquery
  have hv : q.Satisfies facts addition := by
    refine ⟨hdomain, fun c hc => ?_⟩
    obtain ⟨left, -, right, -, hholds⟩ := hclauses c hc
    exact ⟨left, right, hholds⟩
  exact ⟨facts, q, hlength, hfacts, hquery, hv, hboolean,
    (mem_answer_of_satisfies hlength hfacts hquery hv).2 hboolean⟩

/-- Which answers there are. They are those of the assignments that satisfy the query pairwise. In
a forest, an assignment that satisfies the whole query stands behind every answer. -/
theorem mem_answer_iff_satisfiesPairwise {source text : String} {facts : Facts} {q : Query}
    (hlength : source.length < numeralBound) (hfacts : Facts.ofSource source = .ok facts)
    (hquery : Query.ofText text = .ok q) :
    (q.isBoolean = true → (q.answer facts = ["TRUE"] ↔ ∃ v, q.SatisfiesPairwise facts v)) ∧
    (q.isBoolean = false → ∀ line, line ∈ q.answer facts ↔
      ∃ v row, q.SatisfiesPairwise facts v ∧ q.Shows facts v row ∧ line = " ".intercalate row) ∧
    (q.IsForest →
      (q.isBoolean = true → q.answer facts = ["TRUE"] → ∃ v, q.Satisfies facts v) ∧
      (q.isBoolean = false → ∀ line ∈ q.answer facts,
        ∃ v row, q.Satisfies facts v ∧ q.Shows facts v row ∧ line = " ".intercalate row)) := by
  have hf := isWellFormed_of_ofSource hfacts hlength
  have ht := isTyped_of_ofText hquery
  refine ⟨Query.answer_eq_true hf ht, fun hboolean line => Query.mem_answer hf ht hboolean,
    fun hforest => ⟨fun hboolean htrue => ?_, fun hboolean line hline => ?_⟩⟩
  · obtain ⟨v, hv⟩ := (Query.answer_eq_true hf ht hboolean).mp htrue
    obtain ⟨w, hw, -⟩ := hv.exists_satisfies hforest
    exact ⟨w, hw⟩
  · obtain ⟨v, row, hv, hrow, rfl⟩ := (Query.mem_answer hf ht hboolean).mp hline
    obtain ⟨w, hw, hsame⟩ := hv.exists_satisfies hforest
    exact ⟨w, row, hw, hrow.congr ht hboolean hsame, rfl⟩

/-- A loop of two statements. -/
def shortLoop : String :=
  "procedure p \x7b while (x > 0) \x7b x = 1; \x7d \x7d"

/-- Whether two steps can be taken. -/
def twoSteps : String :=
  "stmt a, b, c; Select BOOLEAN such that Next(a, b) and Next(b, c)"

/-- Whether three steps lead back to where they started. -/
def threeSteps : String :=
  "stmt a, b, c; Select BOOLEAN such that Next(a, b) and Next(b, c) and Next(c, a)"

theorem isForest_twoSteps {q : Query} (h : Query.ofText twoSteps = .ok q) :
    q.isBoolean = true ∧ q.IsForest := by
  have hq : (Query.ofText twoSteps).toOption = some
      ⟨[("a", .stmt), ("b", .stmt), ("c", .stmt)], [⟨.boolean, "BOOLEAN"⟩],
        [⟨.next, ⟨.stmtSynonym, "a"⟩, ⟨.stmtSynonym, "b"⟩, ""⟩,
          ⟨.next, ⟨.stmtSynonym, "b"⟩, ⟨.stmtSynonym, "c"⟩, ""⟩]⟩ := by
    decide +kernel
  rw [h] at hq
  have hq := Option.some.inj hq
  have hboolean : q.isBoolean = true := by rw [hq]; rfl
  have hsynonyms : q.synonyms = ["a", "b", "b", "c"] := by rw [hq]; decide +kernel
  have hnone := Query.not_isJoined_of_isBoolean hboolean
  have hattaches : ∀ (x parent : String) (rest : List String),
      (∀ c ∈ q.clauses, x ∈ c.synonyms → ∀ y ∈ c.synonyms, y ≠ x → y ∈ rest → y = parent) →
      ∀ c ∈ q.clauses, x ∈ c.synonyms → ∀ y ∈ c.synonyms, y ≠ x →
        q.IsJoined y ∨ y ∈ rest → y = parent :=
    fun x parent rest hall c hc hx y hy hyx hbefore =>
      hall c hc hx y hy hyx (hbefore.resolve_left (hnone y))
  refine ⟨hboolean, ["c", "b", "a"], by decide, fun x => ?_,
    ⟨⟨trivial, "", hattaches _ _ _ ?_⟩, "a", hattaches _ _ _ ?_⟩, "b", hattaches _ _ _ ?_⟩
  · rw [hsynonyms, and_iff_left (hnone x)]
    simp only [List.mem_cons, List.not_mem_nil, or_false]
    constructor <;> rintro (rfl | rfl | rfl | rfl) <;> simp
  all_goals
    rw [hq]
    decide

theorem not_satisfies_threeSteps {facts : Facts} {q : Query}
    (hfacts : Facts.ofSource shortLoop = .ok facts) (hquery : Query.ofText threeSteps = .ok q)
    (v : String → String) : ¬q.Satisfies facts v := by
  have hrun : (do
      let facts ← (Facts.ofSource shortLoop).toOption
      let q ← (Query.ofText threeSteps).toOption
      return decide ((∀ x ∈ ["a", "b", "c"],
          x ∈ q.synonyms ∧ initialDomain facts q.declarations x = ["1", "2"]) ∧
        ∀ p ∈ [("a", "b"), ("b", "c"), ("c", "a")], ∃ c ∈ q.clauses,
          (c.left.role = .synonym ∧ c.left.value = p.1) ∧
          (c.right.role = .synonym ∧ c.right.value = p.2) ∧
          ∀ x ∈ ["1", "2"], ¬c.Relates facts x x)) = some true := by
    decide +kernel
  rw [hfacts, hquery] at hrun
  obtain ⟨hdomain, hclauses⟩ := of_decide_eq_true (Option.some.inj hrun)
  intro hv
  have hmem : ∀ x ∈ ["a", "b", "c"], v x ∈ ["1", "2"] := by
    intro x hx
    obtain ⟨hsynonym, heq⟩ := hdomain x hx
    exact heq ▸ hv.mem_domain x hsynonym
  have hne : ∀ p ∈ [("a", "b"), ("b", "c"), ("c", "a")], v p.2 ∈ ["1", "2"] → v p.1 ≠ v p.2 := by
    intro p hp hpmem heq
    obtain ⟨c, hc, ⟨hl, hleft⟩, ⟨hr, hright⟩, hrelates⟩ := hclauses p hp
    obtain ⟨left, right, hdl, hdr, hholds⟩ := hv.holds c hc
    rw [(Argument.denotes_of_synonym hl).mp hdl, (Argument.denotes_of_synonym hr).mp hdr, hleft,
      hright, heq] at hholds
    exact hrelates _ hpmem hholds
  -- three values that differ from each other do not fit into two
  have ha := hmem "a" (by decide)
  have hb := hmem "b" (by decide)
  have hc := hmem "c" (by decide)
  have hab := hne ("a", "b") (by decide) hb
  have hbc := hne ("b", "c") (by decide) hc
  have hca := hne ("c", "a") (by decide) ha
  simp only [List.mem_cons, List.not_mem_nil, or_false] at ha hb hc
  rcases ha with ha | ha <;> rcases hb with hb | hb <;> rcases hc with hc | hc <;>
    first
    | exact hab (ha.trans hb.symm)
    | exact hbc (hb.trans hc.symm)
    | exact hca (hc.trans ha.symm)

/-- In a loop of two statements no three steps lead back, but any two synonyms go together. So the
answer is that the clauses can hold, and no assignment stands behind it. The clauses of two steps
form a forest, and an assignment stands behind the same answer. -/
theorem mem_answer_iff_satisfiesPairwise_shortLoop : ∃ facts q q',
    shortLoop.length < numeralBound ∧ Facts.ofSource shortLoop = .ok facts ∧
      (Query.ofText threeSteps = .ok q ∧ q.answer facts = ["TRUE"] ∧
        (∃ v, q.SatisfiesPairwise facts v) ∧ ¬∃ v, q.Satisfies facts v) ∧
      Query.ofText twoSteps = .ok q' ∧ q'.answer facts = ["TRUE"] ∧ q'.IsForest ∧
        ∃ v, q'.Satisfies facts v := by
  have hlength : shortLoop.length < numeralBound := by decide +kernel
  have hrun : (do
      let facts ← (Facts.ofSource shortLoop).toOption
      let q ← (Query.ofText threeSteps).toOption
      let q' ← (Query.ofText twoSteps).toOption
      return (q.isBoolean, q.answer facts, q'.answer facts)) =
      some (true, ["TRUE"], ["TRUE"]) := by
    decide +kernel
  obtain ⟨facts, hfacts, hrun⟩ := Option.bind_eq_some_iff.mp hrun
  obtain ⟨q, hquery, hrun⟩ := Option.bind_eq_some_iff.mp hrun
  obtain ⟨q', hquery', hrun⟩ := Option.bind_eq_some_iff.mp hrun
  simp only [Option.pure_def, Option.some.injEq, Prod.mk.injEq] at hrun
  obtain ⟨hboolean, htrue, htrue'⟩ := hrun
  have hfacts := eq_ok_of_toOption hfacts
  have hquery := eq_ok_of_toOption hquery
  have hquery' := eq_ok_of_toOption hquery'
  obtain ⟨hboolean', hforest⟩ := isForest_twoSteps hquery'
  refine ⟨facts, q, q', hlength, hfacts, ⟨hquery, htrue, ?_, ?_⟩, hquery', htrue', hforest, ?_⟩
  · exact ((mem_answer_iff_satisfiesPairwise hlength hfacts hquery).1 hboolean).mp htrue
  · rintro ⟨v, hv⟩
    exact not_satisfies_threeSteps hfacts hquery v hv
  · exact ((mem_answer_iff_satisfiesPairwise hlength hfacts hquery').2.2 hforest).1 hboolean' htrue'

end ProgramQuery
