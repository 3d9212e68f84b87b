import Mathlib.Data.List.Sort
import ProgramQuery.Proofs.AcyclicQueries
import ProgramQuery.Proofs.PlanIndependence

/-!
# More clauses give fewer answers

A query is extended by further clauses, which may stand anywhere among its own. An assignment that
satisfies the longer query pairwise satisfies the shorter one, whose synonyms are joined through
fewer clauses. So the longer query has no answer that the shorter one does not have. As the rows of
both answers are in the same order, the one answer is what remains of the other when some of its
rows are left out.

## Main definitions

- `Query.IsExtendedBy`: the second query has further clauses.

## Main statements

- `Query.pairwise_answerRows`: the rows of an answer are strictly ascending.
- `Query.IsExtendedBy.satisfiesPairwise`: an assignment can do without the further clauses.
- `answer_sublist_of_isExtendedBy`: further clauses only take rows away.
-/

namespace ProgramQuery

/-! ## The order of rows -/

theorem compareRows_asymm {row row' : Row} (h : compareRows row row' = .lt) :
    compareRows row' row ≠ .lt := by
  rw [compareRows] at h ⊢
  exact Std.OrientedCmp.not_lt_of_lt h

/-- Of two lists of rows in order, one that has no further row is a part of the other. -/
theorem sublist_of_pairwise_compareRows {rows rows' : List Row}
    (hrows : rows.Pairwise fun row row' => compareRows row row' = .lt)
    (hrows' : rows'.Pairwise fun row row' => compareRows row row' = .lt) (h : rows ⊆ rows') :
    rows.Sublist rows' := by
  have hantisymm : Std.Antisymm fun row row' : Row => compareRows row row' = .lt :=
    ⟨fun row row' hlt hgt => absurd hgt (compareRows_asymm hlt)⟩
  have hnodup : rows.Nodup := by
    refine hrows.imp fun {row row'} hlt heq => ?_
    subst heq
    exact compareRows_asymm hlt hlt
  exact List.sublist_of_subperm_of_pairwise (List.subperm_of_subset hnodup h) hrows hrows'

namespace Query

variable {facts : Facts} {q q' : Query}

/-- The rows of an answer are strictly ascending. -/
theorem pairwise_answerRows (facts : Facts) (q : Query) :
    (q.answerRows facts).Pairwise fun row row' => compareRows row row' = .lt := by
  have hrows : q.answerRows facts = q.rowsFrom facts (evaluate? facts q) := rfl
  rw [hrows, rowsFrom_eq]
  exact pairwise_sortedRows _

theorem answerRows_sublist (h : q.answerRows facts ⊆ q'.answerRows facts) :
    (q.answerRows facts).Sublist (q'.answerRows facts) :=
  sublist_of_pairwise_compareRows (pairwise_answerRows facts q) (pairwise_answerRows facts q') h

/-! ## Queries with further clauses -/

/-- The second query declares and selects the same, and has all clauses of the first one. -/
structure IsExtendedBy (q q' : Query) : Prop where
  lookup_eq : ∀ x, q'.declarations.lookup x = q.declarations.lookup x
  elements_eq : q'.elements = q.elements
  clauses_subset : q.clauses ⊆ q'.clauses

namespace IsExtendedBy

variable (h : q.IsExtendedBy q')

include h

theorem initialDomain_eq (facts : Facts) (x : String) :
    initialDomain facts q'.declarations x = initialDomain facts q.declarations x := by
  rw [initialDomain, initialDomain, h.lookup_eq]

theorem isBoolean_eq : q'.isBoolean = q.isBoolean := by
  rw [isBoolean, isBoolean, h.elements_eq]

theorem selected_eq : q'.selected = q.selected := by
  rw [selected, selected, h.elements_eq]

theorem mem_synonyms {x : String} (hx : x ∈ q.synonyms) : x ∈ q'.synonyms := by
  rw [synonyms, List.mem_append, List.mem_flatMap] at hx
  rcases hx with hselected | ⟨c, hc, hxc⟩
  · exact List.mem_append_left _ (h.selected_eq ▸ hselected)
  · exact mem_synonyms_of_mem_clause (h.clauses_subset hc) hxc

theorem isJoined {x : String} (hx : q.IsJoined x) : q'.IsJoined x := by
  induction hx with
  | selected hselected => exact .selected (h.selected_eq ▸ hselected)
  | clause hseveral _ hc hxc hyc ih =>
    exact .clause (h.elements_eq ▸ hseveral) ih (h.clauses_subset hc) hxc hyc

theorem isConsistent {F : String → String → Prop} (hF : q'.IsConsistent facts F) :
    q.IsConsistent facts F where
  nonempty x hx := hF.nonempty x (h.mem_synonyms hx)
  mem_domain x hx value hvalue := by
    rw [← h.initialDomain_eq]
    exact hF.mem_domain x (h.mem_synonyms hx) value hvalue
  ground c hc := hF.ground c (h.clauses_subset hc)
  extend x hx y hy value hvalue := by
    obtain ⟨v, hvx, hvy, hholds⟩ :=
      hF.extend x (h.mem_synonyms hx) y (h.mem_synonyms hy) value hvalue
    exact ⟨v, hvx, hvy, fun c hc => hholds c (h.clauses_subset hc)⟩

/-- An assignment that satisfies the longer query pairwise satisfies the shorter one. -/
theorem satisfiesPairwise {v : String → String} (hv : q'.SatisfiesPairwise facts v) :
    q.SatisfiesPairwise facts v := by
  obtain ⟨F, hF, hmem⟩ := hv.family
  refine ⟨⟨F, h.isConsistent hF, fun x hx => hmem x (h.isJoined hx)⟩, fun c hc hall => ?_⟩
  exact hv.holds c (h.clauses_subset hc) fun x hx => h.isJoined (hall x hx)

theorem answerRows_sublist (hf : facts.IsWellFormed) (ht : q.IsTyped) (ht' : q'.IsTyped)
    (hboolean : q.isBoolean = false) : (q'.answerRows facts).Sublist (q.answerRows facts) := by
  refine Query.answerRows_sublist fun row hrow => ?_
  obtain ⟨v, hv, hshows⟩ := (mem_answerRows hf ht' (h.isBoolean_eq.trans hboolean)).mp hrow
  rw [Shows, h.elements_eq] at hshows
  exact (mem_answerRows hf ht hboolean).mpr ⟨v, h.satisfiesPairwise hv, hshows⟩

end IsExtendedBy

theorem IsTyped.isEmpty_eq_false (ht : q.IsTyped) (hboolean : q.isBoolean = false) :
    q.isEmpty = false := by
  rcases ht.elements with htrue | ⟨hne, -⟩
  · rw [htrue] at hboolean
    cases hboolean
  · rw [isEmpty, List.isEmpty_eq_false_iff]
    exact hne

end Query

/-- Further clauses only take answers away. If a query is extended by clauses anywhere among its
own, the lines that remain are lines of its answer, and they stay in order; and if the longer query
for the truth is answered with yes, so is the shorter one. -/
theorem answer_sublist_of_isExtendedBy {source text text' : String} {facts : Facts} {q q' : Query}
    (hlength : source.length < numeralBound) (hfacts : Facts.ofSource source = .ok facts)
    (hquery : Query.ofText text = .ok q) (hquery' : Query.ofText text' = .ok q')
    (hextended : q.IsExtendedBy q') :
    (q.isBoolean = true → q'.answer facts = ["TRUE"] → q.answer facts = ["TRUE"]) ∧
      (q.isBoolean = false → (q'.answer facts).Sublist (q.answer facts)) := by
  have hf := isWellFormed_of_ofSource hfacts hlength
  have ht := isTyped_of_ofText hquery
  have ht' := isTyped_of_ofText hquery'
  refine ⟨fun hboolean htrue => ?_, fun hboolean => ?_⟩
  · have hboolean' := hextended.isBoolean_eq.trans hboolean
    obtain ⟨v, hv⟩ := (Query.answer_eq_true hf ht' hboolean').mp htrue
    exact (Query.answer_eq_true hf ht hboolean).mpr ⟨v, hextended.satisfiesPairwise hv⟩
  · have hboolean' := hextended.isBoolean_eq.trans hboolean
    rw [Query.answer_eq_map (ht.isEmpty_eq_false hboolean) hboolean,
      Query.answer_eq_map (ht'.isEmpty_eq_false hboolean') hboolean']
    exact (hextended.answerRows_sublist hf ht ht' hboolean).map _

/-- A query about assignments whose values are used by assignments. -/
def feeding (selected : String) : String :=
  "assign a, b; variable v; Select " ++ selected ++
    " such that Affects(a, b) and Modifies(a, v)"

/-- The same about assignments in a loop. -/
def feedingInLoop (selected : String) : String :=
  "assign a, b; variable v; Select " ++ selected ++
    " such that Affects(a, b) and Parent(2, a) and Modifies(a, v)"

/-- A clause in the middle that asks for a loop takes away the assignment before the loop. -/
theorem answer_sublist_of_isExtendedBy_feeding : ∃ facts q q' p p',
    countingUp.length < numeralBound ∧ Facts.ofSource countingUp = .ok facts ∧
      (Query.ofText (feeding "<a, v>") = .ok q ∧ Query.ofText (feedingInLoop "<a, v>") = .ok q' ∧
        q.IsExtendedBy q' ∧ q.answer facts = ["1 x", "3 x"] ∧ q'.answer facts = ["3 x"] ∧
        (q'.answer facts).Sublist (q.answer facts)) ∧
      Query.ofText (feeding "BOOLEAN") = .ok p ∧ Query.ofText (feedingInLoop "BOOLEAN") = .ok p' ∧
        p.IsExtendedBy p' ∧ p'.answer facts = ["TRUE"] ∧ p.answer facts = ["TRUE"] := by
  have hlength : countingUp.length < numeralBound := by decide +kernel
  have hrun : (do
      let facts ← (Facts.ofSource countingUp).toOption
      let q ← (Query.ofText (feeding "<a, v>")).toOption
      let q' ← (Query.ofText (feedingInLoop "<a, v>")).toOption
      let p ← (Query.ofText (feeding "BOOLEAN")).toOption
      let p' ← (Query.ofText (feedingInLoop "BOOLEAN")).toOption
      return decide ((q'.declarations = q.declarations ∧ q'.elements = q.elements ∧
          q.clauses ⊆ q'.clauses) ∧
        (p'.declarations = p.declarations ∧ p'.elements = p.elements ∧ p.clauses ⊆ p'.clauses) ∧
        (q.isBoolean = false ∧ q.answer facts = ["1 x", "3 x"] ∧ q'.answer facts = ["3 x"]) ∧
        p.isBoolean = true ∧ p'.answer facts = ["TRUE"])) = some true := by
    decide +kernel
  obtain ⟨facts, hfacts, hrun⟩ := Option.bind_eq_some_iff.mp hrun
  obtain ⟨q, hq, hrun⟩ := Option.bind_eq_some_iff.mp hrun
  obtain ⟨q', hq', hrun⟩ := Option.bind_eq_some_iff.mp hrun
  obtain ⟨p, hp, hrun⟩ := Option.bind_eq_some_iff.mp hrun
  obtain ⟨p', hp', hrun⟩ := Option.bind_eq_some_iff.mp hrun
  obtain ⟨⟨hdeclared, helements, hclauses⟩, ⟨hdeclared', helements', hclauses'⟩,
    ⟨hboolean, hanswer, hanswer'⟩, hboolean', htrue⟩ := of_decide_eq_true (Option.some.inj hrun)
  have hfacts := eq_ok_of_toOption hfacts
  have hq := eq_ok_of_toOption hq
  have hq' := eq_ok_of_toOption hq'
  have hp := eq_ok_of_toOption hp
  have hp' := eq_ok_of_toOption hp'
  have hextended : q.IsExtendedBy q' := ⟨fun x => by rw [hdeclared], helements, hclauses⟩
  have hextended' : p.IsExtendedBy p' := ⟨fun x => by rw [hdeclared'], helements', hclauses'⟩
  refine ⟨facts, q, q', p, p', hlength, hfacts,
    ⟨hq, hq', hextended, hanswer, hanswer', ?_⟩, hp, hp', hextended', htrue, ?_⟩
  · exact (answer_sublist_of_isExtendedBy hlength hfacts hq hq' hextended).2 hboolean
  · exact (answer_sublist_of_isExtendedBy hlength hfacts hp hp' hextended').1 hboolean' htrue

end ProgramQuery
