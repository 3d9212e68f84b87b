import ProgramQuery.Proofs.Narrowing

/-!
# The order of an answer

The rows of an answer are compared value by value, and the first difference decides. Names are in
the order of their characters. Numbers are in the order of what they denote, as long as that is in
the range of numerals. A program may have constants beyond that range: these come before all other
numbers, and are in the order of their digits as texts.

## Main definitions

- `ComesBefore`: in which order two different values come.
- `FirstDiffers`: where two rows are different for the first time.

## Main statements

- `comesBefore_of_compare`: what a comparison of values says about names and numbers.
- `FirstDiffers.compareRows_eq`: rows are compared by their first difference.
- `answer_is_sorted`: the rows of an answer are in order, each once.
-/

namespace ProgramQuery

/-! ## Values -/

/-- The order of different values. Names are in the order of their characters, and numerals in that
of the numbers they denote. Numbers beyond the range of numerals come before those in the range, and
are in the order of their digits as texts. -/
structure ComesBefore (v w : String) : Prop where
  names : IsName v → IsName w → v < w
  numerals : IsNumber v → IsNumber w → digitsValue v.toList < numeralBound →
    digitsValue w.toList < numeralBound → digitsValue v.toList < digitsValue w.toList
  beyond : IsNumber v → IsNumber w → numeralBound ≤ digitsValue w.toList →
    numeralBound ≤ digitsValue v.toList ∧ v < w

/-- The numerals decide, and if they are the same, the texts do. -/
theorem comparePairs_eq_lt_iff {v w : String} :
    comparePairs (numeral? v, v) (numeral? w, w) = .lt ↔
      compare (numeral? v) (numeral? w) = .lt ∨ numeral? v = numeral? w ∧ v < w := by
  have hthen : comparePairs (numeral? v, v) (numeral? w, w) =
      (compare (numeral? v) (numeral? w)).then (compare v w) := rfl
  have htext : compare v w = .lt ↔ v < w := compareOfLessAndEq_eq_lt
  rw [hthen, Ordering.then_eq_lt, Std.compare_eq_iff_eq, htext]

/-- What a comparison of values says about names and numbers. -/
theorem comesBefore_of_compare {v w : String}
    (h : comparePairs (numeral? v, v) (numeral? w, w) = .lt) : ComesBefore v w := by
  rw [comparePairs_eq_lt_iff] at h
  refine ⟨fun hv hw => ?_, fun hv hw hlt hlt' => ?_, fun hv hw hle => ?_⟩
  · rw [numeral?_of_isName hv, numeral?_of_isName hw] at h
    exact (h.resolve_left (by decide)).2
  · have hnumeral : numeral? w = some (digitsValue w.toList) := by
      rw [hw.numeral?_eq, if_pos hlt']
    rcases h with hless | ⟨heq, htext⟩
    · rw [hnumeral, hv.numeral?_eq, if_pos hlt] at hless
      exact Nat.compare_eq_lt.mp hless
    · -- numbers that denote the same are the same
      have hsame : v = w := by
        rw [← toString_of_numeral? hv (heq.trans hnumeral), toString_of_numeral? hw hnumeral]
      rw [hsame] at htext
      exact absurd htext (String.lt_irrefl w)
  · rw [hw.numeral?_eq, if_neg (Nat.not_lt.mpr hle), hv.numeral?_eq] at h
    by_cases hlt : digitsValue v.toList < numeralBound
    · -- a number in the range does not come before one beyond it
      rw [if_pos hlt] at h
      rcases h with hless | ⟨heq, -⟩
      · cases hless
      · cases heq
    · rw [if_neg hlt] at h
      exact ⟨Nat.not_lt.mp hlt, (h.resolve_left (by decide)).2⟩

/-! ## Rows -/

/-- Two rows have the same values up to some place, and there they have `v` and `w`. -/
def FirstDiffers (row row' : Row) (v w : String) : Prop :=
  v ≠ w ∧ ∃ common rest rest', row = common ++ v :: rest ∧ row' = common ++ w :: rest'

theorem FirstDiffers.cons {row row' : Row} {v w : String} (value : String)
    (h : FirstDiffers row row' v w) : FirstDiffers (value :: row) (value :: row') v w := by
  obtain ⟨hne, common, rest, rest', rfl, rfl⟩ := h
  exact ⟨hne, value :: common, rest, rest', rfl, rfl⟩

/-- Different rows of one length differ at some place. -/
theorem exists_firstDiffers {row row' : Row} (hlength : row.length = row'.length)
    (hne : row ≠ row') : ∃ v w, FirstDiffers row row' v w := by
  induction row generalizing row' with
  | nil => exact absurd (List.length_eq_zero_iff.mp hlength.symm).symm hne
  | cons v row ih =>
    cases row' with
    | nil => cases hlength
    | cons w row' =>
      by_cases hvw : v = w
      · subst hvw
        obtain ⟨x, y, hfirst⟩ := ih (Nat.succ.inj hlength) fun heq => hne (by rw [heq])
        exact ⟨x, y, hfirst.cons v⟩
      · exact ⟨v, w, hvw, [], row, row', rfl, rfl⟩

/-- Rows are compared by their first difference. -/
theorem FirstDiffers.compareRows_eq {row row' : Row} {v w : String}
    (h : FirstDiffers row row' v w) :
    compareRows row row' = comparePairs (numeral? v, v) (numeral? w, w) := by
  obtain ⟨hne, common, rest, rest', rfl, rfl⟩ := h
  have hvalue : comparePairs (numeral? v, v) (numeral? w, w) ≠ .eq := fun heq =>
    hne (Prod.mk.inj (Std.LawfulEqCmp.eq_of_compare heq)).2
  induction common with
  | nil =>
    rw [compareRows, compareKeys]
    simp only [rowKey, List.nil_append, List.map_cons, List.compareLex_cons_cons]
    cases hcompare : comparePairs (numeral? v, v) (numeral? w, w) with
    | eq => exact absurd hcompare hvalue
    | lt => rfl
    | gt => rfl
  | cons value common ih =>
    have hself : comparePairs (numeral? value, value) (numeral? value, value) = .eq :=
      Std.ReflCmp.compare_self
    rw [compareRows, compareKeys] at ih ⊢
    simp only [rowKey, List.cons_append, List.map_cons, List.compareLex_cons_cons, hself] at ih ⊢
    exact ih

/-! ## Answers -/

/-- The rows of an answer are in order, and no line is repeated. Each row has a name or a number for
each selected element. Of any two rows the first difference decides which comes first: names by
their characters, numbers in the range of numerals by what they denote. -/
theorem answer_is_sorted {source text : String} {facts : Facts} {q : Query}
    (hlength : source.length < numeralBound) (hfacts : Facts.ofSource source = .ok facts)
    (hquery : Query.ofText text = .ok q) :
    (q.answer facts).Nodup ∧
    (q.isBoolean = true → q.answer facts = ["TRUE"] ∨ q.answer facts = ["FALSE"]) ∧
    (q.isBoolean = false →
      q.answer facts = (q.answerRows facts).map (" ".intercalate ·) ∧
      (∀ row ∈ q.answerRows facts, row.length = q.elements.length ∧
        ∀ value ∈ row, IsName value ∨ IsNumber value) ∧
      (q.answerRows facts).Pairwise fun row row' => (∃ v w, FirstDiffers row row' v w) ∧
        ∀ v w, FirstDiffers row row' v w → ComesBefore v w) := by
  have hf := isWellFormed_of_ofSource hfacts hlength
  have ht := isTyped_of_ofText hquery
  refine ⟨Query.nodup_answer hf ht, fun hboolean => Query.answer_eq_or hboolean facts,
    fun hboolean => ?_⟩
  have hempty : q.isEmpty = false := by
    rcases ht.elements with htrue | ⟨hne, -⟩
    · rw [htrue] at hboolean
      cases hboolean
    · simpa [Query.isEmpty] using hne
  have hrows : ∀ row ∈ q.answerRows facts, row.length = q.elements.length ∧
      ∀ value ∈ row, IsName value ∨ IsNumber value :=
    fun row hrow => Query.isName_or_isNumber_of_mem_answerRows hf ht hboolean hrow
  refine ⟨Query.answer_eq_map hempty hboolean facts, hrows, ?_⟩
  refine (Query.pairwise_answerRows facts q).imp_of_mem fun {row row'} hrow hrow' hlt => ?_
  constructor
  · refine exists_firstDiffers ((hrows row hrow).1.trans (hrows row' hrow').1.symm) ?_
    rintro rfl
    exact compareRows_asymm hlt hlt
  · intro v w hfirst
    rw [hfirst.compareRows_eq] at hlt
    exact comesBefore_of_compare hlt

/-- Constants in the range of numerals, and one that is just beyond it. -/
def largeConstant : String :=
  "procedure main \x7b x = 10; y = 9; z = 18446744073709551616; \x7d"

/-- The constants 9 and 10 are in the order of numbers. The largest constant is beyond the range,
and comes before both. -/
theorem answer_is_sorted_largeConstant : ∃ facts q,
    Facts.ofSource largeConstant = .ok facts ∧
      Query.ofText "constant c; Select c" = .ok q ∧
      q.answer facts = ["18446744073709551616", "9", "10"] ∧
      ComesBefore "9" "10" ∧ digitsValue "9".toList < digitsValue "10".toList ∧
      ComesBefore "18446744073709551616" "9" ∧
      digitsValue "9".toList < digitsValue "18446744073709551616".toList := by
  have hrun : (do
      let facts ← (Facts.ofSource largeConstant).toOption
      let q ← (Query.ofText "constant c; Select c").toOption
      return decide (q.isBoolean = false ∧ q.answer facts = ["18446744073709551616", "9", "10"] ∧
        q.answerRows facts = [["18446744073709551616"], ["9"], ["10"]])) = some true := by
    decide +kernel
  obtain ⟨facts, hfacts, hrun⟩ := Option.bind_eq_some_iff.mp hrun
  obtain ⟨q, hquery, hrun⟩ := Option.bind_eq_some_iff.mp hrun
  obtain ⟨hboolean, hanswer, hrows⟩ := of_decide_eq_true (Option.some.inj hrun)
  have hfacts := eq_ok_of_toOption hfacts
  have hquery := eq_ok_of_toOption hquery
  obtain ⟨-, -, hsorted⟩ := answer_is_sorted (by decide +kernel) hfacts hquery
  obtain ⟨-, -, hpairs⟩ := hsorted hboolean
  rw [hrows] at hpairs
  obtain ⟨hlarge, hrest⟩ := List.pairwise_cons.mp hpairs
  have hnine := (List.pairwise_cons.mp hrest).1
  refine ⟨facts, q, hfacts, hquery, hanswer, ?_, by decide +kernel, ?_, by decide +kernel⟩
  · exact (hnine ["10"] (by simp)).2 "9" "10" ⟨by decide, [], [], [], rfl, rfl⟩
  · exact (hlarge ["9"] (by simp)).2 _ "9" ⟨by decide, [], [], [], rfl, rfl⟩

end ProgramQuery
