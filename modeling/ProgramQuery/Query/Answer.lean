import ProgramQuery.Query.Evaluation
import ProgramQuery.Query.Parser
import ProgramQuery.Query.Table

/-!
# Answers

The answer to a query is the list of the distinct rows of what it selects. For a single element
these are its candidates. For several elements, the constraints that link the selected synonyms to
each other and to further synonyms are joined. Rows are ordered by value, with names before numbers.

## Main definitions

- `compareRows`, `sortedRows`: the order of the rows of an answer.
- `Query.answer`: the answer to a query.
- `answerText`: the answer to the text of a query.
-/

namespace ProgramQuery

/-- What the order of a value depends on: the number that it denotes, if any, and its text. -/
abbrev SortKey := Option Nat × String

/-- What the order of a row depends on. -/
def rowKey (row : Row) : List SortKey :=
  row.map fun value => (numeral? value, value)

/-- The order of rows by their keys. The first difference decides: names come by code points,
before numbers by size. Digits that denote a number beyond the range of numerals are in order with
the names. -/
def compareKeys (a b : List SortKey) : Ordering :=
  List.compareLex comparePairs a b

/-- The order of rows. -/
def compareRows (a b : Row) : Ordering :=
  compareKeys (rowKey a) (rowKey b)

/-- The distinct rows in order. The key of each row is found once. -/
def sortedRows (rows : List Row) : List Row :=
  (sortedBy compareKeys (rows.map rowKey)).map fun key => key.map Prod.snd

/-- What an element shows of a candidate. -/
def ElementKind.shown? (facts : Facts) : ElementKind → String → Option String
  | attr a, value => a.argumentKind.attribute? facts value
  | _, value => some value

/-- What the elements show of a row of candidates. -/
def shownRow? (facts : Facts) (elements : List Element) (row : Row) : Option Row :=
  (elements.zip row).mapM fun entry => entry.1.kind.shown? facts entry.2

namespace Candidates

/-- The synonyms at the other end of a constraint on the given one. -/
def linked (s : Candidates) (synonym : String) : List String :=
  s.constraints.flatMap fun c =>
    (if c.first = synonym then [c.second] else []) ++ (if c.second = synonym then [c.first] else [])

/-- The given synonyms and all that chains of constraints link to them. -/
def involved (s : Candidates) (synonyms : List String) : List String :=
  closure s.linked (synonyms ++ s.constraints.flatMap fun c => [c.first, c.second]) synonyms

/-- Whether a table has a column for one of the synonyms of a constraint. -/
def touches (t : Table) (c : Constraint) : Bool :=
  c.first ∈ t.columns || c.second ∈ t.columns

/-- The constraint to be joined next: the first that touches the table, or else the first one. -/
def nextConstraint? (t : Table) (pending : List Constraint) : Option Constraint :=
  (pending.find? (touches t)).or pending.head?

/-- The constraint to be joined next is a pending one. -/
theorem mem_of_nextConstraint? {t : Table} {pending : List Constraint} {c : Constraint}
    (h : nextConstraint? t pending = some c) : c ∈ pending := by
  unfold nextConstraint? at h
  cases hf : pending.find? (touches t) with
  | some d =>
    rw [hf, Option.some_or, Option.some.injEq] at h
    exact h ▸ List.mem_of_find?_eq_some hf
  | none =>
    rw [hf, Option.none_or] at h
    exact List.mem_of_mem_head? (by simp [h])

/-- A join that has to have a row. -/
def joinSome (t u : Table) : Option Table :=
  let joined := t.join u
  if joined.rows.isEmpty then none else some joined

/-- Joins the pairs of all pending constraints to a table. -/
def joinConstraints (t : Table) (pending : List Constraint) : Option Table :=
  match _next : nextConstraint? t pending with
  | none => some t
  | some c => do
    let t ← joinSome t (.ofPairs c.first c.second c.pairs)
    joinConstraints t (pending.erase c)
termination_by pending.length
decreasing_by
  have h := mem_of_nextConstraint? _next
  have := List.length_pos_of_mem h
  rw [List.length_erase_of_mem h]
  omega

/-- The possible rows of candidates for some synonyms together. -/
def rows? (s : Candidates) (synonyms : List String) : Option (List Row) := do
  let involved := s.involved synonyms
  let t ← joinConstraints {} (s.constraints.filter fun c => c.first ∈ involved)
  let t ← synonyms.eraseDups.foldlM (fun t v => joinSome t (.ofValues v (s.domains.get v))) t
  t.tuples? synonyms

/-- The rows of candidates for what a query selects. -/
def selectedRows? (s : Candidates) (elements : List Element) : Option (List Row) :=
  match elements with
  | [element] => some ((s.domains.get element.synonym).map ([·]))
  | _ => s.rows? (elements.map Element.synonym)

end Candidates

/-- The rows that a query selects, distinct and in order; none if its clauses cannot hold. -/
def Query.answerRows (facts : Facts) (q : Query) : List Row :=
  match (evaluate? facts q).bind (·.selectedRows? q.elements) with
  | none => []
  | some rows => sortedRows (rows.filterMap (shownRow? facts q.elements))

/-- The answer to a query: `TRUE` or `FALSE`, or the selected rows with their values separated by
blanks. The query that asks nothing gets no answer. -/
def Query.answer (facts : Facts) (q : Query) : List String :=
  if q.isEmpty then
    []
  else if q.isBoolean then
    [if (evaluate? facts q).isSome then "TRUE" else "FALSE"]
  else
    (q.answerRows facts).map (" ".intercalate ·)

/-- The answer to the text of a query. A text that is not a query gets no answer. -/
def answerText (facts : Facts) (text : String) : List String :=
  (Query.ofTextD text).answer facts

end ProgramQuery
