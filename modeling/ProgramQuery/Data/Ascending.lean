import Std.Data.TreeSet

/-!
# Ascending lists

A finite set is kept as the strictly ascending list of its elements. `ascending` puts any list
into that form, so two lists with the same elements get the same ascending list. Membership in a
long list is tested through a search tree, which `keepBy` builds once for all tests.

## Main definitions

- `sortedBy`, `ascending`: the elements of a list in order, each once.
- `keepBy`, `keep`: the elements of a list that a second list admits.

## Main statements

- `mem_ascending`: sorting keeps the elements.
- `ascending_congr`: only the elements count.
- `keepBy_eq_filter`, `keep_eq_filter`: the search tree admits what the list admits.
-/

namespace ProgramQuery

/-- The elements of a list in strictly ascending order by `cmp`, each once. -/
def sortedBy {α : Type} (cmp : α → α → Ordering) (l : List α) : List α :=
  (Std.TreeSet.ofList l cmp).toList

/-- The elements of a list in strictly ascending order, each once. -/
def ascending {α : Type} [Ord α] (l : List α) : List α :=
  sortedBy compare l

/-- The elements of `l` whose value under `f` is in `admitted`, in the order of `l`. -/
def keepBy {α β : Type} (cmp : β → β → Ordering) (f : α → β) (admitted : List β) (l : List α) :
    List α :=
  let members := Std.TreeSet.ofList admitted cmp
  l.filter fun a => members.contains (f a)

/-- The elements of `l` that are in `admitted`, in the order of `l`. -/
def keep {α : Type} [Ord α] (admitted l : List α) : List α :=
  keepBy compare id admitted l

/-- The order of pairs by their first components, and by their second ones if those are equal. -/
abbrev comparePairs {α β : Type} [Ord α] [Ord β] : α × β → α × β → Ordering :=
  compareLex (compareOn Prod.fst) (compareOn Prod.snd)

variable {α β : Type}

/-- Sorting keeps the elements. -/
@[simp]
theorem mem_sortedBy {cmp : α → α → Ordering} [Std.TransCmp cmp] [Std.LawfulEqCmp cmp]
    [DecidableEq α] {l : List α} {a : α} : a ∈ sortedBy cmp l ↔ a ∈ l := by
  simp [sortedBy, Std.TreeSet.mem_ofList]

/-- Lists with the same elements are sorted into the same list. -/
theorem sortedBy_congr {cmp : α → α → Ordering} [Std.TransCmp cmp] [Std.LawfulEqCmp cmp]
    [DecidableEq α] {l m : List α} (h : ∀ a, a ∈ l ↔ a ∈ m) : sortedBy cmp l = sortedBy cmp m := by
  refine Std.TreeSet.Equiv.toList_eq (.of_forall_mem_iff fun a => ?_)
  simp [Std.TreeSet.mem_ofList, h]

/-- Sorting keeps the elements. -/
@[simp]
theorem mem_ascending [Ord α] [Std.TransOrd α] [Std.LawfulEqOrd α] [DecidableEq α] {l : List α}
    {a : α} : a ∈ ascending l ↔ a ∈ l :=
  mem_sortedBy

/-- Sorting adds no element. -/
theorem length_ascending_le [Ord α] [Std.TransOrd α] (l : List α) :
    (ascending l).length ≤ l.length := by
  rw [ascending, sortedBy, Std.TreeSet.length_toList]
  exact Std.TreeSet.size_ofList_le

/-- Each element comes before all larger ones. -/
theorem pairwise_ascending [Ord α] [Std.TransOrd α] (l : List α) :
    (ascending l).Pairwise fun a b => compare a b = .lt :=
  Std.TreeSet.ordered_toList

/-- Lists with the same elements have the same ascending list. -/
theorem ascending_congr [Ord α] [Std.TransOrd α] [Std.LawfulEqOrd α] [DecidableEq α]
    {l m : List α} (h : ∀ a, a ∈ l ↔ a ∈ m) : ascending l = ascending m :=
  sortedBy_congr h

/-- The search tree admits what the list admits. -/
theorem keepBy_eq_filter {cmp : β → β → Ordering} [Std.TransCmp cmp] [Std.LawfulEqCmp cmp]
    [DecidableEq β] (f : α → β) (admitted : List β) (l : List α) :
    keepBy cmp f admitted l = l.filter fun a => f a ∈ admitted := by
  simp [keepBy, Std.TreeSet.contains_ofList]

/-- What is kept is what both lists have. -/
theorem keep_eq_filter [Ord α] [Std.TransOrd α] [Std.LawfulEqOrd α] [DecidableEq α]
    (admitted l : List α) : keep admitted l = l.filter (· ∈ admitted) :=
  keepBy_eq_filter id admitted l

/-- Pairs with no difference in either component are the same. -/
instance [Ord α] [Ord β] [Std.LawfulEqOrd α] [Std.LawfulEqOrd β] :
    Std.LawfulEqCmp (comparePairs (α := α) (β := β)) where
  compare_self := by simp [comparePairs, compareLex, compareOn]
  eq_of_compare := by
    rintro ⟨a, b⟩ ⟨a', b'⟩ h
    simp only [comparePairs, compareLex, compareOn, Ordering.then_eq_eq,
      Std.LawfulEqOrd.compare_eq_iff_eq] at h
    exact Prod.ext h.1 h.2

end ProgramQuery
