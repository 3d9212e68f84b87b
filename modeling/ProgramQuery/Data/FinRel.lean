import ProgramQuery.Data.Closure
import ProgramQuery.Data.Grouping

/-!
# Finite relations

A relation between two kinds of things, given by finitely many pairs. Both directions are read from
the same pairs, so a relation and its inverse cannot disagree. The partners of every element are
grouped when the relation is made, and looked up from then on.

## Main definitions

- `FinRel.ofPairs`: the relation of some pairs.
- `FinRel.image`, `FinRel.preimage`: the partners of one element, on either side.
- `FinRel.domain`, `FinRel.range`: the elements that have a partner.
- `FinRel.reach`, `FinRel.coreach`: the elements at the end of a chain of one or more pairs.

## Main statements

- `FinRel.mem_image`, `FinRel.mem_preimage`: both directions are those of the pairs.
-/

namespace ProgramQuery

/-- Finitely many pairs in any order, and their grouping by either component. -/
structure FinRel (α β : Type) [Ord α] [Ord β] where
  /-- The related pairs. -/
  pairs : List (α × β)
  /-- The right components by the left ones. -/
  rightIndex : Std.TreeMap α (List β) := groupPairs pairs
  /-- The left components by the right ones. -/
  leftIndex : Std.TreeMap β (List α) := groupPairs (pairs.map Prod.swap)
  /-- The right components are those of the pairs. -/
  rightIndex_eq : rightIndex = groupPairs pairs := by rfl
  /-- The left components are those of the pairs. -/
  leftIndex_eq : leftIndex = groupPairs (pairs.map Prod.swap) := by rfl

namespace FinRel

variable {α β : Type} [Ord α] [Ord β]

/-- The relation of some pairs. -/
def ofPairs (pairs : List (α × β)) : FinRel α β :=
  { pairs }

/-- The pairs the other way round. -/
def inverse (r : FinRel α β) : FinRel β α :=
  ofPairs (r.pairs.map Prod.swap)

/-- The right components of the pairs that start with `a`. -/
def rights (r : FinRel α β) (a : α) : List β :=
  r.rightIndex.getD a []

/-- The left components of the pairs that end with `b`. -/
def lefts (r : FinRel α β) (b : β) : List α :=
  r.leftIndex.getD b []

/-- All right partners of `a`, ascending. -/
def image (r : FinRel α β) (a : α) : List β :=
  ascending (r.rights a)

/-- All left partners of `b`, ascending. -/
def preimage (r : FinRel α β) (b : β) : List α :=
  ascending (r.lefts b)

/-- The elements with a right partner, ascending. -/
def domain (r : FinRel α β) : List α :=
  r.rightIndex.keys

/-- The elements with a left partner, ascending. -/
def range (r : FinRel α β) : List β :=
  r.leftIndex.keys

section Chains

variable [Std.TransOrd α]

/-- The elements that a chain of one or more pairs leads to from `a`, ascending. -/
def reach (r : FinRel α α) (a : α) : List α :=
  ascending (closure r.rights r.range (r.rights a))

/-- The elements from which a chain of one or more pairs leads to `a`, ascending. -/
def coreach (r : FinRel α α) (a : α) : List α :=
  ascending (closure r.lefts r.domain (r.lefts a))

/-- The partners of `a` by one pair, or by a chain of pairs if `starred`. -/
def after (r : FinRel α α) (a : α) (starred : Bool) : List α :=
  if starred then r.reach a else r.image a

/-- The elements that have `a` as a partner by one pair, or by a chain of pairs if `starred`. -/
def before (r : FinRel α α) (a : α) (starred : Bool) : List α :=
  if starred then r.coreach a else r.preimage a

end Chains

/-! ## Membership -/

/-- The inverse has the pairs the other way round. -/
@[simp]
theorem mem_inverse {r : FinRel α β} {a : α} {b : β} :
    (b, a) ∈ r.inverse.pairs ↔ (a, b) ∈ r.pairs :=
  mem_map_swap

/-- The right components at `a` are those of the pairs. -/
@[simp]
theorem mem_rights [Std.TransOrd α] [Std.LawfulEqOrd α] [DecidableEq α] {r : FinRel α β} {a : α}
    {b : β} : b ∈ r.rights a ↔ (a, b) ∈ r.pairs := by
  rw [rights, r.rightIndex_eq, mem_getD_groupPairs]

/-- The left components at `b` are those of the pairs. -/
@[simp]
theorem mem_lefts [Std.TransOrd β] [Std.LawfulEqOrd β] [DecidableEq β] {r : FinRel α β} {a : α}
    {b : β} : a ∈ r.lefts b ↔ (a, b) ∈ r.pairs := by
  rw [lefts, r.leftIndex_eq, mem_getD_groupPairs, mem_map_swap]

/-- The image of `a` holds the right partners of `a`. -/
@[simp]
theorem mem_image [Std.TransOrd α] [Std.LawfulEqOrd α] [DecidableEq α] [Std.TransOrd β]
    [Std.LawfulEqOrd β] [DecidableEq β] {r : FinRel α β} {a : α} {b : β} :
    b ∈ r.image a ↔ (a, b) ∈ r.pairs := by
  rw [image, mem_ascending, mem_rights]

/-- The preimage of `b` holds the left partners of `b`. -/
@[simp]
theorem mem_preimage [Std.TransOrd α] [Std.LawfulEqOrd α] [DecidableEq α] [Std.TransOrd β]
    [Std.LawfulEqOrd β] [DecidableEq β] {r : FinRel α β} {a : α} {b : β} :
    a ∈ r.preimage b ↔ (a, b) ∈ r.pairs := by
  rw [preimage, mem_ascending, mem_lefts]

/-- The domain holds what has a right partner. -/
@[simp]
theorem mem_domain [Std.TransOrd α] [Std.LawfulEqOrd α] {r : FinRel α β} {a : α} :
    a ∈ r.domain ↔ ∃ b, (a, b) ∈ r.pairs := by
  rw [domain, Std.TreeMap.mem_keys, r.rightIndex_eq, mem_groupPairs]

/-- The range holds what has a left partner. -/
@[simp]
theorem mem_range [Std.TransOrd β] [Std.LawfulEqOrd β] {r : FinRel α β} {b : β} :
    b ∈ r.range ↔ ∃ a, (a, b) ∈ r.pairs := by
  rw [range, Std.TreeMap.mem_keys, r.leftIndex_eq, mem_groupPairs]
  exact exists_congr fun a => mem_map_swap

end FinRel

end ProgramQuery
