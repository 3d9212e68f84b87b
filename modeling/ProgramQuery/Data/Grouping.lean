import Std.Data.TreeMap

/-!
# Grouping pairs

`groupPairs` arranges a list of pairs by their first components, so that all partners of an
element are found at once. The partners keep their order and their repetitions.

## Main statements

- `getD_groupPairs`: what is found is what a search through the list finds.
- `mem_groupPairs`: an element has an entry exactly if it has a partner.
-/

namespace ProgramQuery

variable {α β : Type}

/-- Swapped pairs are the pairs the other way round. -/
theorem mem_map_swap {pairs : List (α × β)} {a : α} {b : β} :
    (b, a) ∈ pairs.map Prod.swap ↔ (a, b) ∈ pairs := by
  constructor
  · intro h
    obtain ⟨⟨a', b'⟩, hp, hswap⟩ := List.mem_map.mp h
    obtain ⟨rfl, rfl⟩ := Prod.mk.inj hswap
    exact hp
  · intro h
    exact List.mem_map.mpr ⟨(a, b), h, rfl⟩

variable [Ord α]

/-- The second components of some pairs, by the first ones. -/
def groupPairs (pairs : List (α × β)) : Std.TreeMap α (List β) :=
  pairs.foldr (fun p groups => groups.insert p.1 (p.2 :: groups.getD p.1 [])) ∅

/-- The entry of an element lists its partners. -/
theorem getD_groupPairs [Std.TransOrd α] [Std.LawfulEqOrd α] [DecidableEq α]
    (pairs : List (α × β)) (a : α) :
    (groupPairs pairs).getD a [] = pairs.filterMap fun p => if p.1 = a then some p.2 else none := by
  induction pairs with
  | nil => exact Std.TreeMap.getD_emptyc
  | cons p pairs ih =>
    have hstep : groupPairs (p :: pairs) =
        (groupPairs pairs).insert p.1 (p.2 :: (groupPairs pairs).getD p.1 []) := rfl
    rw [hstep, Std.TreeMap.getD_insert]
    by_cases hp : p.1 = a
    · subst hp
      simp [ih]
    · simp [hp, ih]

/-- The entry of an element holds its partners. -/
theorem mem_getD_groupPairs [Std.TransOrd α] [Std.LawfulEqOrd α] [DecidableEq α]
    {pairs : List (α × β)} {a : α} {b : β} :
    b ∈ (groupPairs pairs).getD a [] ↔ (a, b) ∈ pairs := by
  simp [getD_groupPairs, List.mem_filterMap]

/-- The elements with an entry are those with a partner. -/
theorem mem_groupPairs [Std.TransOrd α] [Std.LawfulEqOrd α] {pairs : List (α × β)} {a : α} :
    a ∈ groupPairs pairs ↔ ∃ b, (a, b) ∈ pairs := by
  induction pairs with
  | nil =>
    constructor
    · intro h
      exact absurd h Std.TreeMap.not_mem_emptyc
    · rintro ⟨b, hb⟩
      cases hb
  | cons p pairs ih =>
    have hstep : groupPairs (p :: pairs) =
        (groupPairs pairs).insert p.1 (p.2 :: (groupPairs pairs).getD p.1 []) := rfl
    rw [hstep, Std.TreeMap.mem_insert, ih, Std.LawfulEqOrd.compare_eq_iff_eq]
    constructor
    · rintro (rfl | ⟨b, hb⟩)
      · exact ⟨p.2, List.mem_cons_self⟩
      · exact ⟨b, List.mem_cons_of_mem p hb⟩
    · rintro ⟨b, hb⟩
      rcases List.mem_cons.mp hb with rfl | hb
      · exact .inl rfl
      · exact .inr ⟨b, hb⟩

end ProgramQuery
