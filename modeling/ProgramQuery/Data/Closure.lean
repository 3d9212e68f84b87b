import ProgramQuery.Data.Ascending

/-!
# Closure of a finite set under steps

`closure step whole seeds` collects the members of a finite universe that can be reached from some
seeds by any number of steps. Every round takes the members that it finds out of the unseen ones,
so the rounds end with the universe, whatever the shape of the graph.

## Main statements

- `mem_closure`: the closure holds exactly what a path through the universe leads to.
-/

namespace ProgramQuery

variable {α : Type} [Ord α]

/-- Takes some elements out of a set. -/
def discard (s : Std.TreeSet α) (l : List α) : Std.TreeSet α :=
  l.foldl (fun s a => s.erase a) s

/-- What is left has been there and has not been taken out. -/
@[simp]
theorem mem_discard [Std.TransOrd α] [Std.LawfulEqOrd α] {s : Std.TreeSet α} {l : List α} {a : α} :
    a ∈ discard s l ↔ a ∈ s ∧ a ∉ l := by
  induction l generalizing s with
  | nil => simp [discard]
  | cons b l ih =>
    have hstep : discard s (b :: l) = discard (s.erase b) l := rfl
    rw [hstep, ih, Std.TreeSet.mem_erase, List.mem_cons, not_or, ne_eq,
      Std.LawfulEqOrd.compare_eq_iff_eq]
    constructor
    · rintro ⟨⟨hb, hs⟩, hl⟩
      exact ⟨hs, fun h => hb h.symm, hl⟩
    · rintro ⟨hs, hb, hl⟩
      exact ⟨⟨fun h => hb h.symm, hs⟩, hl⟩

/-- Taking out never adds an element. -/
theorem size_discard_le [Std.TransOrd α] (s : Std.TreeSet α) (l : List α) :
    (discard s l).size ≤ s.size := by
  induction l generalizing s with
  | nil => exact Nat.le_refl _
  | cons b l ih => exact Nat.le_trans (ih (s.erase b)) Std.TreeSet.size_erase_le

/-- Taking out a member makes the set smaller. -/
theorem size_discard_lt [Std.TransOrd α] {s : Std.TreeSet α} {a : α} (l : List α)
    (ha : s.contains a = true) : (discard s (a :: l)).size < s.size := by
  have hle : (discard s (a :: l)).size ≤ (s.erase a).size := size_discard_le (s.erase a) l
  have herase : (s.erase a).size = s.size - 1 := by
    rw [Std.TreeSet.size_erase, if_pos ha]
  have hpos : s.size ≠ 0 := by
    intro h
    rw [Std.TreeSet.contains_of_isEmpty (by simp [Std.TreeSet.isEmpty_eq_size_eq_zero, h])] at ha
    cases ha
  omega

/-- The members of `unseen` that are seeds, or are reached from those by steps through `unseen`.
They are listed by rounds, those found in one round in ascending order. -/
def closureIn [Std.TransOrd α] (step : α → List α) (unseen : Std.TreeSet α) (seeds : List α) :
    List α :=
  match _round : (ascending seeds).filter unseen.contains with
  | [] => []
  | a :: found =>
    a :: found ++ closureIn step (discard unseen (a :: found)) ((a :: found).flatMap step)
termination_by unseen.size
decreasing_by
  have hmem : a ∈ (ascending seeds).filter unseen.contains := by
    rw [_round]
    exact List.mem_cons_self
  exact size_discard_lt found (List.mem_filter.mp hmem).2

/-- The members of `whole` that are seeds, or are reached from those by steps through `whole`. -/
def closure [Std.TransOrd α] (step : α → List α) (whole seeds : List α) : List α :=
  closureIn step (.ofList whole) seeds

/-- A path of steps leads from a seed to `a` and stays where `inside` holds. -/
inductive Reached {α : Type} (step : α → List α) (inside : α → Prop) (seeds : List α) :
    α → Prop where
  | seed {a : α} (here : inside a) (start : a ∈ seeds) : Reached step inside seeds a
  | next {a b : α} (reached : Reached step inside seeds a) (here : inside b)
      (edge : b ∈ step a) : Reached step inside seeds b

/-- The rounds find exactly what a path through the unseen leads to. -/
theorem mem_closureIn [Std.TransOrd α] [Std.LawfulEqOrd α] [DecidableEq α] {step : α → List α}
    {unseen : Std.TreeSet α} {seeds : List α} {x : α} :
    x ∈ closureIn step unseen seeds ↔ Reached step (· ∈ unseen) seeds x := by
  fun_induction closureIn step unseen seeds with
  | case1 unseen seeds hround =>
    have hnone : ∀ a ∈ seeds, a ∉ unseen := by
      simpa [List.filter_eq_nil_iff, Std.TreeSet.contains_iff_mem] using hround
    constructor
    · intro h
      cases h
    · intro h
      induction h with
      | seed here start => exact absurd here (hnone _ start)
      | next _ _ _ ih => cases ih
  | case2 unseen seeds a found hround ih =>
    have hfound : ∀ b, b ∈ a :: found ↔ b ∈ unseen ∧ b ∈ seeds := by
      intro b
      rw [← hround, List.mem_filter, mem_ascending, Std.TreeSet.contains_iff_mem]
      exact And.comm
    have hrest : ∀ b, b ∈ discard unseen (a :: found) ↔ b ∈ unseen ∧ b ∉ seeds := by
      intro b
      rw [mem_discard, hfound]
      constructor
      · rintro ⟨hin, hnot⟩
        exact ⟨hin, fun h => hnot ⟨hin, h⟩⟩
      · rintro ⟨hin, hnot⟩
        exact ⟨hin, fun h => hnot h.2⟩
    rw [List.mem_append, ih]
    clear ih
    constructor
    · rintro (h | h)
      · exact .seed ((hfound x).mp h).1 ((hfound x).mp h).2
      · induction h with
        | seed here start =>
          obtain ⟨b, hb, hstep⟩ := List.mem_flatMap.mp start
          obtain ⟨hin, hseed⟩ := (hfound b).mp hb
          exact .next (.seed hin hseed) ((hrest _).mp here).1 hstep
        | next _ here edge ih => exact .next ih ((hrest _).mp here).1 edge
    · intro h
      induction h with
      | seed here start => exact .inl ((hfound _).mpr ⟨here, start⟩)
      | @next b c _ here edge ih =>
        by_cases hc : c ∈ seeds
        · exact .inl ((hfound c).mpr ⟨here, hc⟩)
        · have hin := (hrest c).mpr ⟨here, hc⟩
          rcases ih with hb | hb
          · exact .inr (.seed hin (List.mem_flatMap.mpr ⟨b, hb, edge⟩))
          · exact .inr (.next hb hin edge)

/-- The closure holds exactly what a path through the universe leads to. -/
theorem mem_closure [Std.TransOrd α] [Std.LawfulEqOrd α] [DecidableEq α] {step : α → List α}
    {whole seeds : List α} {x : α} :
    x ∈ closure step whole seeds ↔ Reached step (· ∈ whole) seeds x := by
  have hwhole : (fun a => a ∈ Std.TreeSet.ofList whole compare) = fun a => a ∈ whole := by
    funext a
    simp [Std.TreeSet.mem_ofList]
  rw [closure, mem_closureIn, hwhole]

end ProgramQuery
