import ProgramQuery.Proofs.LoopFlow

/-!
# Statement numbers are nested intervals

Statements are numbered in the order of their paths, without gaps. Between the path of a statement
and a path below it there are only paths below it, and so there are between its path and that of
its next sibling. Hence the statements inside a statement have the numbers right after its own, and
where another statement follows, they fill the gap up to that.

## Main statements

- `Node.prefix_of_lt_of_lt`: what lies between the paths of two neighbours.
- `Node.IsProgram.links_parents_of_lt`, `Node.IsProgram.links_parents_iff_lt`: which numbers the
  statements inside a statement have.
- `descendants_eq_interval`: the statements inside a statement have consecutive numbers.
-/

namespace ProgramQuery

/-! ## Numbers without gaps -/

namespace Numbering

variable {tree : Node}

/-- There is a statement for every number up to that of a statement. -/
theorem exists_path_of_le {q : Path} {n b : Nat} (hb : (ofTree tree).numberOf? q = some b)
    (hpos : 1 ≤ n) (hle : n ≤ b) : ∃ r, (ofTree tree).numberOf? r = some n := by
  have hcount := (numberOf?_bounds hb).2
  rw [count] at hcount
  obtain ⟨i, rfl⟩ := Nat.exists_eq_add_of_le' hpos
  have hi : i < (ofTree tree).paths.length := by omega
  exact ⟨(ofTree tree).paths[i], numberOf?_eq_some_iff.mpr (List.getElem?_eq_getElem hi)⟩

end Numbering

/-! ## Statements inside a statement -/

namespace Node

/-- Between a path and its next sibling there are only paths below it. -/
theorem prefix_of_lt_of_lt {p q : Path} {i : Nat} (hpq : p ++ [i] < q) (hq : q < p ++ [i + 1]) :
    p ++ [i] <+: q := by
  induction p generalizing q with
  | nil =>
    cases q with
    | nil => exact absurd hpq (List.not_lt_nil _)
    | cons j q =>
      rw [List.nil_append, List.cons_lt_cons_iff] at hpq hq
      have hj : j < i + 1 := hq.resolve_right fun hq => List.not_lt_nil q hq.2
      obtain rfl : i = j := by omega
      exact List.cons_prefix_cons.mpr ⟨rfl, List.nil_prefix⟩
  | cons k p ih =>
    cases q with
    | nil => exact absurd hpq (List.not_lt_nil _)
    | cons j q =>
      rw [List.cons_append, List.cons_lt_cons_iff] at hpq hq
      obtain rfl : k = j := by omega
      have hpq : p ++ [i] < q := (hpq.resolve_left (lt_irrefl k)).2
      have hq : q < p ++ [i + 1] := (hq.resolve_left (lt_irrefl k)).2
      exact List.cons_prefix_cons.mpr ⟨rfl, ih hpq hq⟩

section Program

variable {good : Token → Prop} {tree : Node} (h : tree.IsProgram good) {a b n : Nat}

include h

/-- A statement with a larger number whose path is below that of another one is inside it. -/
theorem IsProgram.links_parents_of_prefix {p q : Path}
    (ha : (Numbering.ofTree tree).numberOf? p = some a)
    (hn : (Numbering.ofTree tree).numberOf? q = some n) (han : a < n) (hpq : p <+: q) :
    tree.parents.Links true a n := by
  obtain ⟨inner, rfl⟩ := hpq
  refine h.transGen_parents ha hn fun hnil => ?_
  rw [hnil, List.append_nil, ha] at hn
  have heq : a = n := Option.some.inj hn
  omega

/-- Up to a statement inside a statement there are only statements inside it. -/
theorem IsProgram.links_parents_of_lt (hab : tree.parents.Links true a b) (han : a < n)
    (hnb : n < b) : tree.parents.Links true a n := by
  obtain ⟨p, rest, ha, hb, -⟩ := h.transGen_parents_iff.mp hab
  obtain ⟨q, hn⟩ := Numbering.exists_path_of_le hb (by omega) hnb.le
  have hpq : p < q := (Numbering.lt_iff ha hn).mpr han
  have hq : q < p ++ rest := (Numbering.lt_iff hn hb).mpr hnb
  exact h.links_parents_of_prefix ha hn han (prefix_of_not_lt hpq.asymm hq.asymm)

/-- The statements inside a statement are those before the one that follows it. -/
theorem IsProgram.links_parents_iff_lt (hab : (a, b) ∈ tree.follows.pairs) :
    tree.parents.Links true a n ↔ a < n ∧ n < b := by
  obtain ⟨path, i, ha, hb⟩ := h.mem_follows_iff.mp hab
  constructor
  · intro hlinks
    obtain ⟨p, rest, hp, hn, -⟩ := h.transGen_parents_iff.mp hlinks
    obtain rfl := Numbering.numberOf?_injective ha hp
    refine ⟨FinRel.lt_of_transGen (fun _ _ => h.lt_of_mem_parents) hlinks, ?_⟩
    rw [List.append_assoc] at hn
    refine (Numbering.lt_iff hn hb).mp (List.append_left_lt ?_)
    exact List.cons_lt_cons_iff.mpr (.inl (Nat.lt_succ_self i))
  · rintro ⟨han, hnb⟩
    obtain ⟨q, hn⟩ := Numbering.exists_path_of_le hb (by omega) hnb.le
    have hpq : path ++ [i] < q := (Numbering.lt_iff ha hn).mpr han
    have hq : q < path ++ [i + 1] := (Numbering.lt_iff hn hb).mpr hnb
    exact h.links_parents_of_prefix ha hn han (prefix_of_lt_of_lt hpq hq)

end Program

end Node

/-! ## Intervals -/

/-- Ascending numbers above a bound that leave out none are consecutive. -/
theorem eq_range'_of_closed {l : List Nat} {a : Nat} (hsorted : l.Pairwise (· < ·))
    (habove : ∀ x ∈ l, a < x) (hclosed : ∀ x ∈ l, ∀ n, a < n → n < x → n ∈ l) :
    l = List.range' (a + 1) l.length := by
  induction l generalizing a with
  | nil => rfl
  | cons x l ih =>
    obtain ⟨hlt, htail⟩ := List.pairwise_cons.mp hsorted
    have hax := habove x List.mem_cons_self
    -- the first number is the next one, as otherwise the next one would be left out
    obtain rfl : x = a + 1 := by
      by_contra hne
      have hmem := hclosed x List.mem_cons_self (a + 1) (Nat.lt_succ_self a) (by omega)
      rcases List.mem_cons.mp hmem with heq | hmem
      · exact hne heq.symm
      · have := hlt (a + 1) hmem
        omega
    have hrest := ih htail hlt fun y hy n han hny => by
      have hmem := hclosed y (List.mem_cons_of_mem _ hy) n (by omega) hny
      exact (List.mem_cons.mp hmem).resolve_left (by omega)
    rw [List.length_cons, List.range'_succ, ← hrest]

/-- Statement numbers are nested intervals. Where another statement follows, the statements inside
a statement have all the numbers between the two; and in any case they have the numbers right after
its own, without gaps. -/
theorem descendants_eq_interval {source : String} {facts : Facts}
    (hfacts : Facts.ofSource source = .ok facts) :
    (∀ s t, facts.follows.after s false = [t] →
      s < t ∧ facts.parent.after s true = List.range' (s + 1) (t - (s + 1))) ∧
    ∀ s, ∃ k, facts.parent.after s true = List.range' (s + 1) k := by
  obtain ⟨ts, tree, order, hts, hparse, -, -, rfl⟩ := exists_of_ofSource hfacts
  have h := isProgram_of_parseProgram hparse (isLexical_of_tokenize hts)
  have hfollows : (Facts.gather tree order).follows = tree.follows := rfl
  have hparent : (Facts.gather tree order).parent = tree.parents := rfl
  rw [hfollows, hparent]
  refine ⟨fun s t hst => ?_, fun s => ⟨_, eq_range'_of_closed ?_ ?_ ?_⟩⟩
  · have hmem : t ∈ tree.follows.after s false := by
      rw [hst]
      exact List.mem_singleton_self t
    have hst : (s, t) ∈ tree.follows.pairs := FinRel.mem_after.mp hmem
    have hlt := h.lt_of_mem_follows hst
    refine ⟨hlt, ascending_eq_of_mem_iff List.pairwise_lt_range' fun n => ?_⟩
    calc n ∈ tree.parents.after s true ↔ s < n ∧ n < t :=
          FinRel.mem_after.trans (h.links_parents_iff_lt hst)
      _ ↔ n ∈ List.range' (s + 1) (t - (s + 1)) := by
          rw [List.mem_range'_1]
          omega
  · exact pairwise_lt_ascending _
  · intro n hn
    exact FinRel.lt_of_transGen (fun _ _ => h.lt_of_mem_parents) (FinRel.mem_after.mp hn)
  · intro b hb n hsn hnb
    exact FinRel.mem_after.mpr (h.links_parents_of_lt (FinRel.mem_after.mp hb) hsn hnb)

/-- Inside the loop, statement 2 of seven, are the four statements up to the one that follows it.
Inside the branching in it, statement 3, are the next two, and in the last statement there are
none. -/
theorem descendants_eq_interval_branchingInLoop : ∃ facts,
    Facts.ofSource branchingInLoop = .ok facts ∧ facts.follows.after 2 false = [7] ∧
      facts.parent.after 2 true = [3, 4, 5, 6] ∧ facts.follows.after 3 false = [6] ∧
      facts.parent.after 3 true = [4, 5] ∧ facts.parent.after 7 true = [] ∧
      ∃ k, facts.parent.after 7 true = List.range' 8 k := by
  have hrun : (do
      let facts ← (Facts.ofSource branchingInLoop).toOption
      return decide (facts.follows.after 2 false = [7] ∧ facts.follows.after 3 false = [6] ∧
        facts.parent.after 7 true = [])) = some true := by
    decide +kernel
  obtain ⟨facts, hfacts, hrun⟩ := Option.bind_eq_some_iff.mp hrun
  obtain ⟨hloop, hbranching, hlast⟩ := of_decide_eq_true (Option.some.inj hrun)
  have hfacts := eq_ok_of_toOption hfacts
  obtain ⟨hbetween, hrange⟩ := descendants_eq_interval hfacts
  exact ⟨facts, hfacts, hloop, (hbetween 2 7 hloop).2, hbranching, (hbetween 3 6 hbranching).2,
    hlast, hrange 7⟩

end ProgramQuery
