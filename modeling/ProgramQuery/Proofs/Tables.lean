import Mathlib.Data.List.Induction
import ProgramQuery.Proofs.TreePosition

/-!
# Relations kept in tables

A relation can also be kept in tables that are filled pair by pair, in any order. A table of
partners has one entry for an element, and a later pair replaces it, so it keeps the relation as
long as partners are unique. A table of sets adds to the entry, and always keeps it. Then what a
walk from entry to entry meets, and what a search with a queue finds, are the ends of the chains.

## Main definitions

- `tableOf`, `setTableOf`: tables that are filled pair by pair.
- `FinRel.IsKeptIn`: a table of sets has the pairs of a relation.
- `inverted`: a table of sets turned round, entry by entry.
- `search`: a search with a queue, which marks what it queues.
- `Searching`: what every step of a search preserves.

## Main statements

- `FinRel.toList_tableOf`, `FinRel.isKeptIn_setTableOf`: either table keeps the relation.
- `FinRel.IsKeptIn.related_eq_after`, `FinRel.IsKeptIn.related_inverted_eq_before`: a table of sets
  answers as the relation does, in both directions.
- `Node.IsProgram.walks_tables_iff`: the walks along Follows and Parent in the tables of a program.
-/

namespace ProgramQuery

/-- Ascending lists with the same elements are the same. -/
theorem eq_of_pairwise_compare {α : Type} [Ord α] [Std.TransOrd α] {l m : List α}
    (hl : l.Pairwise fun a b => compare a b = .lt) (hm : m.Pairwise fun a b => compare a b = .lt)
    (h : ∀ a, a ∈ l ↔ a ∈ m) : l = m := by
  have : Std.Antisymm fun a b : α => compare a b = .lt :=
    ⟨fun a b hab hba => absurd hba (Std.OrientedCmp.not_lt_of_lt hab)⟩
  have : Std.Irrefl fun a b : α => compare a b = .lt :=
    ⟨fun a ha => by simp [Std.ReflOrd.compare_self] at ha⟩
  exact hl.eq_of_mem_iff hm h

/-! ## The inverse -/

namespace FinRel

variable {α β : Type} [Ord α] [Ord β]

theorem image_inverse (r : FinRel α β) : r.inverse.image = r.preimage := by
  funext b
  rw [image, rights, preimage, lefts, r.leftIndex_eq]
  rfl

theorem domain_inverse (r : FinRel α β) : r.inverse.domain = r.range := by
  rw [domain, range, r.leftIndex_eq]
  rfl

theorem reach_inverse [Std.TransOrd α] [Std.LawfulEqOrd α] [DecidableEq α] (r : FinRel α α) :
    r.inverse.reach = r.coreach := by
  funext b
  refine eq_of_pairwise_compare (pairwise_ascending _) (pairwise_ascending _) fun a => ?_
  rw [mem_reach, mem_coreach, ← Relation.transGen_swap]
  simp only [mem_inverse]

end FinRel

/-! ## One partner -/

section Partner

variable {α β : Type} [Ord α]

/-- A table with one entry for each left component. A pair replaces the entry of an earlier one. -/
def tableOf (pairs : List (α × β)) : Std.TreeMap α β :=
  pairs.foldl (fun table p => table.insert p.1 p.2) ∅

variable [Std.TransOrd α] [Std.LawfulEqOrd α] {pairs : List (α × β)}

/-- If partners are unique, no entry is lost. -/
theorem getElem?_tableOf (hunique : ∀ a b c, (a, b) ∈ pairs → (a, c) ∈ pairs → b = c) {a : α}
    {b : β} : (tableOf pairs)[a]? = some b ↔ (a, b) ∈ pairs := by
  induction pairs using List.reverseRecOn with
  | nil => simp [tableOf]
  | append_singleton pairs p ih =>
    have hpairs := ih fun a b c hb hc =>
      hunique a b c (List.mem_append_left _ hb) (List.mem_append_left _ hc)
    have hstep : tableOf (pairs ++ [p]) = (tableOf pairs).insert p.1 p.2 := by
      simp [tableOf]
    have hlast : p ∈ pairs ++ [p] := List.mem_append_right _ List.mem_cons_self
    rw [hstep, Std.TreeMap.getElem?_insert]
    by_cases hp : p.1 = a
    · subst hp
      rw [if_pos Std.ReflOrd.compare_self, Option.some.injEq]
      exact ⟨fun heq => heq ▸ hlast, fun hmem => hunique p.1 p.2 b hlast hmem⟩
    · rw [if_neg (mt Std.LawfulEqOrd.compare_eq_iff_eq.mp hp), hpairs, List.mem_append,
        List.mem_singleton]
      refine ⟨.inl, fun hmem => hmem.resolve_right ?_⟩
      rintro rfl
      exact hp rfl

namespace FinRel

variable [Ord β] {r : FinRel α β} (hpairs : ∀ p, p ∈ pairs ↔ p ∈ r.pairs)
  (hunique : ∀ a b c, (a, b) ∈ r.pairs → (a, c) ∈ r.pairs → b = c)

include hpairs hunique

theorem getElem?_tableOf_eq_some_iff {a : α} {b : β} :
    (tableOf pairs)[a]? = some b ↔ (a, b) ∈ r.pairs := by
  rw [← hpairs]
  refine getElem?_tableOf fun a b c hb hc => ?_
  exact hunique a b c ((hpairs _).mp hb) ((hpairs _).mp hc)

/-- The entry of an element is its only right partner. -/
theorem toList_tableOf [Std.TransOrd β] [Std.LawfulEqOrd β] [DecidableEq α] [DecidableEq β]
    (a : α) : (tableOf pairs)[a]?.toList = r.image a := by
  refine eq_of_pairwise_compare ?_ (pairwise_ascending _) fun b => ?_
  · cases (tableOf pairs)[a]? <;> simp
  · rw [Option.mem_toList, mem_image, getElem?_tableOf_eq_some_iff hpairs hunique]

/-- The elements with an entry are those with a right partner. -/
theorem keys_tableOf : (tableOf pairs).keys = r.domain := by
  refine eq_of_pairwise_compare Std.TreeMap.ordered_keys Std.TreeMap.ordered_keys fun a => ?_
  rw [Std.TreeMap.mem_keys, Std.TreeMap.mem_iff_isSome_getElem?, Option.isSome_iff_exists]
  simp only [getElem?_tableOf_eq_some_iff hpairs hunique]
  exact mem_domain.symm

end FinRel

end Partner

/-! ## Sets of partners -/

section Partners

variable {α β : Type} [Ord α] [Ord β]

/-- A table with the set of all partners for each left component. -/
def setTableOf (pairs : List (α × β)) : Std.TreeMap α (Std.TreeSet β) :=
  pairs.foldl (fun table p => table.insert p.1 ((table.getD p.1 ∅).insert p.2)) ∅

/-- Each element that has an entry, with each of its partners. -/
def pairsOf (table : Std.TreeMap α (Std.TreeSet β)) : List (α × β) :=
  table.toList.flatMap fun entry => entry.2.toList.map (entry.1, ·)

/-- The table of the pairs the other way round, filled from the entries of a table. -/
def inverted (table : Std.TreeMap α (Std.TreeSet β)) : Std.TreeMap β (Std.TreeSet α) :=
  setTableOf ((pairsOf table).map Prod.swap)

/-- The table has the pairs of the relation, and no empty entry. -/
structure FinRel.IsKeptIn (r : FinRel α β) (table : Std.TreeMap α (Std.TreeSet β)) : Prop where
  /-- The entry of an element has the right partners of it. -/
  mem_getD : ∀ a b, b ∈ table.getD a ∅ ↔ (a, b) ∈ r.pairs
  /-- Only elements with a partner have an entry. -/
  mem_table : ∀ a, a ∈ table ↔ ∃ b, (a, b) ∈ r.pairs

variable [Std.TransOrd α] [Std.LawfulEqOrd α]

/-- The elements with an entry are those with a right partner. -/
theorem FinRel.IsKeptIn.keys_eq {r : FinRel α β} {table : Std.TreeMap α (Std.TreeSet β)}
    (h : r.IsKeptIn table) : table.keys = r.domain := by
  refine eq_of_pairwise_compare Std.TreeMap.ordered_keys Std.TreeMap.ordered_keys fun a => ?_
  rw [Std.TreeMap.mem_keys, h.mem_table]
  exact mem_domain.symm

variable [Std.TransOrd β] [Std.LawfulEqOrd β]

/-- One more pair in the relation is one more partner in the entry. -/
theorem FinRel.IsKeptIn.insert {pairs : List (α × β)} {table : Std.TreeMap α (Std.TreeSet β)}
    (h : (ofPairs pairs).IsKeptIn table) (a : α) (b : β) :
    (ofPairs (pairs ++ [(a, b)])).IsKeptIn (table.insert a ((table.getD a ∅).insert b)) := by
  constructor
  · intro a' b'
    have hold := h.mem_getD a' b'
    rw [Std.TreeMap.getD_insert]
    simp only [ofPairs, List.mem_append, List.mem_singleton, Prod.mk.injEq] at hold ⊢
    by_cases ha : a = a'
    · subst ha
      rw [if_pos Std.ReflOrd.compare_self, Std.TreeSet.mem_insert,
        Std.LawfulEqOrd.compare_eq_iff_eq, hold]
      simp [or_comm, eq_comm]
    · rw [if_neg (mt Std.LawfulEqOrd.compare_eq_iff_eq.mp ha), hold]
      simp [Ne.symm ha]
  · intro a'
    have hold := h.mem_table a'
    rw [Std.TreeMap.mem_insert, Std.LawfulEqOrd.compare_eq_iff_eq]
    simp only [ofPairs, List.mem_append, List.mem_singleton, Prod.mk.injEq] at hold ⊢
    rw [hold]
    constructor
    · rintro (rfl | ⟨b', hb⟩)
      · exact ⟨b, .inr ⟨rfl, rfl⟩⟩
      · exact ⟨b', .inl hb⟩
    · rintro ⟨b', hb | ⟨rfl, -⟩⟩
      · exact .inr ⟨b', hb⟩
      · exact .inl rfl

/-- A table that is filled with the pairs of a relation, in whatever order, keeps it. -/
theorem FinRel.isKeptIn_setTableOf {r : FinRel α β} {pairs : List (α × β)}
    (hpairs : ∀ p, p ∈ pairs ↔ p ∈ r.pairs) : r.IsKeptIn (setTableOf pairs) := by
  have hfilled : (ofPairs pairs).IsKeptIn (setTableOf pairs) := by
    clear hpairs
    induction pairs using List.reverseRecOn with
    | nil => exact ⟨by simp [setTableOf, ofPairs], by simp [setTableOf, ofPairs]⟩
    | append_singleton pairs p ih =>
      have hstep : setTableOf (pairs ++ [p]) =
          (setTableOf pairs).insert p.1 (((setTableOf pairs).getD p.1 ∅).insert p.2) := by
        simp [setTableOf]
      rw [hstep]
      exact ih.insert p.1 p.2
  exact ⟨fun a b => (hfilled.mem_getD a b).trans (hpairs _),
    fun a => (hfilled.mem_table a).trans (exists_congr fun b => hpairs _)⟩

theorem mem_pairsOf {table : Std.TreeMap α (Std.TreeSet β)} {a : α} {b : β} :
    (a, b) ∈ pairsOf table ↔ b ∈ table.getD a ∅ := by
  simp only [pairsOf, List.mem_flatMap, List.mem_map, Std.TreeSet.mem_toList, Prod.mk.injEq,
    Std.TreeMap.getD_eq_getD_getElem?]
  constructor
  · rintro ⟨⟨a', set⟩, hentry, b', hb, rfl, rfl⟩
    rw [Std.TreeMap.mem_toList_iff_getElem?_eq_some.mp hentry]
    exact hb
  · intro hb
    cases hentry : table[a]? with
    | none => simp [hentry] at hb
    | some set =>
      rw [hentry] at hb
      exact ⟨(a, set), Std.TreeMap.mem_toList_iff_getElem?_eq_some.mpr hentry, b, hb, rfl, rfl⟩

namespace FinRel.IsKeptIn

variable {r : FinRel α β} {table : Std.TreeMap α (Std.TreeSet β)} (h : r.IsKeptIn table)

include h

/-- The entry of an element lists its right partners. -/
theorem toList_getD [DecidableEq α] [DecidableEq β] (a : α) :
    (table.getD a ∅).toList = r.image a := by
  refine eq_of_pairwise_compare Std.TreeSet.ordered_toList (pairwise_ascending _) fun b => ?_
  rw [Std.TreeSet.mem_toList, h.mem_getD, mem_image]

/-- A table that is turned round keeps the inverse. -/
theorem inverse : r.inverse.IsKeptIn (inverted table) := by
  refine isKeptIn_setTableOf fun p => ?_
  obtain ⟨b, a⟩ := p
  rw [mem_map_swap, mem_pairsOf, h.mem_getD, mem_inverse]

theorem keys_inverted : (inverted table).keys = r.range := by
  rw [h.inverse.keys_eq, domain_inverse]

end FinRel.IsKeptIn

end Partners

/-! ## Search with a queue -/

section Search

variable {α : Type} [Ord α]

/-- The partners of an element that have not been seen. -/
def fresh (table : Std.TreeMap α (Std.TreeSet α)) (seen : Std.TreeSet α) (a : α) : List α :=
  (table.getD a ∅).toList.filter (· ∉ seen)

/-- The partners of all elements that have not been seen. -/
def unseen (table : Std.TreeMap α (Std.TreeSet α)) (seen : Std.TreeSet α) : List α :=
  ((pairsOf table).map Prod.snd).filter (· ∉ seen)

section Steps

variable [Std.TransOrd α] [Std.LawfulEqOrd α] {table : Std.TreeMap α (Std.TreeSet α)}
  {seen : Std.TreeSet α} {a b : α}

theorem mem_fresh : b ∈ fresh table seen a ↔ b ∈ table.getD a ∅ ∧ b ∉ seen := by
  simp [fresh]

theorem mem_unseen : b ∈ unseen table seen ↔ (∃ a, b ∈ table.getD a ∅) ∧ b ∉ seen := by
  simp [unseen, mem_pairsOf]

/-- Whenever something new is queued, less is left to be seen. -/
theorem length_unseen_lt (hfresh : fresh table seen a ≠ []) :
    (unseen table (seen.insertMany (fresh table seen a))).length < (unseen table seen).length := by
  classical
  obtain ⟨b, hb⟩ := List.exists_mem_of_ne_nil _ hfresh
  have hfilter : unseen table (seen.insertMany (fresh table seen a)) =
      (unseen table seen).filter (· ∉ fresh table seen a) := by
    simp [unseen, List.filter_filter, and_comm]
  rw [hfilter]
  refine List.length_filter_lt_length_iff_exists.mpr ⟨b, ?_, by simp [hb]⟩
  obtain ⟨hpartner, hnot⟩ := mem_fresh.mp hb
  exact mem_unseen.mpr ⟨⟨a, hpartner⟩, hnot⟩

end Steps

/-- Takes the first element of the queue and queues those of its partners that have not been seen,
until the queue is empty. What is queued counts as seen. -/
def search [Std.TransOrd α] [Std.LawfulEqOrd α] (table : Std.TreeMap α (Std.TreeSet α))
    (seen : Std.TreeSet α) (queue : List α) : Std.TreeSet α :=
  match queue with
  | [] => seen
  | a :: rest => search table (seen.insertMany (fresh table seen a)) (rest ++ fresh table seen a)
termination_by ((unseen table seen).length, queue.length)
decreasing_by
  by_cases hfresh : fresh table seen a = []
  · rw [hfresh, List.append_nil]
    exact .right _ (Nat.lt_succ_self _)
  · exact .left _ _ (length_unseen_lt hfresh)

/-- What holds of a search that has started at an element. -/
structure Searching (table : Std.TreeMap α (Std.TreeSet α)) (start : α) (seen : Std.TreeSet α)
    (queue : List α) : Prop where
  /-- Chains lead from the start to whatever has been seen. -/
  reached : ∀ b ∈ seen, Relation.TransGen (fun a b => b ∈ table.getD a ∅) start b
  /-- Only the start and what has been seen is queued. -/
  queued : ∀ a ∈ queue, a = start ∨ a ∈ seen
  /-- Unless they are queued, the start and what has been seen have no partner left to be seen. -/
  closed : ∀ a, a = start ∨ a ∈ seen → a ∉ queue → ∀ b ∈ table.getD a ∅, b ∈ seen

namespace Searching

variable {table : Std.TreeMap α (Std.TreeSet α)} {start : α} {seen : Std.TreeSet α}
  {queue : List α}

theorem initial [Std.TransOrd α] : Searching table start ∅ [start] where
  reached := fun b hb => absurd hb Std.TreeSet.not_mem_emptyc
  queued := fun a ha => .inl (List.mem_singleton.mp ha)
  closed := by
    rintro a (rfl | ha) hnot
    · exact absurd List.mem_cons_self hnot
    · exact absurd ha Std.TreeSet.not_mem_emptyc

/-- A search whose queue is empty has seen the ends of all chains. -/
theorem mem_iff (h : Searching table start seen []) {b : α} :
    b ∈ seen ↔ Relation.TransGen (fun a b => b ∈ table.getD a ∅) start b := by
  refine ⟨h.reached b, fun hchain => ?_⟩
  induction hchain with
  | single hstep => exact h.closed start (.inl rfl) List.not_mem_nil _ hstep
  | tail _ hstep ih => exact h.closed _ (.inr ih) List.not_mem_nil _ hstep

variable [Std.TransOrd α] [Std.LawfulEqOrd α]

theorem step {a : α} {rest : List α} (h : Searching table start seen (a :: rest)) :
    Searching table start (seen.insertMany (fresh table seen a))
      (rest ++ fresh table seen a) := by
  have hmem : ∀ b, b ∈ seen.insertMany (fresh table seen a) ↔
      b ∈ seen ∨ b ∈ fresh table seen a := by
    classical
    simp [Std.TreeSet.mem_insertMany_list]
  constructor
  · intro b hb
    rcases (hmem b).mp hb with hb | hb
    · exact h.reached b hb
    · have hpartner := (mem_fresh.mp hb).1
      rcases h.queued a List.mem_cons_self with rfl | ha
      · exact .single hpartner
      · exact .tail (h.reached a ha) hpartner
  · intro b hb
    rw [hmem]
    rcases List.mem_append.mp hb with hb | hb
    · exact (h.queued b (List.mem_cons_of_mem a hb)).imp_right .inl
    · exact .inr (.inr hb)
  · intro b hb hnot c hc
    rw [List.mem_append, not_or] at hnot
    rw [hmem] at hb ⊢
    have hold : b = start ∨ b ∈ seen := hb.imp_right fun hb => hb.resolve_right hnot.2
    by_cases hba : b = a
    · -- all partners of the element taken from the queue are seen now
      subst hba
      by_cases hseen : c ∈ seen
      · exact .inl hseen
      · exact .inr (mem_fresh.mpr ⟨hc, hseen⟩)
    · exact .inl (h.closed b hold (by simp [hba, hnot.1]) c hc)

theorem run (h : Searching table start seen queue) :
    Searching table start (search table seen queue) [] := by
  fun_induction search table seen queue with
  | case1 seen => exact h
  | case2 seen a rest ih => exact ih h.step

end Searching

/-- The partners of an element, or what a search from it finds if `starred`. -/
def related [Std.TransOrd α] [Std.LawfulEqOrd α] (table : Std.TreeMap α (Std.TreeSet α)) (a : α)
    (starred : Bool) : List α :=
  if starred then (search table ∅ [a]).toList else (table.getD a ∅).toList

namespace FinRel.IsKeptIn

variable [Std.TransOrd α] [Std.LawfulEqOrd α] [DecidableEq α] {r : FinRel α α}
  {table : Std.TreeMap α (Std.TreeSet α)} (h : r.IsKeptIn table)

include h

/-- The search finds the ends of the chains. -/
theorem toList_search (a : α) : (search table ∅ [a]).toList = r.reach a := by
  refine eq_of_pairwise_compare Std.TreeSet.ordered_toList (pairwise_ascending _) fun b => ?_
  rw [Std.TreeSet.mem_toList, Searching.initial.run.mem_iff, mem_reach]
  simp only [h.mem_getD]

/-- A table answers as the relation does, plain or starred. -/
theorem related_eq_after : related table = r.after := by
  funext a starred
  rw [related, after, h.toList_search, h.toList_getD]

/-- A table that is turned round answers as the relation does backwards. -/
theorem related_inverted_eq_before : related (inverted table) = r.before := by
  rw [h.inverse.related_eq_after]
  funext b starred
  rw [after, before, image_inverse, reach_inverse]

end FinRel.IsKeptIn

end Search

/-! ## Walks through a table -/

/-- A walk goes one way only. -/
theorem Walks.eq_iff {partners : Nat → List Nat} {n : Nat} {l m : List Nat}
    (hm : Walks partners n m) : Walks partners n l ↔ l = m := by
  refine ⟨fun hl => ?_, fun heq => heq ▸ hm⟩
  induction hl generalizing m with
  | stop h =>
    cases hm with
    | stop => rfl
    | step h' => simp [h] at h'
  | step h _ ih =>
    cases hm with
    | stop h' => simp [h] at h'
    | step h' hrest =>
      obtain rfl := List.singleton_inj.mp (h.symm.trans h')
      rw [ih hrest]

namespace FinRel

variable {r : FinRel Nat Nat} (hlt : ∀ a b, (a, b) ∈ r.pairs → a < b)

include hlt

/-- From entry to entry of the table of right partners, a walk meets the ends of the chains. -/
theorem walks_tableOf_iff (hunique : ∀ a b c, (a, b) ∈ r.pairs → (a, c) ∈ r.pairs → b = c)
    {n : Nat} {l : List Nat} :
    Walks (fun a => (tableOf r.pairs)[a]?.toList) n l ↔ l = r.reach n := by
  have htable : (fun a => (tableOf r.pairs)[a]?.toList) = r.image :=
    funext (toList_tableOf (fun _ => .rfl) hunique)
  rw [htable, (walks_reach hlt hunique n).eq_iff]

/-- From entry to entry of the table of left partners, a walk meets the starts of the chains, the
nearest one first. -/
theorem walks_tableOf_swap_iff (hunique : ∀ a b c, (a, c) ∈ r.pairs → (b, c) ∈ r.pairs → a = b)
    {n : Nat} {l : List Nat} :
    Walks (fun b => (tableOf (r.pairs.map Prod.swap))[b]?.toList) n l ↔
      l = (r.coreach n).reverse := by
  have htable : (fun b => (tableOf (r.pairs.map Prod.swap))[b]?.toList) = r.preimage := by
    funext c
    rw [← image_inverse]
    refine toList_tableOf (r := r.inverse) (fun _ => .rfl) (fun c a b ha hb => ?_) c
    exact hunique a b c (mem_inverse.mp ha) (mem_inverse.mp hb)
  rw [htable, (walks_coreach hlt hunique n).eq_iff]

end FinRel

/-- The walks from entry to entry in the tables of a program meet Follows* in order, and Follows*
and Parent* backwards the other way round. -/
theorem Node.IsProgram.walks_tables_iff {good : Token → Prop} {tree : Node}
    (h : tree.IsProgram good) {n : Nat} {l : List Nat} :
    (Walks (fun a => (tableOf tree.follows.pairs)[a]?.toList) n l ↔
      l = tree.follows.after n true) ∧
    (Walks (fun b => (tableOf (tree.follows.pairs.map Prod.swap))[b]?.toList) n l ↔
      l = (tree.follows.before n true).reverse) ∧
    (Walks (fun b => (tableOf (tree.parents.pairs.map Prod.swap))[b]?.toList) n l ↔
      l = (tree.parents.before n true).reverse) := by
  have hlt : ∀ a b, (a, b) ∈ tree.follows.pairs → a < b := fun _ _ => h.lt_of_mem_follows
  have hlt' : ∀ a b, (a, b) ∈ tree.parents.pairs → a < b := fun _ _ => h.lt_of_mem_parents
  exact ⟨FinRel.walks_tableOf_iff hlt fun _ _ _ => h.follows_right_unique,
    FinRel.walks_tableOf_swap_iff hlt fun _ _ _ => h.follows_left_unique,
    FinRel.walks_tableOf_swap_iff hlt' fun _ _ _ => h.parents_left_unique⟩

end ProgramQuery
