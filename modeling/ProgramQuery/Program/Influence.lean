import ProgramQuery.Data.FinRel
import ProgramQuery.Tree.Kind

/-!
# Affects

One assignment affects another if the value that it gives to a variable can still be there when the
other one uses that variable. Which definitions of variables can arrive at a statement is found by
propagation: a queue holds the statements to be visited, a visit computes anew what leaves a
statement, and if that is not what was found before, the statements that come next are queued.

## Main definitions

- `FlowGraph`: what the flow of values depends on.
- `Propagation`, `Propagation.visit`, `Propagation.run`: the propagation and one visit of it.
- `FlowGraph.affects`: the assignments that can use a value of another.

## Main statements

- `Propagation.measure_visit_lt`: every visit comes closer to the end of the propagation.
-/

namespace ProgramQuery

/-- What the flow of values depends on: the statements 1 to n by their kinds, the control flow
between them, and the variables that each modifies and uses. -/
structure FlowGraph where
  /-- The kind of each statement, from statement 1 on. -/
  kinds : Array NodeKind
  /-- The control flow. -/
  next : FinRel Nat Nat
  /-- The variables that a statement may change. -/
  modifies : FinRel Nat String
  /-- The variables that a statement reads. -/
  uses : FinRel Nat String

/-- The kind of a statement, given the kinds of all statements from statement 1 on. -/
def kindAt? (kinds : Array NodeKind) : Nat → Option NodeKind
  | 0 => none
  | n + 1 => kinds[n]?

/-- A variable with an assignment that gives it a value. -/
abbrev Definition := String × Nat

namespace FlowGraph

/-- The numbers of all statements. -/
def statements (g : FlowGraph) : List Nat :=
  List.range' 1 g.kinds.size

/-- Whether a statement is an assignment. -/
def isAssign (g : FlowGraph) (s : Nat) : Bool :=
  kindAt? g.kinds s = some .assign

/-- Whether executing a statement ends what was known about a variable. Loops and branchings do
not, as the statements in their blocks speak for themselves. -/
def changes (g : FlowGraph) (s : Nat) (v : String) : Bool :=
  match kindAt? g.kinds s with
  | some .assign | some .read | some .call => v ∈ g.modifies.rights s
  | _ => false

/-- The definitions that a statement makes itself. -/
def generated (g : FlowGraph) (s : Nat) : List Definition :=
  if g.isAssign s then (g.modifies.image s).map (·, s) else []

/-- The definitions that leave a statement, given those that arrive at it, in order. -/
def passed (g : FlowGraph) (s : Nat) (arriving : List Definition) : List Definition :=
  sortedBy comparePairs (arriving.filter (fun d => ¬g.changes s d.1) ++ g.generated s)

/-- The definitions that leave a statement as far as they have been found. Before its first visit,
those are its own. -/
def leaving (g : FlowGraph) (found : Std.TreeMap Nat (List Definition)) (s : Nat) :
    List Definition :=
  found.getD s (g.passed s [])

/-- The definitions that arrive at a statement from those before it. -/
def arriving (g : FlowGraph) (found : Std.TreeMap Nat (List Definition)) (s : Nat) :
    List Definition :=
  (g.next.preimage s).flatMap (g.leaving found)

/-- All definitions. -/
def definitions (g : FlowGraph) : List Definition :=
  g.statements.flatMap g.generated

/-- All numbers that can be in the queue: the statements, and whatever comes next. -/
def places (g : FlowGraph) : List Nat :=
  g.statements ++ g.next.range

theorem mem_statements {g : FlowGraph} {s : Nat} :
    s ∈ g.statements ↔ 1 ≤ s ∧ s ≤ g.kinds.size := by
  simp only [statements, List.mem_range'_1]
  omega

theorem mem_statements_of_isAssign {g : FlowGraph} {s : Nat} (h : g.isAssign s = true) :
    s ∈ g.statements := by
  rw [mem_statements]
  cases s with
  | zero => simp [isAssign, kindAt?] at h
  | succ s =>
    obtain ⟨hlt, -⟩ := Array.getElem?_eq_some_iff.mp (of_decide_eq_true h)
    omega

theorem mem_generated {g : FlowGraph} {s : Nat} {d : Definition} :
    d ∈ g.generated s ↔ g.isAssign d.2 = true ∧ (d.2, d.1) ∈ g.modifies.pairs ∧ d.2 = s := by
  obtain ⟨v, a⟩ := d
  rw [generated]
  split
  · rename_i hassign
    simp only [List.mem_map, FinRel.mem_image, Prod.mk.injEq]
    constructor
    · rintro ⟨w, hw, rfl, rfl⟩
      exact ⟨hassign, hw, rfl⟩
    · rintro ⟨-, hv, rfl⟩
      exact ⟨v, hv, rfl, rfl⟩
  · rename_i hassign
    constructor
    · intro h
      cases h
    · rintro ⟨h, -, rfl⟩
      exact absurd h hassign

theorem mem_definitions_of_mem_generated {g : FlowGraph} {s : Nat} {d : Definition}
    (h : d ∈ g.generated s) : d ∈ g.definitions := by
  obtain ⟨hassign, -, rfl⟩ := mem_generated.mp h
  exact List.mem_flatMap.mpr ⟨d.2, mem_statements_of_isAssign hassign, h⟩

/-- What leaves a statement has arrived there and is not changed, or is made there. -/
theorem mem_passed {g : FlowGraph} {s : Nat} {arriving : List Definition} {d : Definition} :
    d ∈ g.passed s arriving ↔ (d ∈ arriving ∧ g.changes s d.1 = false) ∨ d ∈ g.generated s := by
  simp [passed]

theorem mem_passed_of_subset {g : FlowGraph} {s : Nat} {l m : List Definition} {d : Definition}
    (h : ∀ d ∈ l, d ∈ m) (hd : d ∈ g.passed s l) : d ∈ g.passed s m := by
  rw [mem_passed] at hd ⊢
  exact hd.imp_left fun ⟨hl, hchanges⟩ => ⟨h d hl, hchanges⟩

/-- What leaves a statement is determined by its members. -/
theorem passed_eq_passed {g : FlowGraph} {s : Nat} {l m : List Definition}
    (h : ∀ d, d ∈ g.passed s l ↔ d ∈ g.passed s m) : g.passed s l = g.passed s m := by
  simp only [passed, mem_sortedBy] at h
  exact sortedBy_congr h

theorem mem_arriving {g : FlowGraph} {found : Std.TreeMap Nat (List Definition)} {s : Nat}
    {d : Definition} :
    d ∈ g.arriving found s ↔ ∃ p, (p, s) ∈ g.next.pairs ∧ d ∈ g.leaving found p := by
  simp [arriving]

theorem leaving_insert (g : FlowGraph) (found : Std.TreeMap Nat (List Definition)) (s t : Nat)
    (l : List Definition) :
    g.leaving (found.insert s l) t = if s = t then l else g.leaving found t := by
  simp [leaving, Std.TreeMap.getD_insert]

end FlowGraph

/-- A propagation of definitions that is under way. What has been found is in order and never
lost on a visit, so a visit can only find more. -/
structure Propagation (g : FlowGraph) where
  /-- The definitions that have been found to leave the statements visited so far. -/
  found : Std.TreeMap Nat (List Definition)
  /-- The statements to be visited, the next one first. -/
  queue : List Nat
  /-- What has been found to leave a statement are definitions. -/
  known : ∀ s, ∀ d ∈ g.leaving found s, d ∈ g.definitions
  /-- What has been found to leave a statement is what some definitions leave behind. -/
  shape : ∀ s, ∃ before, g.leaving found s = g.passed s before
  /-- What has been found to leave a statement leaves it again. -/
  grows : ∀ s, ∀ d ∈ g.leaving found s, d ∈ g.passed s (g.arriving found s)
  /-- Only statements and what comes next are queued. -/
  queued : ∀ s ∈ queue, s ∈ g.places

namespace Propagation

variable {g : FlowGraph}

/-- Before the first visit every statement only has its own definitions. All are to be visited. -/
def initial (g : FlowGraph) : Propagation g where
  found := ∅
  queue := g.statements
  known := by
    intro s d hd
    rw [FlowGraph.leaving, Std.TreeMap.getD_emptyc, FlowGraph.mem_passed] at hd
    rcases hd with ⟨h, -⟩ | h
    · cases h
    · exact FlowGraph.mem_definitions_of_mem_generated h
  shape := fun s => ⟨[], Std.TreeMap.getD_emptyc⟩
  grows := by
    intro s d hd
    rw [FlowGraph.leaving, Std.TreeMap.getD_emptyc] at hd
    exact FlowGraph.mem_passed_of_subset (fun d hd => absurd hd List.not_mem_nil) hd
  queued := fun s hs => List.mem_append_left _ hs

/-- What leaves the next statement when it is visited. -/
def visited (p : Propagation g) (s : Nat) : List Definition :=
  g.passed s (g.arriving p.found s)

theorem mem_leaving_insert (p : Propagation g) {s t : Nat} {d : Definition}
    (hd : d ∈ g.leaving p.found t) : d ∈ g.leaving (p.found.insert s (p.visited s)) t := by
  rw [FlowGraph.leaving_insert]
  split
  · rename_i heq
    subst heq
    exact p.grows s d hd
  · exact hd

theorem mem_arriving_insert (p : Propagation g) {s t : Nat} {d : Definition}
    (hd : d ∈ g.arriving p.found t) : d ∈ g.arriving (p.found.insert s (p.visited s)) t := by
  rw [FlowGraph.mem_arriving] at hd ⊢
  obtain ⟨q, hq, hleaving⟩ := hd
  exact ⟨q, hq, p.mem_leaving_insert hleaving⟩

theorem visited_known (p : Propagation g) (s : Nat) : ∀ d ∈ p.visited s, d ∈ g.definitions := by
  intro d hd
  rcases FlowGraph.mem_passed.mp hd with ⟨harriving, -⟩ | hgenerated
  · obtain ⟨q, -, hq⟩ := FlowGraph.mem_arriving.mp harriving
    exact p.known q d hq
  · exact FlowGraph.mem_definitions_of_mem_generated hgenerated

/-- Visits the first statement of the queue. What leaves it replaces what had been found, and if
that is something else, what comes next is queued. -/
def visit (p : Propagation g) (s : Nat) (rest : List Nat) (hqueue : p.queue = s :: rest) :
    Propagation g :=
  if p.visited s = g.leaving p.found s then
    { p with queue := rest, queued := fun t ht => p.queued t (hqueue ▸ List.mem_cons_of_mem s ht) }
  else
    { found := p.found.insert s (p.visited s)
      queue := rest ++ g.next.image s
      known := by
        intro t d hd
        rw [FlowGraph.leaving_insert] at hd
        split at hd
        · exact p.visited_known s d hd
        · exact p.known t d hd
      shape := by
        intro t
        rw [FlowGraph.leaving_insert]
        split
        · rename_i heq
          subst heq
          exact ⟨_, rfl⟩
        · exact p.shape t
      grows := by
        intro t d hd
        have hvisited : d ∈ p.visited t := by
          rw [FlowGraph.leaving_insert] at hd
          split at hd
          · rename_i heq
            exact heq ▸ hd
          · exact p.grows t d hd
        exact FlowGraph.mem_passed_of_subset (fun _ => p.mem_arriving_insert) hvisited
      queued := by
        intro t ht
        rcases List.mem_append.mp ht with ht | ht
        · exact p.queued t (hqueue ▸ List.mem_cons_of_mem s ht)
        · exact List.mem_append_right _ (FinRel.mem_range.mpr ⟨s, FinRel.mem_image.mp ht⟩) }

/-- The definitions that have not been found to leave a place, with that place. -/
def missing (g : FlowGraph) (found : Std.TreeMap Nat (List Definition)) :
    List (Nat × Definition) :=
  (g.places.flatMap fun s => g.definitions.map (s, ·)).filter fun entry =>
    entry.2 ∉ g.leaving found entry.1

/-- How far the propagation is from its end. A visit that finds something queues at most as many
statements as there are edges. -/
def measure (p : Propagation g) : Nat :=
  (missing g p.found).length * (g.next.pairs.length + 1) + p.queue.length

/-- A visit that changes something finds a definition. -/
theorem exists_of_visited_ne (p : Propagation g) {s : Nat}
    (h : p.visited s ≠ g.leaving p.found s) : ∃ d ∈ p.visited s, d ∉ g.leaving p.found s := by
  refine Classical.byContradiction fun hnone => h ?_
  obtain ⟨before, hbefore⟩ := p.shape s
  rw [hbefore]
  refine FlowGraph.passed_eq_passed fun d => ⟨fun hd => ?_, fun hd => ?_⟩
  · exact hbefore ▸ Classical.byContradiction fun hnot => hnone ⟨d, hd, hnot⟩
  · exact p.grows s d (hbefore.symm ▸ hd)

/-- A visit that changes something leaves less to be found. -/
theorem length_missing_lt (p : Propagation g) {s : Nat} {rest : List Nat}
    (hqueue : p.queue = s :: rest) (hne : p.visited s ≠ g.leaving p.found s) :
    (missing g (p.found.insert s (p.visited s))).length < (missing g p.found).length := by
  obtain ⟨d, hd, hnot⟩ := p.exists_of_visited_ne hne
  -- what is still missing has been missing before
  have hfilter : missing g (p.found.insert s (p.visited s)) = (missing g p.found).filter
      fun entry => entry.2 ∉ g.leaving (p.found.insert s (p.visited s)) entry.1 := by
    rw [missing, missing, List.filter_filter]
    refine List.filter_congr fun entry _ => ?_
    rw [Bool.eq_iff_iff, Bool.and_eq_true, decide_eq_true_eq, decide_eq_true_eq]
    exact ⟨fun h => ⟨h, fun hmem => h (p.mem_leaving_insert hmem)⟩, fun h => h.1⟩
  have hsublist : (missing g (p.found.insert s (p.visited s))).Sublist (missing g p.found) :=
    hfilter ▸ List.filter_sublist
  refine Nat.lt_of_le_of_ne hsublist.length_le fun hlength => ?_
  have hmem : (s, d) ∈ missing g p.found := by
    simp [missing, hnot, p.visited_known s d hd, p.queued s (hqueue ▸ List.mem_cons_self)]
  rw [← hsublist.eq_of_length hlength] at hmem
  simp [missing, FlowGraph.leaving_insert, hd] at hmem

theorem length_image_le (r : FinRel Nat Nat) (s : Nat) : (r.image s).length ≤ r.pairs.length := by
  refine Nat.le_trans (length_ascending_le _) ?_
  rw [FinRel.rights, r.rightIndex_eq, getD_groupPairs]
  exact List.length_filterMap_le _ _

/-- Every visit comes closer to the end of the propagation. -/
theorem measure_visit_lt (p : Propagation g) (s : Nat) (rest : List Nat)
    (hqueue : p.queue = s :: rest) : (p.visit s rest hqueue).measure < p.measure := by
  rw [visit]
  split
  · -- nothing is found, and the queue is shorter
    simp only [measure, missing, hqueue, List.length_cons]
    omega
  · rename_i hne
    -- every edge that is queued is paid for by the definition that is found
    have himage := length_image_le g.next s
    have hmissing := p.length_missing_lt hqueue hne
    have hpaid := Nat.mul_le_mul_right (g.next.pairs.length + 1) (Nat.succ_le_of_lt hmissing)
    rw [Nat.succ_mul] at hpaid
    simp only [measure, missing, hqueue, List.length_append, List.length_cons] at hpaid ⊢
    omega

/-- Visits statements until the queue is empty. -/
def run (p : Propagation g) : Std.TreeMap Nat (List Definition) :=
  match hqueue : p.queue with
  | [] => p.found
  | s :: rest => (p.visit s rest hqueue).run
termination_by p.measure
decreasing_by exact p.measure_visit_lt s rest hqueue

end Propagation

/-- Relates every assignment to the assignments that can use a value of it. What arrives at an
assignment is computed from what has been found when the propagation ends. -/
def FlowGraph.affects (g : FlowGraph) : FinRel Nat Nat :=
  let found := (Propagation.initial g).run
  .ofPairs <| (g.statements.filter g.isAssign).flatMap fun b =>
    ((g.arriving found b).filter fun d => d.1 ∈ g.uses.rights b).map fun d => (d.2, b)

end ProgramQuery
