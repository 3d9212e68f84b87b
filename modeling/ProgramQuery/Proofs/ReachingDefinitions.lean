import Mathlib.Data.List.Chain
import ProgramQuery.Program.Influence

/-!
# Affects as paths of the control flow

What the propagation of definitions finds is what paths of the control flow carry. Two facts hold
after every visit, and so at the end. What has been found to leave a statement is carried there by
a path. And a statement that is not queued needs no visit, because a visit of it would find what
has been found already.

## Main definitions

- `FlowGraph.Kills`: when a statement ends what was known about a variable.
- `FlowGraph.Carried`: a definition leaves a statement on a path that does not kill it.
- `Propagation.Settled`: no statement outside the queue needs a visit.
- `Propagation.noting`: the propagation that notes at each visit what arrives.

## Main statements

- `Propagation.exists_run`: what every visit preserves holds at the end.
- `affects_eq_ofPairs_noting`: what the visits note to arrive is what arrives at the end.
- `affects_iff_path`: Affects is the relation that paths of the control flow give.
-/

namespace ProgramQuery

namespace FlowGraph

/-- The statement is an assignment, a read or a call, and modifies the variable. -/
def Kills (g : FlowGraph) (s : Nat) (v : String) : Prop :=
  (∃ kind ∈ [NodeKind.assign, .read, .call], kindAt? g.kinds s = some kind) ∧
    (s, v) ∈ g.modifies.pairs

/-- Every element of the list comes directly after the one before it. -/
def IsPath (g : FlowGraph) (path : List Nat) : Prop :=
  path.IsChain fun s t => (s, t) ∈ g.next.pairs

variable {g : FlowGraph}

theorem changes_iff {s : Nat} {v : String} : g.changes s v = true ↔ g.Kills s v := by
  rw [changes, Kills]
  split
  all_goals simp_all

theorem IsPath.append {path : List Nat} {s t : Nat} (h : g.IsPath (path ++ [s]))
    (hnext : (s, t) ∈ g.next.pairs) : g.IsPath (path ++ [s] ++ [t]) := by
  refine List.isChain_append.mpr ⟨h, List.isChain_singleton t, ?_⟩
  intro x hx y hy
  simp only [List.getLast?_append, List.getLast?_singleton, Option.some_or, Option.mem_some_iff,
    List.head?_singleton] at hx hy
  exact hx ▸ hy ▸ hnext

/-- The definition leaves the statement: it is made there, or a path carries it there from its
assignment, and neither the statement nor one on the way kills it. -/
def Carried (g : FlowGraph) (d : Definition) (s : Nat) : Prop :=
  g.isAssign d.2 = true ∧ (d.2, d.1) ∈ g.modifies.pairs ∧
    (s = d.2 ∨ ∃ inner, g.IsPath (d.2 :: inner ++ [s]) ∧ ∀ t ∈ inner ++ [s], ¬g.Kills t d.1)

theorem Carried.exists_path {d : Definition} {s t : Nat} (h : g.Carried d s)
    (hnext : (s, t) ∈ g.next.pairs) :
    ∃ inner, g.IsPath (d.2 :: inner ++ [t]) ∧ ∀ u ∈ inner, ¬g.Kills u d.1 := by
  obtain ⟨-, -, rfl | ⟨inner, hpath, hinner⟩⟩ := h
  · exact ⟨[], .cons_cons hnext (List.isChain_singleton t), nofun⟩
  · exact ⟨inner ++ [s], hpath.append hnext, hinner⟩

end FlowGraph

namespace Propagation

variable {g : FlowGraph}

/-- What every visit preserves holds when the queue is empty. -/
theorem exists_run {P : Propagation g → Prop}
    (hvisit : ∀ (p : Propagation g) (s : Nat) (rest : List Nat) (hqueue : p.queue = s :: rest),
      P p → P (p.visit s rest hqueue))
    (p : Propagation g) (hp : P p) : ∃ q : Propagation g, q.queue = [] ∧ q.found = p.run ∧ P q := by
  fun_induction run p with
  | case1 p hqueue => exact ⟨p, hqueue, rfl, hp⟩
  | case2 p s rest hqueue ih => exact ih (hvisit p s rest hqueue hp)

/-- What a visit finds to leave a statement: the same as before, or at the statement visited what
is passed on. -/
theorem leaving_visit (p : Propagation g) (s : Nat) (rest : List Nat) (hqueue : p.queue = s :: rest)
    (t : Nat) : g.leaving (p.visit s rest hqueue).found t =
      if s = t then p.visited s else g.leaving p.found t := by
  rw [visit]
  split
  · rename_i hsame
    dsimp only
    split
    · rename_i heq
      exact heq ▸ hsame.symm
    · rfl
  · exact g.leaving_insert p.found s t (p.visited s)

/-- Whatever has been found is carried by a path. -/
def Sound (p : Propagation g) : Prop :=
  ∀ s, ∀ d ∈ g.leaving p.found s, g.Carried d s

/-- A statement that is not queued needs no visit. -/
def Settled (p : Propagation g) : Prop :=
  ∀ s ∈ g.statements, s ∉ p.queue → g.leaving p.found s = p.visited s

theorem carried_of_mem_generated {s : Nat} {d : Definition} (h : d ∈ g.generated s) :
    g.Carried d s := by
  obtain ⟨hassign, hmodifies, heq⟩ := FlowGraph.mem_generated.mp h
  exact ⟨hassign, hmodifies, .inl heq.symm⟩

theorem sound_initial : (initial g).Sound := by
  intro s d hd
  rw [FlowGraph.leaving, initial, Std.TreeMap.getD_emptyc] at hd
  rcases FlowGraph.mem_passed.mp hd with ⟨h, -⟩ | h
  · cases h
  · exact carried_of_mem_generated h

theorem Sound.exists_path {p : Propagation g} (h : p.Sound) {s : Nat} {d : Definition}
    (hd : d ∈ g.arriving p.found s) :
    g.isAssign d.2 = true ∧ (d.2, d.1) ∈ g.modifies.pairs ∧
      ∃ inner, g.IsPath (d.2 :: inner ++ [s]) ∧ ∀ t ∈ inner, ¬g.Kills t d.1 := by
  obtain ⟨q, hnext, hq⟩ := FlowGraph.mem_arriving.mp hd
  have hcarried := h q d hq
  exact ⟨hcarried.1, hcarried.2.1, hcarried.exists_path hnext⟩

theorem Sound.visit {p : Propagation g} (h : p.Sound) (s : Nat) (rest : List Nat)
    (hqueue : p.queue = s :: rest) : (p.visit s rest hqueue).Sound := by
  intro t d hd
  rw [leaving_visit] at hd
  split at hd
  · rename_i heq
    subst heq
    rcases FlowGraph.mem_passed.mp hd with ⟨harriving, hchanges⟩ | hgenerated
    · obtain ⟨hassign, hmodifies, inner, hpath, hinner⟩ := h.exists_path harriving
      refine ⟨hassign, hmodifies, .inr ⟨inner, hpath, fun u hu => ?_⟩⟩
      rcases List.mem_append.mp hu with hu | hu
      · exact hinner u hu
      · rw [List.mem_singleton.mp hu, ← FlowGraph.changes_iff, hchanges]
        exact Bool.false_ne_true
    · exact carried_of_mem_generated hgenerated
  · exact h t d hd

theorem settled_initial : (initial g).Settled :=
  fun _ hs hnot => absurd hs hnot

/-- A statement that is not queued after a visit was not queued before it either, or it is the one
that has been visited. -/
theorem not_mem_queue_of_visit (p : Propagation g) {s t : Nat} {rest : List Nat}
    (hqueue : p.queue = s :: rest) (hnot : t ∉ (p.visit s rest hqueue).queue) (hne : s ≠ t) :
    t ∉ p.queue := by
  have hrest : t ∉ rest := by
    intro ht
    rw [visit] at hnot
    split at hnot
    · exact hnot ht
    · exact hnot (List.mem_append_left _ ht)
  simp [hqueue, hrest, hne.symm]

/-- A visit changes what arrives at a statement only if it queues that statement. -/
theorem arriving_visit (p : Propagation g) {s t : Nat} {rest : List Nat}
    (hqueue : p.queue = s :: rest) (hnot : t ∉ (p.visit s rest hqueue).queue) :
    g.arriving (p.visit s rest hqueue).found t = g.arriving p.found t := by
  refine List.flatMap_congr fun q hq => ?_
  rw [leaving_visit]
  split
  · rename_i heq
    subst heq
    -- the visited statement comes before this one, so its visit has found nothing
    by_cases hsame : p.visited s = g.leaving p.found s
    · exact hsame
    · have hqueue' : (p.visit s rest hqueue).queue = rest ++ g.next.image s := by
        rw [visit, if_neg hsame]
      have hnext : t ∈ g.next.image s := FinRel.mem_image.mpr (FinRel.mem_preimage.mp hq)
      exact absurd (hqueue' ▸ List.mem_append_right rest hnext) hnot
  · rfl

theorem Settled.visit {p : Propagation g} (h : p.Settled) (s : Nat) (rest : List Nat)
    (hqueue : p.queue = s :: rest) : (p.visit s rest hqueue).Settled := by
  intro t ht hnot
  have hvisited : (p.visit s rest hqueue).visited t = p.visited t :=
    congrArg (g.passed t) (p.arriving_visit hqueue hnot)
  rw [leaving_visit, hvisited]
  split
  · rename_i heq
    rw [heq]
  · rename_i hne
    exact h t ht (p.not_mem_queue_of_visit hqueue hnot hne)

/-- Visits statements until the queue is empty, and notes at each visit what arrives. -/
def noting (p : Propagation g) (noted : Std.TreeMap Nat (List Definition)) :
    Std.TreeMap Nat (List Definition) :=
  match hqueue : p.queue with
  | [] => noted
  | s :: rest => (p.visit s rest hqueue).noting (noted.insert s (g.arriving p.found s))
termination_by p.measure
decreasing_by exact p.measure_visit_lt s rest hqueue

/-- What has been noted at a statement that is not queued is what arrives there. -/
def UpToDate (p : Propagation g) (noted : Std.TreeMap Nat (List Definition)) : Prop :=
  ∀ s ∈ g.statements, s ∉ p.queue → noted.getD s [] = g.arriving p.found s

theorem UpToDate.visit {p : Propagation g} {noted : Std.TreeMap Nat (List Definition)}
    (h : p.UpToDate noted) (s : Nat) (rest : List Nat) (hqueue : p.queue = s :: rest) :
    (p.visit s rest hqueue).UpToDate (noted.insert s (g.arriving p.found s)) := by
  intro t ht hnot
  rw [Std.TreeMap.getD_insert, p.arriving_visit hqueue hnot]
  split
  · rename_i heq
    rw [Std.LawfulEqCmp.eq_of_compare heq]
  · rename_i hne
    refine h t ht (p.not_mem_queue_of_visit hqueue hnot fun heq => hne ?_)
    exact heq ▸ Std.ReflCmp.compare_self

theorem run_of_queue_eq_nil {p : Propagation g} (hqueue : p.queue = []) : p.run = p.found := by
  rw [run]
  split
  · rfl
  · simp_all

theorem run_of_queue_eq_cons {p : Propagation g} {s : Nat} {rest : List Nat}
    (hqueue : p.queue = s :: rest) : p.run = (p.visit s rest hqueue).run := by
  rw [run]
  split
  · simp_all
  · rename_i hqueue'
    obtain ⟨rfl, rfl⟩ := List.cons.inj (hqueue'.symm.trans hqueue)
    rfl

/-- What was noted at the last visit of a statement is what arrives there at the end. -/
theorem UpToDate.getD_noting {p : Propagation g} {noted : Std.TreeMap Nat (List Definition)}
    (h : p.UpToDate noted) {s : Nat} (hs : s ∈ g.statements) :
    (p.noting noted).getD s [] = g.arriving p.run s := by
  fun_induction noting p noted with
  | case1 p noted hqueue =>
    rw [run_of_queue_eq_nil hqueue]
    exact h s hs (by simp [hqueue])
  | case2 p noted t rest hqueue ih =>
    rw [run_of_queue_eq_cons hqueue]
    exact ih (h.visit t rest hqueue)

/-- A definition that leaves a statement arrives wherever a path leads without killing it. -/
theorem Settled.mem_arriving {p : Propagation g} (h : p.Settled) (hqueue : p.queue = [])
    {d : Definition} {s t : Nat} {inner : List Nat} (hd : d ∈ g.leaving p.found s)
    (hpath : g.IsPath (s :: inner ++ [t])) (hinner : ∀ u ∈ inner, u ∈ g.statements)
    (hkills : ∀ u ∈ inner, ¬g.Kills u d.1) : d ∈ g.arriving p.found t := by
  induction inner generalizing s with
  | nil =>
    obtain ⟨hnext, -⟩ := List.isChain_cons_cons.mp hpath
    exact FlowGraph.mem_arriving.mpr ⟨s, hnext, hd⟩
  | cons u inner ih =>
    obtain ⟨hnext, hrest⟩ := List.isChain_cons_cons.mp hpath
    -- the definition arrives at the next statement of the path and is passed on there
    have harriving : d ∈ g.arriving p.found u := FlowGraph.mem_arriving.mpr ⟨s, hnext, hd⟩
    have hchanges : g.changes u d.1 = false := by
      rw [← Bool.not_eq_true, FlowGraph.changes_iff]
      exact hkills u List.mem_cons_self
    have hleaving : d ∈ g.leaving p.found u := by
      rw [h u (hinner u List.mem_cons_self) (by simp [hqueue])]
      exact FlowGraph.mem_passed.mpr (.inl ⟨harriving, hchanges⟩)
    exact ih hleaving hrest (fun w hw => hinner w (List.mem_cons_of_mem u hw))
      (fun w hw => hkills w (List.mem_cons_of_mem u hw))

theorem mem_leaving_of_mem_generated (p : Propagation g) {s : Nat} {d : Definition}
    (h : d ∈ g.generated s) : d ∈ g.leaving p.found s := by
  obtain ⟨before, hbefore⟩ := p.shape s
  rw [hbefore]
  exact FlowGraph.mem_passed.mpr (.inr h)

end Propagation

namespace FlowGraph

variable {g : FlowGraph}

theorem IsPath.exists_next {s t : Nat} {path : List Nat} (h : g.IsPath (s :: path))
    (ht : t ∈ path) : ∃ u, (u, t) ∈ g.next.pairs := by
  induction path generalizing s with
  | nil => cases ht
  | cons u path ih =>
    obtain ⟨hnext, hrest⟩ := List.isChain_cons_cons.mp h
    rcases List.mem_cons.mp ht with rfl | ht
    · exact ⟨s, hnext⟩
    · exact ih hrest ht

/-- The definitions that arrive at a statement when the propagation has ended. -/
theorem mem_arriving_run
    (hnext : ∀ p ∈ g.next.pairs, p.1 ∈ g.statements ∧ p.2 ∈ g.statements)
    {d : Definition} {s : Nat} :
    d ∈ g.arriving (Propagation.initial g).run s ↔
      g.isAssign d.2 = true ∧ (d.2, d.1) ∈ g.modifies.pairs ∧
        ∃ inner, g.IsPath (d.2 :: inner ++ [s]) ∧ ∀ t ∈ inner, ¬g.Kills t d.1 := by
  obtain ⟨p, hqueue, hfound, hsound, hsettled⟩ := @Propagation.exists_run g
    (fun p => p.Sound ∧ p.Settled)
    (fun _ s rest hqueue h => ⟨h.1.visit s rest hqueue, h.2.visit s rest hqueue⟩)
    (Propagation.initial g) ⟨Propagation.sound_initial, Propagation.settled_initial⟩
  rw [← hfound]
  constructor
  · exact fun hd => hsound.exists_path hd
  · rintro ⟨hassign, hmodifies, inner, hpath, hinner⟩
    have hleaving := p.mem_leaving_of_mem_generated (mem_generated.mpr ⟨hassign, hmodifies, rfl⟩)
    refine hsettled.mem_arriving hqueue hleaving hpath (fun u hu => ?_) hinner
    obtain ⟨t, ht⟩ := IsPath.exists_next hpath (List.mem_append_left _ hu)
    exact (hnext _ ht).2

end FlowGraph

/-- Affects can be read off what was noted to arrive at the visits. -/
theorem affects_eq_ofPairs_noting (g : FlowGraph) :
    g.affects = .ofPairs ((g.statements.filter g.isAssign).flatMap fun b =>
      ((((Propagation.initial g).noting ∅).getD b []).filter fun d => d.1 ∈ g.uses.rights b).map
        fun d => (d.2, b)) := by
  have hinitial : (Propagation.initial g).UpToDate ∅ := fun _ hs hnot => absurd hs hnot
  refine congrArg FinRel.ofPairs (List.flatMap_congr fun b hb => ?_)
  rw [hinitial.getD_noting (List.mem_filter.mp hb).1]

/-- One assignment affects another exactly if the first modifies a variable that the other uses,
and a path of the control flow leads from the first to the other on which no assignment, read or
call in between modifies that variable. Which assignments affect another is the inverse. -/
theorem affects_iff_path {g : FlowGraph}
    (hnext : ∀ p ∈ g.next.pairs, p.1 ∈ g.statements ∧ p.2 ∈ g.statements) (a b : Nat) :
    (b ∈ g.affects.image a ↔
      kindAt? g.kinds a = some .assign ∧ kindAt? g.kinds b = some .assign ∧
        ∃ v, (a, v) ∈ g.modifies.pairs ∧ (b, v) ∈ g.uses.pairs ∧
          ∃ inner : List Nat, (a :: inner ++ [b]).IsChain (fun s t => (s, t) ∈ g.next.pairs) ∧
            ∀ s ∈ inner, ¬g.Kills s v) ∧
    (a ∈ g.affects.preimage b ↔ b ∈ g.affects.image a) := by
  refine ⟨?_, by rw [FinRel.mem_preimage, FinRel.mem_image]⟩
  have hassign : ∀ s, g.isAssign s = true ↔ kindAt? g.kinds s = some .assign :=
    fun s => decide_eq_true_iff
  rw [FinRel.mem_image, FlowGraph.affects]
  simp only [FinRel.ofPairs, List.mem_flatMap, List.mem_filter, List.mem_map, Prod.mk.injEq,
    decide_eq_true_eq, FinRel.mem_rights, FlowGraph.mem_arriving_run hnext]
  constructor
  · rintro ⟨b, ⟨-, hb⟩, ⟨v, a⟩, ⟨⟨ha, hmodifies, hpath⟩, huses⟩, rfl, rfl⟩
    exact ⟨(hassign _).mp ha, (hassign _).mp hb, v, hmodifies, huses, hpath⟩
  · rintro ⟨ha, hb, v, hmodifies, huses, hpath⟩
    have hb' := (hassign b).mpr hb
    exact ⟨b, ⟨FlowGraph.mem_statements_of_isAssign hb', hb'⟩, (v, a),
      ⟨⟨(hassign a).mpr ha, hmodifies, hpath⟩, huses⟩, rfl, rfl⟩

/-- The flow of values in `x = 1; while (y > 0) { x = x + 1; }`, by numbers. -/
def countingLoop : FlowGraph where
  kinds := #[.assign, .whileLoop, .assign]
  next := .ofPairs [(1, 2), (2, 3), (3, 2)]
  modifies := .ofPairs [(1, "x"), (2, "x"), (3, "x")]
  uses := .ofPairs [(2, "x"), (2, "y"), (3, "x")]

/-- Round a loop that modifies the variable itself, an assignment affects itself. -/
theorem affects_iff_path_countingLoop :
    (∀ p ∈ countingLoop.next.pairs,
      p.1 ∈ countingLoop.statements ∧ p.2 ∈ countingLoop.statements) ∧
    3 ∈ countingLoop.affects.image 3 := by
  have hnext : ∀ p ∈ countingLoop.next.pairs,
      p.1 ∈ countingLoop.statements ∧ p.2 ∈ countingLoop.statements := by
    decide
  refine ⟨hnext, (affects_iff_path hnext 3 3).1.mpr ⟨rfl, rfl, "x", by decide, by decide, [2], ?_⟩⟩
  refine ⟨by decide, fun s hs => ?_⟩
  rw [List.mem_singleton.mp hs]
  rintro ⟨⟨kind, hkind, hloop⟩, -⟩
  have hwhile : kind = .whileLoop := (Option.some.inj hloop).symm
  exact absurd (hwhile ▸ hkind) (by decide)

end ProgramQuery
