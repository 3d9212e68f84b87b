import Mathlib.Logic.Relation
import ProgramQuery.Proofs.TreePosition

/-!
# Loops of the control flow

Control comes back to a statement only by a loop of the program text. Inside a loop every statement
is passed through: control gets there from the head of the loop, whatever branchings and loops are
on the way, and from there back to the head. Conversely an edge of the control flow goes on to a
later place of the text, unless it leads from the end of a loop's body back to the head. So a way
that comes back to where it was has passed the head of a loop that is around it.

## Main definitions

- `Node.IsTraversed`: control comes to all of some statements, and from all of them it goes on.
- `Node.Steps`: where an edge of the control flow can lead.

## Main statements

- `Node.IsStatement.isPassable`: control passes through all statements inside a statement.
- `Node.IsProgram.steps_of_mem_controlFlow`: all edges are of one of three kinds.
- `Node.lt_or_exists_loop`: a way goes to a later place, or to or past the head of a loop
  around its start.
- `next_star_self_iff_loop`: a statement comes after itself if it is a loop or inside a loop.
-/

namespace ProgramQuery

open Relation

namespace Node

variable {good : Token → Prop}

/-! ## Passing through a statement -/

/-- Control comes from the start to all of the places, and from all of them to the continuation. -/
def IsTraversed (r : Path → Path → Prop) (start : Path) (next : Option Path)
    (places : List Path) : Prop :=
  ∀ q ∈ places, ReflTransGen r start q ∧ ∀ c ∈ next, TransGen r q c

/-- Control passes through a node, wherever the node stands and whatever comes after it. -/
def IsPassable (r : Path → Path → Prop) (n : Node) : Prop :=
  ∀ path next, (∀ e ∈ flow path next n, r e.1 e.2) →
    IsTraversed r path next (collect ownPath path n)

section Passing

variable {r : Path → Path → Prop}

theorem IsStatement.mem_collect_ownPath {n : Node} (h : n.IsStatement good) (path : Path) :
    path ∈ collect ownPath path n := by
  refine mem_collect.mpr ⟨[], n, rfl, ?_⟩
  rw [List.append_nil, ownPath, if_pos h.isStatement_kind]
  exact List.mem_singleton_self path

theorem isTraversed_singleton {path : Path} {next : Option Path}
    (hr : ∀ e ∈ exits path next, r e.1 e.2) : IsTraversed r path next [path] := by
  intro q hq
  obtain rfl := List.mem_singleton.mp hq
  refine ⟨.refl, fun c hc => .single (hr (q, c) ?_)⟩
  exact List.mem_map.mpr ⟨c, Option.mem_toList.mpr hc, rfl⟩

/-- Control passes through a block from its first statement to its last. -/
theorem isTraversed_flowFrom {path : Path} {next : Option Path} {i : Nat} {ns : List Node}
    (hstatements : ∀ s ∈ ns, s.IsStatement good) (hns : ∀ s ∈ ns, IsPassable r s)
    (hr : ∀ e ∈ flowFrom path next i ns, r e.1 e.2) :
    IsTraversed r (path ++ [i]) next (collectFrom ownPath path i ns) := by
  induction ns generalizing i with
  | nil => exact nofun
  | cons n ns ih =>
    have hfirst := hns n List.mem_cons_self _ _ fun e he => hr e (List.mem_append_left _ he)
    have hrest := ih (fun s hs => hstatements s (List.mem_cons_of_mem n hs))
      (fun s hs => hns s (List.mem_cons_of_mem n hs)) fun e he => hr e (List.mem_append_right _ he)
    rw [collectFrom_cons]
    by_cases hempty : ns = []
    · subst hempty
      rw [collectFrom_nil, List.append_nil]
      exact hfirst
    · rw [if_neg (by simpa using hempty)] at hfirst
      have hsibling : path ++ [i + 1] ∈ collectFrom ownPath path (i + 1) ns :=
        first_mem_collectFrom hempty fun s hs => hstatements s (List.mem_cons_of_mem n hs)
      have hself := (hstatements n List.mem_cons_self).mem_collect_ownPath (path ++ [i])
      -- from the first statement control goes on to its sibling, where the rest starts
      intro q hq
      rcases List.mem_append.mp hq with hq | hq
      · obtain ⟨hstart, hnext⟩ := hfirst q hq
        exact ⟨hstart, fun c hc => (hnext _ rfl).trans ((hrest _ hsibling).2 c hc)⟩
      · obtain ⟨hstart, hnext⟩ := hrest q hq
        exact ⟨((hfirst _ hself).2 _ rfl).to_reflTransGen.trans hstart, hnext⟩

theorem isTraversed_block {path : Path} {next : Option Path} {i : Nat} {body : List Node}
    (hbody : ∀ s ∈ body, s.IsStatement good) (hpass : ∀ s ∈ body, IsPassable r s)
    (hr : ∀ e ∈ flowFrom (path ++ [i]) next 0 body, r e.1 e.2) :
    IsTraversed r (path ++ [i, 0]) next (collectFrom ownPath (path ++ [i]) 0 body) := by
  have hblock := isTraversed_flowFrom hbody hpass hr
  rwa [List.append_assoc] at hblock

theorem first_mem_block {path : Path} {i : Nat} {body : List Node} (hne : body ≠ [])
    (hbody : ∀ s ∈ body, s.IsStatement good) :
    path ++ [i, 0] ∈ collectFrom ownPath (path ++ [i]) 0 body := by
  have hfirst : path ++ [i] ++ [0] ∈ collectFrom ownPath (path ++ [i]) 0 body :=
    first_mem_collectFrom hne hbody
  rwa [List.append_assoc] at hfirst

/-- From the head of a loop control comes to all that is in the loop, and back. -/
theorem transGen_whileLoop {path : Path} {next : Option Path} {line : Option Nat} {blockLine : Nat}
    {condition : Node} {body : List Node} (hcondition : condition.IsCondition good)
    (hne : body ≠ []) (hbody : ∀ s ∈ body, s.IsStatement good)
    (hpass : ∀ s ∈ body, IsPassable r s)
    (hr : ∀ e ∈ flow path next ⟨.whileLoop, line, "", "", [condition, block blockLine body]⟩,
      r e.1 e.2) {q : Path}
    (hq : q ∈ collect ownPath path
      ⟨.whileLoop, line, "", "", [condition, block blockLine body]⟩) :
    TransGen r path q ∧ TransGen r q path := by
  simp only [flow, flowBlock, block, List.mem_append, List.mem_cons] at hr
  have hinside := isTraversed_block hbody hpass fun e he => hr e (.inr he)
  have henter : r path (path ++ [1, 0]) := hr (path, path ++ [1, 0]) (.inl (.inl rfl))
  have hback := (hinside _ (first_mem_block hne hbody)).2 path rfl
  rw [collect_whileLoop ownPath_eq_nil _ _ _ hcondition, collect_block] at hq
  rcases List.mem_append.mp hq with hq | hq
  · obtain rfl : q = path := List.mem_singleton.mp hq
    exact ⟨.head henter hback, .head henter hback⟩
  · obtain ⟨hstart, hnext⟩ := hinside q hq
    exact ⟨.head' henter hstart, hnext path rfl⟩

/-- Control passes through all statements inside a statement. -/
theorem IsStatement.isPassable {n : Node} (h : n.IsStatement good) : IsPassable r n := by
  induction h with
  | @named kind line t hkind htoken hname =>
    intro path next hr
    rw [collect_named ownPath_eq_nil _ _ _ htoken hname]
    cases kind <;> simp at hkind
    all_goals exact isTraversed_singleton (by simpa only [flow] using hr)
  | assign htoken hname hvalue =>
    intro path next hr
    rw [collect_assign ownPath_eq_nil _ _ htoken hname hvalue]
    exact isTraversed_singleton (by simpa only [flow] using hr)
  | whileLoop hcondition hne hbody ih =>
    intro path next hr q hq
    obtain ⟨hstart, hback⟩ := transGen_whileLoop hcondition hne hbody ih hr hq
    refine ⟨hstart.to_reflTransGen, fun c hc => hback.tail (hr (path, c) ?_)⟩
    simp only [flow, List.mem_append, List.mem_cons]
    exact .inl (.inr (List.mem_map.mpr ⟨c, Option.mem_toList.mpr hc, rfl⟩))
  | ifElse hcondition hne hne' haccepted hrefused ih ih' =>
    intro path next hr
    rw [collect_ifElse ownPath_eq_nil _ _ _ _ hcondition, collect_block, collect_block]
    simp only [flow, flowBlock, block, List.mem_append, List.mem_cons, List.not_mem_nil,
      or_false] at hr
    have hfirst := isTraversed_block haccepted ih fun e he => hr e (.inr (.inl he))
    have hsecond := isTraversed_block hrefused ih' fun e he => hr e (.inr (.inr he))
    have henter : r path (path ++ [1, 0]) := hr (path, path ++ [1, 0]) (.inl (.inl rfl))
    have henter' : r path (path ++ [2, 0]) := hr (path, path ++ [2, 0]) (.inl (.inr rfl))
    intro q hq
    rcases List.mem_append.mp hq with hq | hq
    · obtain rfl : q = path := List.mem_singleton.mp hq
      refine ⟨.refl, fun c hc => ?_⟩
      exact .head henter ((hfirst _ (first_mem_block hne haccepted)).2 c hc)
    · rcases List.mem_append.mp hq with hq | hq
      · exact ⟨(hfirst q hq).1.head henter, (hfirst q hq).2⟩
      · exact ⟨(hsecond q hq).1.head henter', (hsecond q hq).2⟩

end Passing

/-! ## Statements inside a program -/

theorem exists_flow_subset_flowFrom (path : Path) (next : Option Path) (i : Nat) {j : Nat}
    {ns : List Node} {s : Node} (hs : ns[j]? = some s) :
    ∃ next', ∀ e ∈ flow (path ++ [i + j]) next' s, e ∈ flowFrom path next i ns := by
  induction ns generalizing i j with
  | nil => cases hs
  | cons n ns ih =>
    cases j with
    | zero =>
      obtain rfl := Option.some.inj hs
      exact ⟨_, fun e he => List.mem_append_left _ he⟩
    | succ j =>
      obtain ⟨next', hsubset⟩ := ih (i + 1) hs
      rw [Nat.add_right_comm, Nat.add_assoc] at hsubset
      exact ⟨next', fun e he => List.mem_append_right _ (hsubset e he)⟩

theorem flowBlock_eq (path : Path) (next : Option Path) (n : Node) :
    flowBlock path next n = flowFrom path next 0 n.children := by
  obtain ⟨kind, line, name, constant, children⟩ := n
  rw [flowBlock]

theorem IsStatement.exists_flowBlock_subset {n body : Node} {i : Nat} (h : n.IsStatement good)
    (hkind : n.kind.isContainer = true) (hi : 1 ≤ i) (hbody : n.children[i]? = some body)
    (path : Path) (next : Option Path) :
    ∃ next', ∀ e ∈ flowBlock (path ++ [i]) next' body, e ∈ flow path next n := by
  cases h with
  | @named kind _ _ hnamed => cases kind <;> simp [NodeKind.isContainer] at hkind hnamed
  | assign => cases hkind
  | whileLoop =>
    rcases i with _ | _ | i
    · cases hi
    · obtain rfl := Option.some.inj hbody
      exact ⟨some path, fun e he => List.mem_append_right _ he⟩
    · cases hbody
  | ifElse =>
    rcases i with _ | _ | _ | i
    · cases hi
    · obtain rfl := Option.some.inj hbody
      exact ⟨next, fun e he => List.mem_append_right _ (List.mem_append_left _ he)⟩
    · obtain rfl := Option.some.inj hbody
      exact ⟨next, fun e he => List.mem_append_right _ (List.mem_append_right _ he)⟩
    · cases hbody

/-- What is inside a statement has the edges of its own control flow. -/
theorem IsStatement.exists_flow_subset {n m : Node} {rest : Path} (h : n.IsStatement good)
    (hat : n.at? rest = some m) (hm : m.kind.isStatement = true) (path : Path)
    (next : Option Path) :
    ∃ next', ∀ e ∈ flow (path ++ rest) next' m, e ∈ flow path next n := by
  cases rest with
  | nil =>
    obtain rfl := Option.some.inj hat
    rw [List.append_nil]
    exact ⟨next, fun e he => he⟩
  | cons i rest =>
    obtain ⟨hkind, hi, body, hbody, j, rest, s, rfl, hs, hstatement, hat⟩ := h.exists_of_at? hat hm
    obtain ⟨nextBlock, hblock⟩ := h.exists_flowBlock_subset hkind hi hbody path next
    rw [flowBlock_eq] at hblock
    obtain ⟨nextStatement, hs⟩ := exists_flow_subset_flowFrom (path ++ [i]) nextBlock 0 hs
    obtain ⟨next', hinner⟩ :=
      hstatement.exists_flow_subset hat hm (path ++ [i] ++ [0 + j]) nextStatement
    refine ⟨next', fun e he => hblock e (hs e (hinner e ?_))⟩
    simpa using he
termination_by rest.length

theorem flowBlock_subset_flowOfProcedures {i j : Nat} {procedures : List Node}
    {procedure body : Node} (hprocedure : procedures[j]? = some procedure)
    (hbody : procedure.children.head? = some body) {e : Path × Path}
    (he : e ∈ flowBlock [i + j, 0] none body) : e ∈ flowOfProcedures i procedures := by
  induction procedures generalizing i j with
  | nil => cases hprocedure
  | cons first procedures ih =>
    cases j with
    | zero =>
      obtain rfl := Option.some.inj hprocedure
      rw [flowOfProcedures, hbody]
      exact List.mem_append_left _ he
    | succ j =>
      refine List.mem_append_right _ (ih (i := i + 1) hprocedure ?_)
      rwa [Nat.add_right_comm, Nat.add_assoc]

/-- Every statement of a program has the edges of its own control flow. -/
theorem IsProgram.exists_flow_subset {tree m : Node} {path : Path} (h : tree.IsProgram good)
    (hat : tree.at? path = some m) (hm : m.kind.isStatement = true) :
    ∃ next, ∀ e ∈ flow path next m, e ∈ tree.controlFlow := by
  obtain ⟨i, procedure, line, body, hprocedure, hchildren, j, rest, s, rfl, hs, hstatement, hat⟩ :=
    h.exists_of_at? hat hm
  obtain ⟨nextStatement, hbody⟩ := exists_flow_subset_flowFrom [0 + i, 0] none 0 hs
  obtain ⟨next, hinner⟩ := hstatement.exists_flow_subset hat hm ([0 + i, 0] ++ [0 + j])
    nextStatement
  have hhead : procedure.children.head? = some (block line body) := by
    rw [hchildren]
    rfl
  refine ⟨next, fun e he => flowBlock_subset_flowOfProcedures hprocedure hhead ?_⟩
  rw [flowBlock_eq]
  exact hbody e (hinner e (by simpa using he))

/-! ## Where edges lead -/

/-- Where an edge of the control flow can lead: into a block, on to a statement after this one or
after one around it, or back to the head of a loop around it. -/
inductive Steps (tree : Node) : Path → Path → Prop where
  | enter (p : Path) (i : Nat) : Steps tree p (p ++ [i, 0])
  | advance (p : Path) (i : Nat) (rest : Path) : Steps tree (p ++ i :: rest) (p ++ [i + 1])
  | back {p : Path} {m : Node} (hat : tree.at? p = some m) (hkind : m.kind = .whileLoop)
      (i : Nat) (rest : Path) : Steps tree (p ++ i :: rest) p

/-- The source of the edge is at a place or below it, and the edge leads to the continuation or
is a step. -/
def StepsFrom (tree : Node) (path : Path) (next : Option Path) (e : Path × Path) : Prop :=
  path <+: e.1 ∧ (next = some e.2 ∨ tree.Steps e.1 e.2)

theorem steps_of_mem_flowFrom {tree : Node} {path : Path} {next : Option Path} {i : Nat}
    {ns : List Node} {e : Path × Path}
    (hns : ∀ j s, ns[j]? = some s → ∀ next, e ∈ flow (path ++ [i + j]) next s →
      tree.StepsFrom (path ++ [i + j]) next e)
    (he : e ∈ flowFrom path next i ns) :
    ∃ j, path ++ [j] <+: e.1 ∧ (next = some e.2 ∨ tree.Steps e.1 e.2) := by
  induction ns generalizing i with
  | nil => cases he
  | cons n ns ih =>
    rcases List.mem_append.mp he with he | he
    · obtain ⟨hsource, hstep⟩ := hns 0 n rfl _ he
      refine ⟨i, hsource, ?_⟩
      rcases hstep with hnext | hstep
      · by_cases hempty : ns = []
        · subst hempty
          exact .inl hnext
        · -- what the statement continues with is its sibling
          rw [if_neg (by simpa using hempty)] at hnext
          obtain ⟨rest, hrest⟩ := hsource
          refine .inr ?_
          rw [← hrest, ← Option.some.inj hnext, List.append_assoc]
          exact .advance path i rest
      · exact .inr hstep
    · refine ih (fun j s hs next hflow => ?_) he
      have hstep := hns (j + 1) s hs next
      rw [Nat.add_right_comm, Nat.add_assoc] at hflow ⊢
      exact hstep hflow

theorem stepsFrom_of_mem_exits {tree : Node} {path : Path} {next : Option Path} {e : Path × Path}
    (he : e ∈ exits path next) : tree.StepsFrom path next e := by
  obtain ⟨q, hq, rfl⟩ := List.mem_map.mp he
  exact ⟨List.prefix_rfl, .inl (Option.mem_toList.mp hq)⟩

theorem steps_of_mem_block {tree n : Node} {path : Path} {next : Option Path} {i line : Nat}
    {body : List Node} {e : Path × Path} (hat : tree.at? path = some n)
    (hblock : n.children[i]? = some (block line body))
    (hbody : ∀ s ∈ body, ∀ {path : Path} {next : Option Path}, tree.at? path = some s →
      e ∈ flow path next s → tree.StepsFrom path next e)
    (he : e ∈ flowFrom (path ++ [i]) next 0 body) :
    ∃ rest, e.1 = path ++ i :: rest ∧ (next = some e.2 ∨ tree.Steps e.1 e.2) := by
  have hat' : tree.at? (path ++ [i]) = some (block line body) :=
    at?_concat_eq_some_iff.mpr ⟨n, hat, hblock⟩
  obtain ⟨j, ⟨rest, hrest⟩, hstep⟩ := steps_of_mem_flowFrom (fun j s hs next hflow => by
    rw [Nat.zero_add] at hflow ⊢
    exact hbody s (List.mem_of_getElem? hs) (at?_concat_eq_some_iff.mpr ⟨_, hat', hs⟩) hflow) he
  exact ⟨j :: rest, by rw [← hrest]; simp, hstep⟩

theorem IsStatement.stepsFrom_of_mem_flow {tree n : Node} {path : Path} {next : Option Path}
    {e : Path × Path} (h : n.IsStatement good) (hat : tree.at? path = some n)
    (he : e ∈ flow path next n) : tree.StepsFrom path next e := by
  induction h generalizing path next with
  | @named kind _ _ hkind =>
    cases kind <;> simp at hkind
    all_goals exact stepsFrom_of_mem_exits (by simpa only [flow] using he)
  | assign => exact stepsFrom_of_mem_exits (by simpa only [flow] using he)
  | whileLoop hcondition hne hbody ih =>
    simp only [flow, flowBlock, block, List.mem_append, List.mem_cons] at he
    rcases he with (rfl | he) | he
    · exact ⟨List.prefix_rfl, .inr (.enter path 1)⟩
    · exact stepsFrom_of_mem_exits he
    · -- what the body continues with is the head of the loop
      obtain ⟨rest, hsource, hstep⟩ := steps_of_mem_block (i := 1) hat rfl ih he
      refine ⟨⟨1 :: rest, hsource.symm⟩, .inr ?_⟩
      rcases hstep with hnext | hstep
      · rw [hsource, ← Option.some.inj hnext]
        exact .back hat rfl 1 rest
      · exact hstep
  | ifElse hcondition hne hne' haccepted hrefused ih ih' =>
    simp only [flow, flowBlock, block, List.mem_append, List.mem_cons, List.not_mem_nil,
      or_false] at he
    rcases he with (rfl | rfl) | he | he
    · exact ⟨List.prefix_rfl, .inr (.enter path 1)⟩
    · exact ⟨List.prefix_rfl, .inr (.enter path 2)⟩
    · obtain ⟨rest, hsource, hstep⟩ := steps_of_mem_block (i := 1) hat rfl ih he
      exact ⟨⟨1 :: rest, hsource.symm⟩, hstep⟩
    · obtain ⟨rest, hsource, hstep⟩ := steps_of_mem_block (i := 2) hat rfl ih' he
      exact ⟨⟨2 :: rest, hsource.symm⟩, hstep⟩

theorem steps_of_mem_flowOfProcedures {tree : Node} {i : Nat} {procedures : List Node}
    {e : Path × Path} (h : ∀ p ∈ procedures, p.IsProcedure good)
    (hat : ∀ j p, procedures[j]? = some p → tree.at? [i + j] = some p)
    (he : e ∈ flowOfProcedures i procedures) : tree.Steps e.1 e.2 := by
  induction procedures generalizing i with
  | nil => cases he
  | cons procedure procedures ih =>
    rcases List.mem_append.mp he with he | he
    · have hprocedure := hat 0 procedure rfl
      obtain ⟨-, -, -, hbody⟩ := h procedure List.mem_cons_self
      obtain ⟨-, -, hnext | hstep⟩ := steps_of_mem_block (i := 0) hprocedure rfl
        (fun s hs _ _ => (hbody s hs).stepsFrom_of_mem_flow) he
      · cases hnext
      · exact hstep
    · refine ih (fun p hp => h p (List.mem_cons_of_mem _ hp)) (fun j p hp => ?_) he
      rw [Nat.add_right_comm, Nat.add_assoc]
      exact hat (j + 1) p hp

/-- An edge of the control flow leads into a block, on, or back to the head of a loop. -/
theorem IsProgram.steps_of_mem_controlFlow {tree : Node} (h : tree.IsProgram good)
    {e : Path × Path} (he : e ∈ tree.controlFlow) : tree.Steps e.1 e.2 := by
  obtain ⟨-, hprocedures⟩ := h
  refine steps_of_mem_flowOfProcedures hprocedures (fun j p hp => ?_) he
  rw [Nat.zero_add, at?, hp]
  rfl

/-! ## Coming back -/

/-- A place that is not before the head of a loop and not after something in the loop is in the
loop. -/
theorem prefix_of_not_lt {p q rest : Path} (hp : ¬q < p) (hq : ¬p ++ rest < q) : p <+: q := by
  induction p generalizing q with
  | nil => exact List.nil_prefix
  | cons i p ih =>
    cases q with
    | nil => exact absurd (List.nil_lt_cons i p) hp
    | cons j q =>
      rw [List.cons_lt_cons_iff, not_or] at hp
      rw [List.cons_append, List.cons_lt_cons_iff, not_or] at hq
      obtain rfl : i = j := by omega
      refine List.cons_prefix_cons.mpr ⟨rfl, ih (fun h => hp.2 ⟨rfl, h⟩) fun h => hq.2 ⟨rfl, h⟩⟩

theorem Steps.lt_or_back {tree : Node} {p q : Path} (h : tree.Steps p q) :
    p < q ∨ q <+: p ∧ ∃ m, tree.at? q = some m ∧ m.kind = .whileLoop := by
  cases h with
  | enter _ i =>
    left
    have hlt : p ++ [] < p ++ [i, 0] := List.append_left_lt (List.nil_lt_cons i [0])
    rwa [List.append_nil] at hlt
  | advance p i rest =>
    exact .inl (List.append_left_lt (List.cons_lt_cons_iff.mpr (.inl (Nat.lt_succ_self i))))
  | back hat hkind i rest => exact .inr ⟨List.prefix_append _ _, _, hat, hkind⟩

/-- A way through the control flow ends at a later place than it starts, or it has passed the head
of a loop around its start and does not end before that. -/
theorem lt_or_exists_loop {tree : Node} {p q : Path} (h : TransGen tree.Steps p q) :
    p < q ∨ ∃ w, w <+: p ∧ ¬q < w ∧ ∃ m, tree.at? w = some m ∧ m.kind = .whileLoop := by
  induction h with
  | single hstep =>
    rcases hstep.lt_or_back with hlt | ⟨haround, hloop⟩
    · exact .inl hlt
    · exact .inr ⟨_, haround, lt_irrefl _, hloop⟩
  | @tail b c _ hstep ih =>
    rcases hstep.lt_or_back with hlt | ⟨⟨rest, rfl⟩, hloop⟩
    · rcases ih with hpb | ⟨w, haround, hwb, hw⟩
      · exact .inl (hpb.trans hlt)
      · exact .inr ⟨w, haround, fun hcw => hwb (hlt.trans hcw), hw⟩
    · -- the step back is to `c`, and whatever is not before `c` but before the step is inside `c`
      rcases ih with hpb | ⟨w, haround, hwb, hw⟩
      · by_cases hpc : p < c
        · exact .inl hpc
        · exact .inr ⟨c, prefix_of_not_lt hpc hpb.asymm, lt_irrefl c, hloop⟩
      · by_cases hcw : c < w
        · exact .inr ⟨c, (prefix_of_not_lt hcw.asymm hwb).trans haround, lt_irrefl c, hloop⟩
        · exact .inr ⟨w, haround, hcw, hw⟩

section Program

variable {tree : Node} (h : tree.IsProgram good)

include h

/-- Control comes back to the statements in loops, the heads of the loops among them. -/
theorem IsProgram.transGen_self_iff {path : Path} {m : Node} (hat : tree.at? path = some m)
    (hm : m.kind.isStatement = true) :
    TransGen (fun p q => (p, q) ∈ tree.controlFlow) path path ↔
      ∃ w n, w <+: path ∧ tree.at? w = some n ∧ n.kind = .whileLoop := by
  constructor
  · intro hway
    have hsteps : TransGen tree.Steps path path :=
      TransGen.mono (fun p q hpq => h.steps_of_mem_controlFlow hpq) path path hway
    rcases lt_or_exists_loop hsteps with hlt | ⟨w, haround, -, n, hn, hkind⟩
    · exact absurd hlt (lt_irrefl path)
    · exact ⟨w, n, haround, hn, hkind⟩
  · rintro ⟨w, n, ⟨rest, rfl⟩, hn, hkind⟩
    have hstatement : n.kind.isStatement = true := by
      rw [hkind]
      rfl
    obtain ⟨next, hsubset⟩ := h.exists_flow_subset hn hstatement
    rw [at?_append, hn, Option.bind_some] at hat
    have hplace : w ++ rest ∈ collect ownPath w n := by
      refine mem_collect.mpr ⟨rest, m, hat, ?_⟩
      rw [ownPath, if_pos hm]
      exact List.mem_singleton_self _
    obtain ⟨line, blockLine, condition, body, rfl, hcondition, hne, hbody⟩ :=
      ((h.isWellFormed_of_at? hn).statement hstatement).exists_of_whileLoop hkind
    obtain ⟨hthere, hback⟩ := transGen_whileLoop (r := fun p q => (p, q) ∈ tree.controlFlow)
      hcondition hne hbody (fun s hs => (hbody s hs).isPassable) hsubset hplace
    exact hback.trans hthere

theorem IsProgram.transGen_successors_iff {a b : Nat} :
    TransGen (fun a b => (a, b) ∈ tree.successors.pairs) a b ↔
      ∃ p q, TransGen (fun p q => (p, q) ∈ tree.controlFlow) p q ∧
        (Numbering.ofTree tree).numberOf? p = some a ∧
        (Numbering.ofTree tree).numberOf? q = some b := by
  have hpairs {a b : Nat} (hab : (a, b) ∈ tree.successors.pairs) :
      ∃ p q, (p, q) ∈ tree.controlFlow ∧ (Numbering.ofTree tree).numberOf? p = some a ∧
        (Numbering.ofTree tree).numberOf? q = some b := by
    obtain ⟨⟨p, q⟩, hpq, heq⟩ := List.mem_map.mp ((mem_successors h).mp hab)
    obtain ⟨rfl, rfl⟩ := Prod.mk.inj heq
    exact ⟨p, q, hpq, h.exists_numberOf? hpq⟩
  constructor
  · intro hab
    induction hab with
    | single hab =>
      obtain ⟨p, q, hpq, hp, hq⟩ := hpairs hab
      exact ⟨p, q, .single hpq, hp, hq⟩
    | tail _ hbc ih =>
      obtain ⟨p, q, hpq, hp, hq⟩ := ih
      obtain ⟨q', t, hqt, hq', ht⟩ := hpairs hbc
      obtain rfl := Numbering.numberOf?_injective hq hq'
      exact ⟨p, t, hpq.tail hqt, hp, ht⟩
  · rintro ⟨p, q, hpq, hp, hq⟩
    have hnumbers : TransGen (fun a b => (a, b) ∈ tree.successors.pairs) (tree.numberAt p)
        (tree.numberAt q) := by
      refine TransGen.lift tree.numberAt (fun p q hpq => ?_) p q hpq
      exact (mem_successors h).mpr (List.mem_map.mpr ⟨(p, q), hpq, rfl⟩)
    rwa [numberAt_eq hp, numberAt_eq hq] at hnumbers

end Program

end Node

theorem Facts.IsStatement.exists_kindOf? {facts : Facts} {s : Nat} (h : facts.IsStatement s) :
    ∃ kind, facts.kindOf? s = some kind := by
  obtain ⟨hpos, hle⟩ := isStatement_iff.mp h
  cases s with
  | zero => omega
  | succ i => exact ⟨_, Array.getElem?_eq_getElem hle⟩

/-- The kind of a statement of a program is that of the node at its path. -/
theorem kindOf?_eq_some_iff {tree : Node} {order : List String} {s : Nat} {kind : NodeKind} :
    (Facts.gather tree order).kindOf? s = some kind ↔ ∃ path n,
      (Numbering.ofTree tree).numberOf? path = some s ∧ tree.at? path = some n ∧ n.kind = kind := by
  constructor
  · intro hs
    obtain ⟨st, hst, rfl, hkind⟩ := exists_of_kindOf? hs
    obtain ⟨hat, -, hnumber⟩ := Node.mem_statements.mp hst
    exact ⟨st.path, st.node, hnumber, hat, hkind⟩
  · rintro ⟨path, n, hnumber, hat, rfl⟩
    have hstatement : (Facts.gather tree order).IsStatement s := isStatement_of_numberOf? hnumber
    obtain ⟨kind, hs⟩ := hstatement.exists_kindOf?
    obtain ⟨st, hst, rfl, rfl⟩ := exists_of_kindOf? hs
    obtain ⟨hat', -, hnumber'⟩ := Node.mem_statements.mp hst
    obtain rfl := Numbering.numberOf?_injective hnumber hnumber'
    rw [hs, Option.some.inj (hat.symm.trans hat')]

/-- A statement can be executed again after itself if and only if it is a loop or inside a loop. -/
theorem next_star_self_iff_loop {source : String} {facts : Facts}
    (hfacts : Facts.ofSource source = .ok facts) (s : Nat) :
    s ∈ facts.next.after s true ↔ facts.kindOf? s = some .whileLoop ∨
      ∃ a ∈ facts.parent.before s true, facts.kindOf? a = some .whileLoop := by
  obtain ⟨ts, tree, order, hts, hparse, -, -, rfl⟩ := exists_of_ofSource hfacts
  have h := isProgram_of_parseProgram hparse (isLexical_of_tokenize hts)
  have hnext : (Facts.gather tree order).next = tree.successors := rfl
  have hparent : (Facts.gather tree order).parent = tree.parents := rfl
  rw [hnext, hparent, FinRel.mem_after]
  constructor
  · intro hself
    obtain ⟨p, q, hpq, hp, hq⟩ := h.transGen_successors_iff.mp hself
    obtain rfl := Numbering.numberOf?_injective hp hq
    obtain ⟨m, hat, hm⟩ := Numbering.exists_at?_of_numberOf? hp
    obtain ⟨w, n, ⟨rest, rfl⟩, hn, hkind⟩ := (h.transGen_self_iff hat hm).mp hpq
    by_cases hrest : rest = []
    · rw [hrest, List.append_nil] at hp
      exact .inl (kindOf?_eq_some_iff.mpr ⟨w, n, hp, hn, hkind⟩)
    · have hw := Node.numberOf?_eq_numberAt hn (by rw [hkind]; rfl)
      refine .inr ⟨tree.numberAt w, FinRel.mem_before.mpr ?_, ?_⟩
      · exact h.transGen_parents hw hp hrest
      · exact kindOf?_eq_some_iff.mpr ⟨w, n, hw, hn, hkind⟩
  · intro hloop
    obtain ⟨w, rest, n, hp, hn, hkind⟩ : ∃ w rest n,
        (Numbering.ofTree tree).numberOf? (w ++ rest) = some s ∧ tree.at? w = some n ∧
          n.kind = .whileLoop := by
      rcases hloop with hs | ⟨a, ha, hkind⟩
      · obtain ⟨w, n, hw, hn, hkind⟩ := kindOf?_eq_some_iff.mp hs
        exact ⟨w, [], n, by rwa [List.append_nil], hn, hkind⟩
      · obtain ⟨w, rest, hw, hp, -⟩ := h.transGen_parents_iff.mp (FinRel.mem_before.mp ha)
        obtain ⟨w', n, hw', hn, hkind⟩ := kindOf?_eq_some_iff.mp hkind
        obtain rfl := Numbering.numberOf?_injective hw hw'
        exact ⟨w, rest, n, hp, hn, hkind⟩
    obtain ⟨m, hat, hm⟩ := Numbering.exists_at?_of_numberOf? hp
    have hself := (h.transGen_self_iff hat hm).mpr ⟨w, n, List.prefix_append w rest, hn, hkind⟩
    exact h.transGen_successors_iff.mpr ⟨_, _, hself, hp, hp⟩

/-- Statement 5, in a branching in the loop that is statement 2, can be executed again. The last
statement, after the loop, cannot. -/
theorem next_star_self_iff_loop_branchingInLoop : ∃ facts,
    Facts.ofSource branchingInLoop = .ok facts ∧ facts.kindOf? 2 = some .whileLoop ∧
      facts.kindOf? 5 = some .assign ∧ facts.parent.before 5 true = [2, 3] ∧
      5 ∈ facts.next.after 5 true ∧ facts.kindOf? 7 = some .print ∧
      facts.parent.before 7 true = [] ∧ 7 ∉ facts.next.after 7 true := by
  have hrun : (do
      let facts ← (Facts.ofSource branchingInLoop).toOption
      return decide (facts.kindOf? 2 = some .whileLoop ∧ facts.kindOf? 5 = some .assign ∧
        facts.parent.before 5 true = [2, 3] ∧ facts.kindOf? 7 = some .print ∧
        facts.parent.before 7 true = [])) = some true := by
    decide +kernel
  obtain ⟨facts, hfacts, hrun⟩ := Option.bind_eq_some_iff.mp hrun
  obtain ⟨hloop, hassign, hinside, hprint, houtside⟩ := of_decide_eq_true (Option.some.inj hrun)
  have hfacts := eq_ok_of_toOption hfacts
  refine ⟨facts, hfacts, hloop, hassign, hinside, ?_, hprint, houtside, fun hself => ?_⟩
  · refine (next_star_self_iff_loop hfacts 5).mpr (.inr ⟨2, ?_, hloop⟩)
    rw [hinside]
    exact List.mem_cons_self
  · rcases (next_star_self_iff_loop hfacts 7).mp hself with hkind | ⟨a, ha, -⟩
    · rw [hprint] at hkind
      cases hkind
    · rw [houtside] at ha
      cases ha

end ProgramQuery
