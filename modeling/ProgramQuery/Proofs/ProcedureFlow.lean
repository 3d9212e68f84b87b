import Mathlib.Order.Bounds.Basic
import ProgramQuery.Proofs.LoopFlow

/-!
# The control flow of a procedure

Control enters a procedure at its first statement. From there it comes to every statement of the
procedure, whatever loops and branchings are around it. It does not get anywhere else: an edge
leads from a statement to one of the same procedure, as the only places that a step out of a
procedure could lead to are other procedures, and these are no statements.

## Main definitions

- `Node.procedureStatements`: the statements of one procedure of a program.

## Main statements

- `Node.IsProgram.head?_eq_of_mem_controlFlow`: an edge stays in its procedure.
- `Node.IsProgram.reflTransGen_first`: control comes to all statements from the first one.
- `procedure_eq_reached_from_first`: the statements of a procedure are its first one and those that
  come after it.
-/

namespace ProgramQuery

open Relation

namespace Node

/-- The numbers of the statements of the procedure that is child `i` of a program. -/
def procedureStatements (tree : Node) (i : Nat) : List Nat :=
  (tree.statements.filter fun s => s.path.head? = some i).map Statement.number

theorem mem_procedureStatements {tree : Node} {i s : Nat} : s ∈ tree.procedureStatements i ↔
    ∃ rest, (Numbering.ofTree tree).numberOf? (i :: rest) = some s := by
  rw [procedureStatements, List.mem_map]
  constructor
  · rintro ⟨st, hst, rfl⟩
    obtain ⟨hmem, hhead⟩ := List.mem_filter.mp hst
    obtain ⟨rest, hpath⟩ := List.head?_eq_some_iff.mp (of_decide_eq_true hhead)
    refine ⟨rest, ?_⟩
    rw [← hpath]
    exact (mem_statements.mp hmem).2.2
  · rintro ⟨rest, hs⟩
    obtain ⟨m, hat, hm⟩ := Numbering.exists_at?_of_numberOf? hs
    refine ⟨⟨s, i :: rest, m⟩, List.mem_filter.mpr ⟨?_, decide_eq_true rfl⟩, rfl⟩
    exact mem_statements.mpr ⟨hat, hm, hs⟩

section Program

variable {good : Token → Prop} {tree : Node} (h : tree.IsProgram good)

include h

/-- A procedure has a body with at least one statement. -/
theorem IsProgram.exists_body {i : Nat} {procedure : Node}
    (hprocedure : tree.children[i]? = some procedure) :
    ∃ line body, procedure.children = [block line body] ∧ body ≠ [] ∧
      ∀ s ∈ body, s.IsStatement good := by
  obtain ⟨-, hprocedures⟩ := h
  obtain ⟨-, -, hne, hbody⟩ := hprocedures procedure (List.mem_of_getElem? hprocedure)
  exact ⟨_, _, rfl, hne, hbody⟩

theorem IsProgram.exists_path {path : Path} {s : Nat}
    (hs : (Numbering.ofTree tree).numberOf? path = some s) :
    ∃ i procedure j rest, tree.children[i]? = some procedure ∧ path = i :: 0 :: j :: rest := by
  obtain ⟨m, hat, hm⟩ := Numbering.exists_at?_of_numberOf? hs
  obtain ⟨i, procedure, -, -, hprocedure, -, j, rest, -, hpath, -⟩ := h.exists_of_at? hat hm
  exact ⟨i, procedure, j, rest, hprocedure, hpath⟩

theorem IsProgram.two_lt_length {path : Path} {s : Nat}
    (hs : (Numbering.ofTree tree).numberOf? path = some s) : 2 < path.length := by
  obtain ⟨i, -, j, rest, -, rfl⟩ := h.exists_path hs
  simp only [List.length_cons]
  omega

/-! ## Staying in a procedure -/

/-- An edge of the control flow stays in its procedure. -/
theorem IsProgram.head?_eq_of_mem_controlFlow {p q : Path} (hpq : (p, q) ∈ tree.controlFlow) :
    q.head? = p.head? := by
  obtain ⟨hp, hq⟩ := h.exists_numberOf? hpq
  have hlength : 2 < p.length := h.two_lt_length hp
  have hlength' : 2 < q.length := h.two_lt_length hq
  have hstep : tree.Steps p q := h.steps_of_mem_controlFlow hpq
  cases hstep with
  | enter _ k => exact List.head?_append_of_ne_nil p (List.ne_nil_of_length_pos (by omega))
  | advance around k below =>
    cases around with
    | nil => exact absurd hlength' (by simp) -- the next procedure is no statement
    | cons k' around => rfl
  | back _ _ k below =>
    exact (List.head?_append_of_ne_nil q (List.ne_nil_of_length_pos (by omega))).symm

/-- Control does not leave a procedure. -/
theorem IsProgram.head?_eq_of_transGen {p q : Path}
    (hpq : TransGen (fun p q => (p, q) ∈ tree.controlFlow) p q) : q.head? = p.head? := by
  induction hpq with
  | single hstep => exact h.head?_eq_of_mem_controlFlow hstep
  | tail _ hstep ih => exact (h.head?_eq_of_mem_controlFlow hstep).trans ih

/-! ## Coming to all of a procedure -/

/-- Control comes to all statements of a procedure from the first one. -/
theorem IsProgram.reflTransGen_first {i s : Nat} {rest : Path}
    (hs : (Numbering.ofTree tree).numberOf? (i :: rest) = some s) :
    ReflTransGen (fun p q => (p, q) ∈ tree.controlFlow) [i, 0, 0] (i :: rest) := by
  obtain ⟨i, procedure, j, rest, hprocedure, hpath⟩ := h.exists_path hs
  obtain ⟨rfl, rfl⟩ := List.cons.inj hpath
  obtain ⟨line, body, hchildren, -, hbody⟩ := h.exists_body hprocedure
  have hflow : ∀ e ∈ flowFrom [i, 0] none 0 body, e ∈ tree.controlFlow := by
    intro e he
    refine flowBlock_subset_flowOfProcedures hprocedure (by rw [hchildren]; rfl) ?_
    rwa [flowBlock_eq, Nat.zero_add]
  have hall := isTraversed_flowFrom (r := fun p q => (p, q) ∈ tree.controlFlow) hbody
    (fun s hs => (hbody s hs).isPassable) hflow
  -- the places that the body contributes are those of its statements
  have hplace : i :: 0 :: j :: rest ∈ collect ownPath [i, 0] (block line body) := by
    obtain ⟨m, hat, hm⟩ := Numbering.exists_at?_of_numberOf? hs
    refine mem_collect.mpr ⟨j :: rest, m, ?_, ?_⟩
    · simpa [at?, hprocedure, hchildren] using hat
    · rw [ownPath, if_pos hm]
      exact List.mem_singleton_self _
  rw [collect_block] at hplace
  exact (hall _ hplace).1

/-- The body of a procedure starts with a statement. -/
theorem IsProgram.exists_first {i : Nat} {procedure : Node}
    (hprocedure : tree.children[i]? = some procedure) :
    ∃ f, (Numbering.ofTree tree).numberOf? [i, 0, 0] = some f := by
  obtain ⟨line, body, hchildren, hne, hbody⟩ := h.exists_body hprocedure
  have hat : tree.at? [i, 0] = some (block line body) := by
    simp [at?, hprocedure, hchildren]
  exact ⟨_, numberOf?_member hat hbody (List.length_pos_of_ne_nil hne)⟩

/-- The first statement of a procedure has the least number. -/
theorem IsProgram.isLeast_first {i f : Nat}
    (hf : (Numbering.ofTree tree).numberOf? [i, 0, 0] = some f) :
    IsLeast {s | s ∈ tree.procedureStatements i} f := by
  refine ⟨mem_procedureStatements.mpr ⟨[0, 0], hf⟩, fun s hs => ?_⟩
  obtain ⟨rest, hs⟩ := mem_procedureStatements.mp hs
  obtain ⟨i, -, j, rest, -, hpath⟩ := h.exists_path hs
  obtain ⟨rfl, rfl⟩ := List.cons.inj hpath
  by_cases hfirst : j :: rest = [0]
  · rw [hfirst, hf] at hs
    exact (Option.some.inj hs).le
  · have hlt : [0] < j :: rest := by
      rw [List.cons_lt_cons_iff]
      rcases Nat.eq_zero_or_pos j with rfl | hj
      · cases rest with
        | nil => exact absurd rfl hfirst
        | cons k rest => exact .inr ⟨rfl, List.nil_lt_cons k rest⟩
      · exact .inl hj
    have hpath : [i, 0] ++ [0] < [i, 0] ++ j :: rest := List.append_left_lt hlt
    exact ((Numbering.lt_iff hf hs).mp hpath).le

end Program

end Node

/-- The statements of every procedure are its first one and those that can be executed at some time
after it: nothing else is reached from there, and nothing in the procedure is not reached. The
first statement is that of the body, and has the least number. Every statement of a program is in
one of its procedures. -/
theorem procedure_eq_reached_from_first {source : String} {tree : Node} {facts : Facts}
    (htree : programTree source = .ok tree) (hfacts : Facts.ofSource source = .ok facts) :
    (∀ i procedure, tree.children[i]? = some procedure →
      ∃ f, (Numbering.ofTree tree).numberOf? [i, 0, 0] = some f ∧
        IsLeast {s | s ∈ tree.procedureStatements i} f ∧
        insert f {s | s ∈ facts.next.after f true} = {s | s ∈ tree.procedureStatements i}) ∧
    ∀ s, facts.IsStatement s ↔
      ∃ i procedure, tree.children[i]? = some procedure ∧ s ∈ tree.procedureStatements i := by
  have h := isProgram_of_programTree htree
  obtain ⟨order, rfl⟩ := exists_gather_of_ofSource htree hfacts
  have hnext : (Facts.gather tree order).next = tree.successors := rfl
  refine ⟨fun i procedure hprocedure => ?_, fun s => ?_⟩
  · obtain ⟨f, hf⟩ := h.exists_first hprocedure
    refine ⟨f, hf, h.isLeast_first hf, Set.ext fun s => ?_⟩
    rw [Set.mem_insert_iff, Set.mem_ofPred_eq, Set.mem_ofPred_eq, hnext, FinRel.mem_after]
    constructor
    · rintro (rfl | hway)
      · exact (h.isLeast_first hf).1
      · obtain ⟨p, q, hpq, hp, hq⟩ := h.transGen_successors_iff.mp hway
        obtain rfl := Numbering.numberOf?_injective hf hp
        obtain ⟨rest, rfl⟩ := List.head?_eq_some_iff.mp (h.head?_eq_of_transGen hpq)
        exact Node.mem_procedureStatements.mpr ⟨rest, hq⟩
    · intro hs
      obtain ⟨rest, hs⟩ := Node.mem_procedureStatements.mp hs
      rcases reflTransGen_iff_eq_or_transGen.mp (h.reflTransGen_first hs) with heq | hway
      · rw [heq, hf] at hs
        exact .inl (Option.some.inj hs).symm
      · exact .inr (h.transGen_successors_iff.mpr ⟨_, _, hway, hf, hs⟩)
  · constructor
    · intro hs
      obtain ⟨kind, hkind⟩ := hs.exists_kindOf?
      obtain ⟨path, n, hnumber, -, -⟩ := kindOf?_eq_some_iff.mp hkind
      obtain ⟨i, procedure, j, rest, hprocedure, rfl⟩ := h.exists_path hnumber
      exact ⟨i, procedure, hprocedure, Node.mem_procedureStatements.mpr ⟨_, hnumber⟩⟩
    · rintro ⟨i, -, -, hs⟩
      obtain ⟨rest, hs⟩ := Node.mem_procedureStatements.mp hs
      exact isStatement_of_numberOf? hs

/-- A branching at the end of another one in a loop, and a second procedure. -/
def branchingAtEnd : String :=
  "procedure main \x7b while (x > 0) \x7b if (x == 1) then \x7b if (y == 2) then \x7b y = 1; " ++
    "\x7d else \x7b call rest; \x7d \x7d else \x7b x = 2; \x7d \x7d print x; \x7d " ++
    "procedure rest \x7b read y; print y; \x7d"

/-- Control comes from the loop, statement 1, to all seven statements of the first procedure, the
loop itself among them, and not through the call to the second procedure. -/
theorem procedure_eq_reached_from_first_branchingAtEnd : ∃ tree facts,
    programTree branchingAtEnd = .ok tree ∧ Facts.ofSource branchingAtEnd = .ok facts ∧
      tree.children.length = 2 ∧ tree.procedureStatements 0 = [1, 2, 3, 4, 5, 6, 7] ∧
      insert 1 {s | s ∈ facts.next.after 1 true} = {s | s ∈ [1, 2, 3, 4, 5, 6, 7]} ∧
      1 ∈ facts.next.after 1 true ∧ tree.procedureStatements 1 = [8, 9] ∧
      insert 8 {s | s ∈ facts.next.after 8 true} = {s | s ∈ [8, 9]} ∧
      8 ∉ facts.next.after 8 true := by
  have hrun : (do
      let tree ← (programTree branchingAtEnd).toOption
      let facts ← (Facts.ofSource branchingAtEnd).toOption
      return decide (tree.children.length = 2 ∧
        tree.procedureStatements 0 = [1, 2, 3, 4, 5, 6, 7] ∧ tree.procedureStatements 1 = [8, 9] ∧
        (Numbering.ofTree tree).numberOf? [0, 0, 0] = some 1 ∧
        (Numbering.ofTree tree).numberOf? [1, 0, 0] = some 8 ∧
        1 ∈ facts.next.after 1 true ∧ 8 ∉ facts.next.after 8 true)) = some true := by
    decide +kernel
  obtain ⟨tree, htree, hrun⟩ := Option.bind_eq_some_iff.mp hrun
  obtain ⟨facts, hfacts, hrun⟩ := Option.bind_eq_some_iff.mp hrun
  obtain ⟨hlength, hmain, hrest, hfirst, hfirst', hself, hself'⟩ :=
    of_decide_eq_true (Option.some.inj hrun)
  have htree := eq_ok_of_toOption htree
  have hfacts := eq_ok_of_toOption hfacts
  have hreached := (procedure_eq_reached_from_first htree hfacts).1
  refine ⟨tree, facts, htree, hfacts, hlength, hmain, ?_, hself, hrest, ?_, hself'⟩
  · obtain ⟨f, hf, -, heq⟩ := hreached 0 _ (List.getElem?_eq_getElem (by omega))
    obtain rfl := Option.some.inj (hfirst.symm.trans hf)
    rw [heq, hmain]
  · obtain ⟨f, hf, -, heq⟩ := hreached 1 _ (List.getElem?_eq_getElem (by omega))
    obtain rfl := Option.some.inj (hfirst'.symm.trans hf)
    rw [heq, hrest]

end ProgramQuery
