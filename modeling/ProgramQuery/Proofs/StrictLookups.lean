import ProgramQuery.Proofs.ExpressionPatterns
import ProgramQuery.Proofs.TreePosition

/-!
# The facts of a program are gathered without defaults

Gathering the facts of a program looks up children of nodes, parents of paths, kinds of statements
and places in tables, and goes on with a default where there is nothing. Here the same facts are
gathered strictly: whatever is looked up has to be there, and only statements can stand in the place
of a statement. On a tree with the layout of a program both ways agree, so that no default is ever
taken. The control flow is between statements, and so a propagation only ever visits statements.

## Main definitions

- `Access.tabulate?`, `Access.summary?`: the accesses of a program, or `none` where one is missing.
- `Propagation.run?`: a propagation that ends at a statement of which something is missing.
- `Facts.gather?`, `Facts.ofTree?`: the facts of a tree, or `none` where something is missing.
- `FlowGraph.IsClosed`: the control flow is between statements.

## Main statements

- `Access.tabulate?_eq`: nothing is missing in the table of a statement.
- `FlowGraph.IsClosed.run?_eq`: nothing is missing while definitions are propagated.
- `Facts.gather?_eq`, `Facts.ofTree?_eq`: nothing is missing in a program.
- `defined_of_programTree`: nothing is missing in what is read as a program.
-/

namespace ProgramQuery

/-- The lists for all elements one after another, each of which has to be there. -/
def joined? {α β : Type} (f : α → Option (List β)) (l : List α) : Option (List β) :=
  (l.mapM f).map List.flatten

theorem mapM_eq_some_map {α β : Type} {f : α → Option β} {g : α → β} {l : List α}
    (h : ∀ a ∈ l, f a = some (g a)) : l.mapM f = some (l.map g) := by
  induction l with
  | nil => rfl
  | cons a l ih =>
    obtain ⟨ha, hl⟩ := List.forall_mem_cons.mp h
    rw [List.mapM_cons, ha, ih hl]
    rfl

theorem joined?_eq {α β : Type} {f : α → Option (List β)} {g : α → List β} {l : List α}
    (h : ∀ a ∈ l, f a = some (g a)) : joined? f l = some (l.flatMap g) := by
  rw [joined?, mapM_eq_some_map h, Option.map_some, List.flatMap_def]

/-! ## Calls -/

namespace Node

/-- The name of the first child, which has to be there. -/
def operandName? (n : Node) : Option String :=
  n.children[0]?.map Node.name

/-- The names that are called below a node. Every call has to have a first child. -/
def callTargets? (n : Node) : Option (List String) :=
  (n.nodes.filter fun m => m.kind = .call).mapM operandName?

/-- Relates every procedure of a program to the names that it calls. -/
def calls? (program : Node) : Option (FinRel String String) :=
  let pairs := program.children |> joined? fun procedure => do
    let targets ← procedure.callTargets?
    return targets.map fun target => (procedure.name, target)
  pairs.map .ofPairs

/-- All declared and all called names, each after the names that it calls. -/
def callOrder? (program : Node) : Option (Except SemanticError (List String)) := do
  let calls ← program.calls?
  let targets ← program.callTargets?
  return program.procedureNames.foldlM
    (visitCalls calls (ascending (program.procedureNames ++ targets))) []

/-- Accepts programs with distinct procedures, declared call targets and no recursion. -/
def validate? (program : Node) : Option (Except SemanticError Unit) := do
  let targets ← program.callTargets?
  let order ← program.callOrder?
  return do
    if let some name := firstRepeat? [] program.procedureNames then
      throw (.duplicateProcedure name)
    if let some name := targets.find? (· ∉ program.procedureNames) then
      throw (.undefinedProcedure name)
    let _ ← order

/-! ## Names and expressions -/

/-- The statements that are about a single name, with that name. All statements have to have a
first child, whatever they are about. -/
def operands? (tree : Node) : Option (FinRel Nat String) := do
  let named ← tree.statements.mapM fun s => s.node.operandName?.map fun name => (s, name)
  return .ofPairs <| (named.filter fun entry =>
    entry.1.node.kind ∈ [NodeKind.call, .read, .print]).map fun entry => (entry.1.number, entry.2)

/-- The path without its last index, which has to be there. -/
def parentPath? (path : Path) : Option Path :=
  if path.isEmpty then none else some path.dropLast

/-- The names of the variables of a tree, without the targets of calls. Every variable has to have
a parent. -/
def ownVariables? (tree : Node) : Option (List String) :=
  (tree.select fun k => k = .variableRef) |> joined? fun entry => do
    let parent ← parentPath? entry.1
    return if (tree.at? parent).map Node.kind = some .call then [] else [entry.2.name]

/-- Relates every loop and branching to the variables in its condition, which has to be there. -/
def conditionVariables? (tree : Node) : Option (FinRel Nat String) :=
  let pairs := tree.containers |> joined? fun s => do
    let condition ← s.node.children[0]?
    return condition.variableNames.map fun name => (s.number, name)
  pairs.map .ofPairs

/-- The texts of the proper parts of an expression, and its own text. What is neither a variable nor
a constant has to have two operands. -/
def partTexts? : Node → Option (List String × String)
  | ⟨.variableRef, _, name, _, _⟩ => some ([], name)
  | ⟨.constant, _, _, constant, _⟩ => some ([], constant)
  | ⟨kind, _, _, _, left :: right :: _⟩ => do
    let (leftParts, leftText) ← left.partTexts?
    let (rightParts, rightText) ← right.partTexts?
    return (leftParts ++ leftText :: (rightParts ++ [rightText]),
      "(" ++ leftText ++ kind.operator.getD "" ++ rightText ++ ")")
  | _ => none

end Node

/-- The expressions in the right side of an assignment, which has to have two sides. -/
def Statement.occurrences? (s : Statement) : Option (List Occurrence) := do
  let target ← s.node.children[0]?
  let value ← s.node.children[1]?
  let (parts, whole) ← value.partTexts?
  return parts.map (fun part => ⟨part, target.name, s.number, true⟩) ++
    [⟨whole, target.name, s.number, false⟩]

/-- The expressions in all assignments of a tree, by ascending statement number. -/
def Node.occurrences? (tree : Node) : Option (List Occurrence) :=
  joined? Statement.occurrences? (tree.statements.filter fun s => s.node.kind = .assign)

/-- The expressions in all assignments of a tree by their texts. -/
def Node.occurrenceTable? (tree : Node) : Option (Std.TreeMap String (List Occurrence)) :=
  tree.occurrences?.map fun occurrences => groupPairs (occurrences.map fun o => (o.text, o))

/-! ## Accesses -/

namespace Access

/-- The variables of child `i` of a node, which has to be there. -/
def childVariables? (children : List Node) (i : Nat) : Option (List String) :=
  children[i]?.map Node.variableNames

/-- The variables that a statement without blocks accesses. Nothing else can be in its place. -/
def accessed? (access : Access) (callee : String → List String) (n : Node) :
    Option (List String) :=
  match n.kind, access with
  | .assign, uses => childVariables? n.children 1
  | .assign, modifies => childVariables? n.children 0
  | .read, uses => some []
  | .read, modifies => childVariables? n.children 0
  | .print, uses => childVariables? n.children 0
  | .print, modifies => some []
  | .call, _ => n.operandName?.map callee
  | _, _ => none

mutual

/-- The variables that a node accesses, ascending, and the entries of its executable parts. Loops
and branchings have to have a condition. -/
def tabulate? (access : Access) (callee : String → List String) (back : Path) :
    Node → Option (List String × List Entry)
  | ⟨.procedure, _, _, _, children⟩ => do
    let (inner, entries) ← tabulateFrom? access callee back 0 children
    let names := ascending inner
    return (names, ⟨back.reverse, .procedure, names⟩ :: entries)
  | ⟨.statementList, _, _, _, children⟩ => do
    let (inner, entries) ← tabulateFrom? access callee back 0 children
    let names := ascending inner
    return (names, ⟨back.reverse, .statementList, names⟩ :: entries)
  | ⟨.whileLoop, _, _, _, condition :: blocks⟩ => do
    let (inner, entries) ← tabulateFrom? access callee back 1 blocks
    let names := ascending (conditionUses access condition ++ inner)
    return (names, ⟨back.reverse, .whileLoop, names⟩ :: entries)
  | ⟨.ifElse, _, _, _, condition :: blocks⟩ => do
    let (inner, entries) ← tabulateFrom? access callee back 1 blocks
    let names := ascending (conditionUses access condition ++ inner)
    return (names, ⟨back.reverse, .ifElse, names⟩ :: entries)
  | n => do
    let names := ascending (← accessed? access callee n)
    return (names, [⟨back.reverse, n.kind, names⟩])

/-- The variables that some siblings access, and the entries of their executable parts. -/
def tabulateFrom? (access : Access) (callee : String → List String) (back : Path) (i : Nat) :
    List Node → Option (List String × List Entry)
  | [] => some ([], [])
  | n :: siblings => do
    let (names, entries) ← tabulate? access callee (i :: back) n
    let (others, more) ← tabulateFrom? access callee back (i + 1) siblings
    return (names ++ others, entries ++ more)

end

/-- Adds the procedure at index `i` of the program to a summary. -/
def Summary.add? (access : Access) (s : Summary) (i : Nat) (procedure : Node) : Option Summary := do
  let (names, entries) ← tabulate? access s.ofProcedure [i] procedure
  return { byProcedure := (procedure.name, names) :: s.byProcedure
           byPath := s.byPath ++ entries.filterMap fun entry =>
             if entry.kind = .statementList ∨ entry.names = [] then none
             else some (entry.path, entry.names) }

/-- Adds the procedure of a name to a summary. Its index has to be that of a child. -/
def Summary.extend? (access : Access) (program : Node) (s : Summary) (name : String) :
    Option Summary :=
  match program.procedureNamed? name with
  | none => some s
  | some (i, _) => do s.add? access i (← program.children[i]?)

/-- The accesses of a whole program, given an order of its procedures with callees first. -/
def summary? (access : Access) (program : Node) (order : List String) : Option Summary :=
  order.foldlM (Summary.extend? access program) {}

end Access

/-! ## Influence -/

namespace FlowGraph

/-- The definitions that leave a statement. The table of these has a place for every number up to
that of the last statement. -/
def leaving? (g : FlowGraph) (found : Std.TreeMap Nat (List Definition)) (s : Nat) :
    Option (List Definition) :=
  if s ≤ g.kinds.size then some (g.leaving found s) else none

/-- The definitions that arrive at a statement from those before it. -/
def arriving? (g : FlowGraph) (found : Std.TreeMap Nat (List Definition)) (s : Nat) :
    Option (List Definition) :=
  joined? (g.leaving? found) (g.next.preimage s)

/-- Whether all that a visit of a statement looks up is there: its kind, and the places of it and of
the statements before it in the table. -/
def canVisit (g : FlowGraph) (s : Nat) : Bool :=
  (kindAt? g.kinds s).isSome && s ≤ g.kinds.size && (g.next.preimage s).all (· ≤ g.kinds.size)

end FlowGraph

/-- Visits statements until the queue is empty. -/
def Propagation.run? {g : FlowGraph} (p : Propagation g) :
    Option (Std.TreeMap Nat (List Definition)) :=
  match hqueue : p.queue with
  | [] => some p.found
  | s :: rest => if g.canVisit s then (p.visit s rest hqueue).run? else none
termination_by p.measure
decreasing_by exact p.measure_visit_lt s rest hqueue

/-- Relates every assignment to the assignments that can use a value of it. All statements have to
have a kind. -/
def FlowGraph.affects? (g : FlowGraph) : Option (FinRel Nat Nat) := do
  let _ ← g.statements.mapM (kindAt? g.kinds)
  let found ← (Propagation.initial g).run?
  let pairs := (g.statements.filter g.isAssign) |> joined? fun b => do
    let arriving ← g.arriving? found b
    return (arriving.filter fun d => d.1 ∈ g.uses.rights b).map fun d => (d.2, b)
  pairs.map .ofPairs

/-! ## All facts -/

namespace Facts

/-- The facts of a program tree, if nothing that they are gathered from is missing. -/
def gather? (tree : Node) (order : List String) : Option Facts := do
  let numbers := Numbering.ofTree tree
  let kinds := (tree.statements.map fun s => s.node.kind).toArray
  let operands ← tree.operands?
  let names ← tree.ownVariables?
  let used ← Access.summary? .uses tree order
  let modified ← Access.summary? .modifies tree order
  let calls ← tree.calls?
  let uses := used.ofStatements numbers
  let modifies := modified.ofStatements numbers
  let next := tree.successors
  let affects ← FlowGraph.affects? { kinds, next, modifies, uses }
  let occurrences ← tree.occurrenceTable?
  let conditions ← tree.conditionVariables?
  return { kinds
           variableNames := ascending names
           constants := ascending tree.constants
           procedures := ascending tree.procedureNames
           operands
           follows := tree.follows
           parent := tree.parents
           calls
           uses
           procedureUses := used.ofProcedures tree
           modifies
           procedureModifies := modified.ofProcedures tree
           next
           affects
           conditions
           occurrences }

/-- The facts of a valid program, if nothing that they are gathered from is missing. -/
def ofTree? (tree : Node) : Option (Except SemanticError Facts) := do
  match ← tree.validate?, ← tree.callOrder? with
  | .error error, _ => return .error error
  | .ok _, .error error => return .error error
  | .ok _, .ok order => return .ok (← gather? tree order)

end Facts

/-! ## Nothing is missing -/

namespace Node

theorem operandName?_eq {n : Node} (h : n.children ≠ []) : n.operandName? = some n.operandName := by
  rw [operandName?, operandName]
  cases hchildren : n.children with
  | nil => contradiction
  | cons operand rest => rfl

theorem callTargets?_eq {n : Node} (h : ∀ m ∈ n.nodes, m.kind = .call → m.children ≠ []) :
    n.callTargets? = some n.callTargets := by
  have htargets : n.callTargets = (n.nodes.filter fun m => m.kind = .call).map operandName := by
    rw [callTargets, ← List.filterMap_eq_map, List.filterMap_filter]
    simp
  rw [callTargets?, htargets]
  refine mapM_eq_some_map fun m hm => ?_
  obtain ⟨hm, hkind⟩ := List.mem_filter.mp hm
  exact operandName?_eq (h m hm (of_decide_eq_true hkind))

/-- The variables of a tree are the names of variables below nodes other than calls. -/
theorem mem_ownVariables {tree : Node} {x : String} : x ∈ tree.ownVariables ↔
    ∃ (parent : Path) (i : Nat) (n m : Node), tree.at? parent = some n ∧
      n.children[i]? = some m ∧ n.kind ≠ .call ∧ m.kind = .variableRef ∧ m.name = x := by
  rw [ownVariables, List.mem_flatMap]
  constructor
  · rintro ⟨n, hn, hx⟩
    obtain ⟨parent, hn⟩ := mem_nodes.mp hn
    split at hx
    · cases hx
    · rename_i hcall
      obtain ⟨m, hm, hx⟩ := List.mem_filterMap.mp hx
      obtain ⟨i, hi⟩ := List.getElem?_of_mem hm
      obtain ⟨hkind, hname⟩ := Option.ite_none_right_eq_some.mp hx
      exact ⟨parent, i, n, m, hn, hi, hcall, hkind, Option.some.inj hname⟩
  · rintro ⟨parent, i, n, m, hn, hm, hcall, hkind, rfl⟩
    refine ⟨n, mem_nodes.mpr ⟨parent, hn⟩, ?_⟩
    rw [if_neg hcall]
    exact List.mem_filterMap.mpr ⟨m, List.mem_of_getElem? hm, if_pos hkind⟩

variable {good : Token → Prop}

theorem IsStatement.children_ne_nil {n : Node} (h : n.IsStatement good) : n.children ≠ [] := by
  cases h <;> simp

theorem IsExpression.partTexts?_eq {n : Node} (h : n.IsExpression good) :
    n.partTexts? = some n.partTexts := by
  induction h with
  | name | integer => rfl
  | @operation kind line left right hkind _ _ ihl ihr =>
    cases kind <;> simp at hkind <;> simp [Node.binary, partTexts?, partTexts, ihl, ihr]

namespace IsProgram

variable {tree : Node} (h : tree.IsProgram good)

include h

theorem children_ne_nil {m : Node} {path : Path} (hat : tree.at? path = some m)
    (hkind : m.kind.isStatement = true) : m.children ≠ [] :=
  ((h.isWellFormed_of_at? hat).statement hkind).children_ne_nil

theorem callTargets?_eq : tree.callTargets? = some tree.callTargets := by
  refine Node.callTargets?_eq fun m hm hkind => ?_
  obtain ⟨path, hat⟩ := mem_nodes.mp hm
  exact h.children_ne_nil hat (by rw [hkind]; rfl)

theorem calls?_eq : tree.calls? = some tree.calls := by
  refine congrArg (Option.map FinRel.ofPairs) (joined?_eq fun procedure hprocedure => ?_)
  obtain ⟨i, hi⟩ := List.getElem?_of_mem hprocedure
  have htargets : procedure.callTargets? = some procedure.callTargets := by
    refine Node.callTargets?_eq fun m hm hkind => ?_
    obtain ⟨path, hat⟩ := mem_nodes.mp hm
    have hroot : tree.at? (i :: path) = some m := by
      rw [at?, hi]
      exact hat
    exact h.children_ne_nil hroot (by rw [hkind]; rfl)
  rw [htargets]
  rfl

theorem callOrder?_eq : tree.callOrder? = some tree.callOrder := by
  rw [callOrder?, h.calls?_eq, h.callTargets?_eq]
  rfl

theorem validate?_eq : tree.validate? = some tree.validate := by
  rw [validate?, h.callTargets?_eq, h.callOrder?_eq]
  rfl

theorem operands?_eq : tree.operands? = some tree.operands := by
  have hnamed : (tree.statements.mapM fun s => s.node.operandName?.map fun name => (s, name)) =
      some (tree.statements.map fun s => (s, s.node.operandName)) := by
    refine mapM_eq_some_map fun s hs => ?_
    obtain ⟨hat, hkind, -⟩ := mem_statements.mp hs
    rw [operandName?_eq (h.children_ne_nil hat hkind)]
    rfl
  rw [operands?, hnamed, operands]
  simp [List.filter_map, Function.comp_def]

theorem conditionVariables?_eq : tree.conditionVariables? = some tree.conditionVariables := by
  refine congrArg (Option.map FinRel.ofPairs) (joined?_eq fun s hs => ?_)
  obtain ⟨hat, hkind, -⟩ := mem_statements.mp (List.mem_filter.mp hs).1
  cases hchildren : s.node.children with
  | nil => exact absurd hchildren (h.children_ne_nil hat hkind)
  | cons condition blocks => rfl

theorem occurrenceTable?_eq : tree.occurrenceTable? = some tree.occurrenceTable := by
  have hall : tree.occurrences? = some tree.occurrences := by
    refine joined?_eq fun s hs => ?_
    obtain ⟨hs, hkind⟩ := List.mem_filter.mp hs
    obtain ⟨target, value, hchildren, hvalue⟩ :=
      h.exists_children_of_assign hs (of_decide_eq_true hkind)
    simp [Statement.occurrences?, Statement.occurrences, hchildren, hvalue.partTexts?_eq]
  rw [occurrenceTable?, hall]
  rfl

/-- A variable is not the root, which is a program. -/
theorem exists_parent {m : Node} {path : Path} (hat : tree.at? path = some m)
    (hkind : m.kind = .variableRef) :
    ∃ parent i n, path = parent ++ [i] ∧ tree.at? parent = some n ∧ n.children[i]? = some m := by
  rcases List.eq_nil_or_concat path with rfl | ⟨parent, i, rfl⟩
  · obtain ⟨-, -⟩ := h
    obtain rfl := Option.some.inj hat
    cases hkind
  · rw [List.concat_eq_append] at hat ⊢
    obtain ⟨n, hn, hm⟩ := at?_concat_eq_some_iff.mp hat
    exact ⟨parent, i, n, rfl, hn, hm⟩

theorem exists_ownVariables? : ∃ names, tree.ownVariables? = some names ∧
    ∀ x, x ∈ names ↔ x ∈ tree.ownVariables := by
  have hselect : ∀ entry, entry ∈ tree.select (fun k => k = .variableRef) ↔
      tree.at? entry.1 = some entry.2 ∧ entry.2.kind = .variableRef := by
    intro entry
    rw [select_eq, List.mem_filter, mem_walk, decide_eq_true_eq]
  refine ⟨_, joined?_eq (g := fun entry =>
    if (tree.at? entry.1.dropLast).map Node.kind = some .call then [] else [entry.2.name])
    fun entry hentry => ?_, fun x => ?_⟩
  · obtain ⟨hat, hkind⟩ := (hselect entry).mp hentry
    obtain ⟨parent, i, n, hpath, -, -⟩ := h.exists_parent hat hkind
    simp [parentPath?, hpath]
  · rw [List.mem_flatMap, mem_ownVariables]
    constructor
    · rintro ⟨⟨path, m⟩, hentry, hx⟩
      obtain ⟨hat, hkind⟩ := (hselect _).mp hentry
      obtain ⟨parent, i, n, rfl, hn, hm⟩ := h.exists_parent hat hkind
      have hnot : n.kind ≠ .call := by
        intro hcall
        simp [hn, hcall] at hx
      have hname : x = m.name := by simpa [hn, hnot] using hx
      exact ⟨parent, i, n, m, hn, hm, hnot, hkind, hname.symm⟩
    · rintro ⟨parent, i, n, m, hn, hm, hnot, hkind, rfl⟩
      have hat : tree.at? (parent ++ [i]) = some m := at?_concat_eq_some_iff.mpr ⟨n, hn, hm⟩
      exact ⟨(parent ++ [i], m), (hselect _).mpr ⟨hat, hkind⟩, by simp [hn, hnot]⟩

end IsProgram

end Node

/-! ### Accesses -/

namespace Access

variable {good : Token → Prop} (access : Access) (callee : String → List String)

theorem tabulateFrom?_eq {ns : List Node}
    (h : ∀ n ∈ ns, ∀ back, tabulate? access callee back n = some (tabulate access callee back n))
    (back : Path) (i : Nat) :
    tabulateFrom? access callee back i ns = some (tabulateFrom access callee back i ns) := by
  induction ns generalizing i with
  | nil => rw [tabulateFrom?, tabulateFrom]
  | cons n ns ih =>
    obtain ⟨hn, hns⟩ := List.forall_mem_cons.mp h
    rw [tabulateFrom?, tabulateFrom, hn, ih hns]
    rfl

theorem tabulate?_block_eq {line : Nat} {body : List Node}
    (h : ∀ n ∈ body, ∀ back, tabulate? access callee back n = some (tabulate access callee back n))
    (back : Path) : tabulate? access callee back (.block line body) =
      some (tabulate access callee back (.block line body)) := by
  rw [Node.block, tabulate?, tabulate, tabulateFrom?_eq access callee h]
  rfl

/-- Only procedures, blocks and statements are looked into, and these have what is looked up. -/
theorem tabulate?_eq {n : Node} (h : n.IsStatement good) (back : Path) :
    tabulate? access callee back n = some (tabulate access callee back n) := by
  induction h generalizing back with
  | @named kind _ t hkind =>
    cases kind <;> simp at hkind <;> cases access <;> rfl
  | assign => cases access <;> rfl
  | whileLoop _ _ _ ih =>
    rw [tabulate?, tabulate, tabulateFrom?_eq access callee ?_]
    · rfl
    · intro n hn
      rw [List.mem_singleton.mp hn]
      exact tabulate?_block_eq access callee ih
  | ifElse _ _ _ _ _ ih ih' =>
    rw [tabulate?, tabulate, tabulateFrom?_eq access callee ?_]
    · rfl
    · rw [List.forall_mem_cons]
      refine ⟨tabulate?_block_eq access callee ih, fun n hn => ?_⟩
      rw [List.mem_singleton.mp hn]
      exact tabulate?_block_eq access callee ih'

theorem Summary.add?_eq {procedure : Node} (h : procedure.IsProcedure good) (s : Summary)
    (i : Nat) : s.add? access i procedure = some (s.add access i procedure) := by
  obtain ⟨-, -, -, hbody⟩ := h
  rw [add?, add, tabulate?, tabulate, tabulateFrom?_eq access s.ofProcedure ?_]
  · rfl
  · refine List.forall_mem_singleton.mpr (tabulate?_block_eq access s.ofProcedure fun n hn => ?_)
    exact tabulate?_eq access s.ofProcedure (hbody n hn)

theorem Summary.extend?_eq {program : Node} (h : program.IsProgram good) (s : Summary)
    (name : String) : s.extend? access program name = some (s.extend access program name) := by
  rw [extend?, extend]
  cases hfound : program.procedureNamed? name with
  | none => rfl
  | some found =>
    obtain ⟨i, procedure⟩ := found
    obtain ⟨hchild, -⟩ := getElem?_of_procedureNamed? hfound
    obtain ⟨-, hprocedures⟩ := h
    simp [hchild, add?_eq access (hprocedures procedure (List.mem_of_getElem? hchild))]

theorem summary?_eq {program : Node} (h : program.IsProgram good) (order : List String) :
    summary? access program order = some (summary access program order) := by
  have hrun : ∀ s : Summary, order.foldlM (Summary.extend? access program) s =
      some (order.foldl (Summary.extend access program) s) := by
    induction order with
    | nil => exact fun s => rfl
    | cons name order ih =>
      intro s
      rw [List.foldlM_cons, Summary.extend?_eq access h]
      exact ih _
  exact hrun {}

end Access

/-! ### Influence -/

/-- The control flow of a graph is between its statements. -/
def FlowGraph.IsClosed (g : FlowGraph) : Prop :=
  ∀ p ∈ g.next.pairs, p.1 ∈ g.statements ∧ p.2 ∈ g.statements

namespace FlowGraph

variable {g : FlowGraph}

theorem isSome_kindAt? {s : Nat} (hs : s ∈ g.statements) : (kindAt? g.kinds s).isSome = true := by
  obtain ⟨hpos, hle⟩ := mem_statements.mp hs
  obtain ⟨i, rfl⟩ := Nat.exists_eq_add_of_le' hpos
  simpa [kindAt?] using Nat.lt_of_succ_le hle

variable (h : g.IsClosed)

include h

theorem IsClosed.mem_statements_of_mem_places {s : Nat} (hs : s ∈ g.places) : s ∈ g.statements := by
  rcases List.mem_append.mp hs with hs | hs
  · exact hs
  · obtain ⟨a, ha⟩ := FinRel.mem_range.mp hs
    exact (h _ ha).2

theorem IsClosed.le_size_of_mem_preimage {s a : Nat} (ha : a ∈ g.next.preimage s) :
    a ≤ g.kinds.size :=
  (mem_statements.mp (h _ (FinRel.mem_preimage.mp ha)).1).2

theorem IsClosed.canVisit_eq_true {s : Nat} (hs : s ∈ g.statements) : g.canVisit s = true := by
  have hbefore : (g.next.preimage s).all (· ≤ g.kinds.size) = true :=
    List.all_eq_true.mpr fun a ha => decide_eq_true (h.le_size_of_mem_preimage ha)
  simp [canVisit, isSome_kindAt? hs, (mem_statements.mp hs).2, hbefore]

theorem IsClosed.arriving?_eq (found : Std.TreeMap Nat (List Definition)) (s : Nat) :
    g.arriving? found s = some (g.arriving found s) :=
  joined?_eq fun _ ha => if_pos (h.le_size_of_mem_preimage ha)

/-- Only statements are ever queued, so every visit finds what it looks up. -/
theorem IsClosed.run?_eq (p : Propagation g) : p.run? = some p.run := by
  fun_induction Propagation.run? p with
  | case1 p hqueue =>
    rw [Propagation.run]
    split
    · rfl
    · rename_i hcons
      cases hqueue.symm.trans hcons
  | case2 p s rest hqueue hvisit ih =>
    rw [ih, Propagation.run.eq_def p]
    split
    · rename_i hnil
      cases hqueue.symm.trans hnil
    · rename_i hcons
      obtain ⟨rfl, rfl⟩ := List.cons.inj (hqueue.symm.trans hcons)
      rfl
  | case3 p s rest hqueue hvisit =>
    have hs := h.mem_statements_of_mem_places (p.queued s (hqueue ▸ List.mem_cons_self))
    exact absurd (h.canVisit_eq_true hs) hvisit

theorem IsClosed.affects?_eq : g.affects? = some g.affects := by
  have hkinds : g.statements.mapM (kindAt? g.kinds) =
      some (g.statements.map fun s => (kindAt? g.kinds s).getD .assign) := by
    refine mapM_eq_some_map fun s hs => ?_
    obtain ⟨kind, hkind⟩ := Option.isSome_iff_exists.mp (isSome_kindAt? hs)
    rw [hkind, Option.getD_some]
  rw [affects?, hkinds, h.run?_eq]
  refine congrArg (Option.map FinRel.ofPairs) (joined?_eq fun b hb => ?_)
  rw [h.arriving?_eq]
  rfl

end FlowGraph

/-! ### All facts -/

namespace Facts

variable {good : Token → Prop} {tree : Node} (h : tree.IsProgram good)

include h

theorem gather?_eq (order : List String) : gather? tree order = some (gather tree order) := by
  obtain ⟨names, hnames, hmem⟩ := h.exists_ownVariables?
  have hnext : tree.successors.IsBetween (gather tree order).IsStatement
      (gather tree order).IsStatement := isBetween_successors h
  have haffects : FlowGraph.affects? _ = some (gather tree order).affects :=
    FlowGraph.IsClosed.affects?_eq fun p hp => hnext p.1 p.2 hp
  simp only [gather?, h.operands?_eq, hnames, Access.summary?_eq _ h, h.calls?_eq,
    h.occurrenceTable?_eq, h.conditionVariables?_eq, Option.bind_eq_bind, Option.bind_some]
  rw [haffects, ascending_congr hmem]
  rfl

theorem ofTree?_eq : ofTree? tree = some (ofTree tree) := by
  rw [ofTree?, ofTree, h.validate?_eq, h.callOrder?_eq]
  cases tree.validate with
  | error error => rfl
  | ok _ =>
    cases tree.callOrder with
    | error error => rfl
    | ok order =>
      simp only [Option.bind_eq_bind, Option.bind_some, gather?_eq h]
      rfl

end Facts

/-- Whatever is read as a program has the layout of a program, and all that is looked up while its
facts are gathered is there: the operands of statements and expressions, the parents of variables,
the kinds of statements and the places of statements in the table of a propagation. And only what
can be run is found in the place of a statement. -/
theorem defined_of_programTree {source : String} {tree : Node}
    (h : programTree source = .ok tree) :
    tree.IsProgram Token.IsLexical ∧ Facts.ofTree? tree = some (Facts.ofTree tree) ∧
      ∀ order, Facts.gather? tree order = some (Facts.gather tree order) := by
  have hprogram := isProgram_of_programTree h
  exact ⟨hprogram, Facts.ofTree?_eq hprogram, Facts.gather?_eq hprogram⟩

/-- A call in a loop, of a procedure with a branching. -/
def callInLoop : String :=
  "procedure p \x7b while (!(x > 9)) \x7b call q; y = (x + 1) * y; \x7d print y; \x7d " ++
    "procedure q \x7b if (y == 0) then \x7b read x; \x7d else \x7b x = x + y; \x7d \x7d"

/-- A program of one procedure with the given statement. -/
def Node.programOf (statement : Node) : Node :=
  ⟨.program, none, "", "", [⟨.procedure, some 1, "p", "", [.block 1 [statement]]⟩]⟩

/-- The procedure that is called comes after its call, and the assignment in the loop uses its own
value. In a tree that was not read, a condition in the place of a statement does not go unnoticed,
nor does an assignment without a value. -/
theorem defined_of_programTree_callInLoop : (∃ tree facts,
    programTree callInLoop = .ok tree ∧ tree.IsProgram Token.IsLexical ∧
      Facts.ofTree? tree = some (.ok facts) ∧
      facts.kinds = #[.whileLoop, .call, .assign, .print, .ifElse, .read, .assign] ∧
      facts.affects.pairs = [(3, 3)]) ∧
    (Facts.ofTree? (.programOf ⟨.not, some 1, "", "", []⟩)).isNone = true ∧
    (Facts.ofTree? (.programOf
      ⟨.assign, some 1, "x", "", [⟨.variableRef, some 1, "x", "", []⟩]⟩)).isNone = true := by
  have hrun : (do
      let tree ← (programTree callInLoop).toOption
      let facts ← (Facts.ofTree tree).toOption
      return decide (facts.kinds = #[.whileLoop, .call, .assign, .print, .ifElse, .read, .assign] ∧
        facts.affects.pairs = [(3, 3)])) = some true := by
    decide +kernel
  refine ⟨?_, by decide +kernel, by decide +kernel⟩
  obtain ⟨tree, htree, hrun⟩ := Option.bind_eq_some_iff.mp hrun
  obtain ⟨facts, hfacts, hrun⟩ := Option.bind_eq_some_iff.mp hrun
  obtain ⟨hkinds, haffects⟩ := of_decide_eq_true (Option.some.inj hrun)
  have htree := eq_ok_of_toOption htree
  obtain ⟨hprogram, hdefined, -⟩ := defined_of_programTree htree
  rw [eq_ok_of_toOption hfacts] at hdefined
  exact ⟨tree, facts, htree, hprogram, hdefined, hkinds, haffects⟩

end ProgramQuery
