import ProgramQuery.Program.CallGraph

/-!
# Uses and Modifies

The variables that statements and procedures read and write. A loop or a branching accesses what
the statements in its blocks access, and uses the variables of its condition. A call accesses what
the called procedure accesses, so procedures are taken in an order in which callees come first.

## Main definitions

- `Access.accessed`: the variables that a part of a program accesses.
- `Access.tabulate`: the same for all executable parts of a node at once.
- `Access.summary`: the accesses of a whole program.

## Main statements

- `Access.tabulate_eq`: the table lists what each part accesses by itself.
-/

namespace ProgramQuery

/-- The two ways to access a variable. -/
inductive Access where
  /-- The value of the variable is read. -/
  | uses
  /-- The variable may get a new value. -/
  | modifies
deriving DecidableEq

/-- The last procedure of a program that has the given name, with its index. -/
def Node.procedureNamed? (program : Node) (name : String) : Option (Nat × Node) :=
  (program.children.zipIdx.reverse.find? fun entry => entry.1.name = name).map Prod.swap

namespace Access

/-- The variables of child `i` of a node. -/
def childVariables (children : List Node) (i : Nat) : List String :=
  (children[i]?.map Node.variableNames).getD []

/-- The variables that a condition accesses: conditions only read. -/
def conditionUses : Access → Node → List String
  | uses, condition => condition.variableNames
  | modifies, _ => []

mutual

/-- The variables that a procedure, a block or a statement accesses, where `callee` gives those of
each procedure. -/
def accessed (access : Access) (callee : String → List String) : Node → List String
  | ⟨.procedure, _, _, _, children⟩ => accessedAll access callee children
  | ⟨.statementList, _, _, _, children⟩ => accessedAll access callee children
  | ⟨.assign, _, _, _, children⟩ =>
    match access with
    | uses => childVariables children 1
    | modifies => childVariables children 0
  | ⟨.read, _, _, _, children⟩ =>
    match access with
    | uses => []
    | modifies => childVariables children 0
  | ⟨.print, _, _, _, children⟩ =>
    match access with
    | uses => childVariables children 0
    | modifies => []
  | ⟨.call, _, _, _, target :: _⟩ => callee target.name
  | ⟨.whileLoop, _, _, _, condition :: blocks⟩ =>
    conditionUses access condition ++ accessedAll access callee blocks
  | ⟨.ifElse, _, _, _, condition :: blocks⟩ =>
    conditionUses access condition ++ accessedAll access callee blocks
  | _ => []

/-- The variables that some nodes access together. -/
def accessedAll (access : Access) (callee : String → List String) : List Node → List String
  | [] => []
  | n :: ns => accessed access callee n ++ accessedAll access callee ns

end

mutual

/-- The procedures, blocks and statements in a tree that can be run, with their paths. Expressions
and conditions are not looked into. -/
def executables : Node → List (Path × Node)
  | ⟨.procedure, line, name, constant, children⟩ =>
    ([], ⟨.procedure, line, name, constant, children⟩) :: executablesFrom 0 children
  | ⟨.statementList, line, name, constant, children⟩ =>
    ([], ⟨.statementList, line, name, constant, children⟩) :: executablesFrom 0 children
  | ⟨.whileLoop, line, name, constant, condition :: blocks⟩ =>
    ([], ⟨.whileLoop, line, name, constant, condition :: blocks⟩) :: executablesFrom 1 blocks
  | ⟨.ifElse, line, name, constant, condition :: blocks⟩ =>
    ([], ⟨.ifElse, line, name, constant, condition :: blocks⟩) :: executablesFrom 1 blocks
  | n => [([], n)]

/-- The executable parts of some siblings, the first of which is child `i` of its parent. -/
def executablesFrom (i : Nat) : List Node → List (Path × Node)
  | [] => []
  | n :: siblings =>
    (executables n).map (fun entry => (i :: entry.1, entry.2)) ++ executablesFrom (i + 1) siblings

end

/-- What a procedure, a block or a statement accesses. -/
structure Entry where
  /-- Where it is. -/
  path : Path
  /-- What it is. -/
  kind : NodeKind
  /-- The variables that it accesses, ascending. -/
  names : List String
deriving DecidableEq

mutual

/-- The variables that a node accesses, ascending, and the entries of its executable parts. The
way back from the node to the root is given. The variables of a node are put together from those
of its parts. -/
def tabulate (access : Access) (callee : String → List String) (back : Path) :
    Node → List String × List Entry
  | ⟨.procedure, _, _, _, children⟩ =>
    let (inner, entries) := tabulateFrom access callee back 0 children
    let names := ascending inner
    (names, ⟨back.reverse, .procedure, names⟩ :: entries)
  | ⟨.statementList, _, _, _, children⟩ =>
    let (inner, entries) := tabulateFrom access callee back 0 children
    let names := ascending inner
    (names, ⟨back.reverse, .statementList, names⟩ :: entries)
  | ⟨.whileLoop, _, _, _, condition :: blocks⟩ =>
    let (inner, entries) := tabulateFrom access callee back 1 blocks
    let names := ascending (conditionUses access condition ++ inner)
    (names, ⟨back.reverse, .whileLoop, names⟩ :: entries)
  | ⟨.ifElse, _, _, _, condition :: blocks⟩ =>
    let (inner, entries) := tabulateFrom access callee back 1 blocks
    let names := ascending (conditionUses access condition ++ inner)
    (names, ⟨back.reverse, .ifElse, names⟩ :: entries)
  | n =>
    let names := ascending (accessed access callee n)
    (names, [⟨back.reverse, n.kind, names⟩])

/-- The variables that some siblings access, and the entries of their executable parts. The first
is child `i` of its parent, whose way back is given. -/
def tabulateFrom (access : Access) (callee : String → List String) (back : Path) (i : Nat) :
    List Node → List String × List Entry
  | [] => ([], [])
  | n :: siblings =>
    let (names, entries) := tabulate access callee (i :: back) n
    let (others, more) := tabulateFrom access callee back (i + 1) siblings
    (names ++ others, entries ++ more)

end

mutual

/-- The table of a node lists what each executable part accesses by itself. -/
theorem tabulate_eq (access : Access) (callee : String → List String) (back : Path) :
    (n : Node) → tabulate access callee back n =
      (ascending (accessed access callee n), (executables n).map fun part =>
        ⟨back.reverse ++ part.1, part.2.kind, ascending (accessed access callee part.2)⟩)
  | ⟨kind, line, name, constant, []⟩ => by
    have hnil := tabulateFrom_eq access callee back 0 []
    cases kind <;> simp [tabulate, executables, accessed, hnil.1, ascending_congr hnil.2]
  | ⟨kind, line, name, constant, first :: others⟩ => by
    have hall := tabulateFrom_eq access callee back 0 (first :: others)
    have hblocks := tabulateFrom_eq access callee back 1 others
    have hnames : ∀ uses : List String,
        ascending (uses ++ (tabulateFrom access callee back 1 others).1) =
          ascending (uses ++ accessedAll access callee others) := by
      intro uses
      exact ascending_congr (by simp [hblocks.2])
    cases kind <;>
      simp [tabulate, executables, accessed, hall.1, ascending_congr hall.2, hblocks.1, hnames]

/-- The table of some siblings lists what each executable part accesses by itself. -/
theorem tabulateFrom_eq (access : Access) (callee : String → List String) (back : Path) (i : Nat) :
    (ns : List Node) →
      (tabulateFrom access callee back i ns).2 = ((executablesFrom i ns).map fun part =>
        ⟨back.reverse ++ part.1, part.2.kind, ascending (accessed access callee part.2)⟩) ∧
      ∀ a, a ∈ (tabulateFrom access callee back i ns).1 ↔ a ∈ accessedAll access callee ns
  | [] => by simp [tabulateFrom, executablesFrom, accessedAll]
  | n :: siblings => by
    have hn := tabulate_eq access callee (i :: back) n
    have hrest := tabulateFrom_eq access callee back (i + 1) siblings
    constructor
    · simp [tabulateFrom, executablesFrom, hn, hrest.1]
    · simp [tabulateFrom, accessedAll, hn, hrest.2]

end

/-- What is known after some procedures: the variables that each of them accesses, and those that
the procedure or statement at each path accesses. -/
structure Summary where
  /-- The variables that a procedure accesses. -/
  byProcedure : List (String × List String) := []
  /-- The variables, ascending, that the procedure or statement at a path accesses. -/
  byPath : List (Path × List String) := []

/-- The variables of a procedure that has been summarised, and none for any other name. -/
def Summary.ofProcedure (s : Summary) (name : String) : List String :=
  (s.byProcedure.lookup name).getD []

/-- Adds the procedure at index `i` of the program to a summary. -/
def Summary.add (access : Access) (s : Summary) (i : Nat) (procedure : Node) : Summary :=
  let (names, entries) := tabulate access s.ofProcedure [i] procedure
  { byProcedure := (procedure.name, names) :: s.byProcedure
    byPath := s.byPath ++ entries.filterMap fun entry =>
      if entry.kind = .statementList ∨ entry.names = [] then none
      else some (entry.path, entry.names) }

/-- The accesses of a whole program, given an order of its procedures with callees first. -/
def summary (access : Access) (program : Node) (order : List String) : Summary :=
  order.foldl (fun s name =>
    match program.procedureNamed? name with
    | none => s
    | some (i, procedure) => s.add access i procedure) {}

end Access

end ProgramQuery
