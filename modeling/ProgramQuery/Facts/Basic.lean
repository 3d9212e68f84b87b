import ProgramQuery.Program.Access
import ProgramQuery.Program.Influence
import ProgramQuery.Program.Occurrence
import ProgramQuery.Program.Successor
import ProgramQuery.Tree.Program

/-!
# Facts about a program

All that queries can ask about a program: its entities, and the relations between them.
`Facts.ofTree` gathers them from the tree of a program that has passed validation.

## Main definitions

- `Facts`: the entities and relations of one program.
- `Facts.ofTree`: the facts of a program tree, or why it is not a valid program.
- `Facts.ofSource`: the facts of a program text.
-/

namespace ProgramQuery

/-- The entities of a program and the relations between them. -/
structure Facts where
  /-- The kind of each statement, from statement 1 on. -/
  kinds : Array NodeKind
  /-- The variables, ascending. Names that are only called are not among them. -/
  variableNames : List String
  /-- The constants, ascending as texts. -/
  constants : List String
  /-- The procedures, ascending. -/
  procedures : List String
  /-- The name that a read, print or call statement is about. -/
  operands : FinRel Nat String
  /-- From a statement to the next one of its list. -/
  follows : FinRel Nat Nat
  /-- From a loop or branching to the statements directly in its blocks. -/
  parent : FinRel Nat Nat
  /-- From a caller to what it calls. -/
  calls : FinRel String String
  /-- From a statement to the variables that it uses. -/
  uses : FinRel Nat String
  /-- From a procedure to the variables that it uses. -/
  procedureUses : FinRel String String
  /-- From a statement to the variables that it modifies. -/
  modifies : FinRel Nat String
  /-- From a procedure to the variables that it modifies. -/
  procedureModifies : FinRel String String
  /-- From a statement to those that can be executed directly after it. -/
  next : FinRel Nat Nat
  /-- From an assignment to those that can use its value. -/
  affects : FinRel Nat Nat
  /-- From a loop or branching to the variables in its condition. -/
  conditions : FinRel Nat String
  /-- The occurrences of each expression in assignments, by its text. -/
  occurrences : Std.TreeMap String (List Occurrence)

/-- The names of the variables of a tree, without the targets of calls. -/
def Node.ownVariables (tree : Node) : List String :=
  tree.nodes.flatMap fun n =>
    if n.kind = .call then
      []
    else
      n.children.filterMap fun child => if child.kind = .variableRef then some child.name else none

/-- The digits of the constants of a tree. -/
def Node.constants (tree : Node) : List String :=
  tree.nodes.filterMap fun n => if n.kind = .constant then some n.constant else none

/-- The statements that are about a single name, with that name. -/
def Node.operands (tree : Node) : FinRel Nat String :=
  .ofPairs <| (tree.statements.filter fun s =>
    s.node.kind ∈ [NodeKind.call, .read, .print]).map fun s => (s.number, s.node.operandName)

/-- The part of an access summary that is about statements. -/
def Access.Summary.ofStatements (s : Access.Summary) (numbers : Numbering) : FinRel Nat String :=
  .ofPairs <| s.byPath.flatMap fun entry =>
    match numbers.numberOf? entry.1 with
    | none => []
    | some number => entry.2.map fun name => (number, name)

/-- The part of an access summary that is about procedures. -/
def Access.Summary.ofProcedures (s : Access.Summary) (tree : Node) : FinRel String String :=
  .ofPairs <| s.byPath.flatMap fun entry =>
    match tree.at? entry.1 with
    | none => []
    | some n => if n.kind = .procedure then entry.2.map fun name => (n.name, name) else []

namespace Facts

/-- The facts of a program tree, given an order of its procedures with callees first. -/
def gather (tree : Node) (order : List String) : Facts :=
  let numbers := Numbering.ofTree tree
  let kinds := (tree.statements.map fun s => s.node.kind).toArray
  let used := Access.summary .uses tree order
  let modified := Access.summary .modifies tree order
  let uses := used.ofStatements numbers
  let modifies := modified.ofStatements numbers
  let next := tree.successors
  { kinds
    variableNames := ascending tree.ownVariables
    constants := ascending tree.constants
    procedures := ascending tree.procedureNames
    operands := tree.operands
    follows := tree.follows
    parent := tree.parents
    calls := tree.calls
    uses
    procedureUses := used.ofProcedures tree
    modifies
    procedureModifies := modified.ofProcedures tree
    next
    affects := FlowGraph.affects { kinds, next, modifies, uses }
    conditions := tree.conditionVariables
    occurrences := tree.occurrenceTable }

/-- The facts of a valid program. -/
def ofTree (tree : Node) : Except SemanticError Facts := do
  tree.validate
  return gather tree (← tree.callOrder)

end Facts

/-- Why a text is not a program that can be asked about. -/
inductive ProgramError where
  /-- The text is not in the grammar of programs. -/
  | parse (error : ParseError)
  /-- The program has no meaning. -/
  | semantic (error : SemanticError)
deriving DecidableEq

/-- The wording of a program error. -/
def ProgramError.message : ProgramError → String
  | parse error => error.message
  | semantic error => error.message

/-- The facts of a program text. -/
def Facts.ofSource (text : String) : Except ProgramError Facts := do
  let tree ← (programTree text).mapError .parse
  (Facts.ofTree tree).mapError .semantic

end ProgramQuery
