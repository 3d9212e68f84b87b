import ProgramQuery.Data.FinRel
import ProgramQuery.Program.Numbering

/-!
# Follows and Parent

How statements lie beside and inside each other: a statement is followed by the next one of its
list, and a loop or a branching is the parent of the statements of its blocks. Child 0 of such a
container is its condition and every later child is a block.
-/

namespace ProgramQuery

/-- The pairs of neighbours in a list. -/
def neighbours {α : Type} (l : List α) : List (α × α) :=
  l.zip l.tail

/-- Relates every statement to the next one of the same statement list. -/
def Node.follows (tree : Node) : FinRel Nat Nat :=
  let numbers := Numbering.ofTree tree
  .ofPairs <| (tree.pathsOfKind .statementList).flatMap fun path =>
    neighbours (numbers.membersAt tree path)

/-- The statements of a tree that have a condition and blocks. -/
def Node.containers (tree : Node) : List Statement :=
  tree.statements.filter fun s => s.node.kind.isContainer

/-- The numbers of the statements in block `i` of a container. -/
def Statement.block (s : Statement) (numbers : Numbering) (tree : Node) (i : Nat) : List Nat :=
  numbers.membersAt tree (s.path ++ [i])

/-- Relates every loop and branching to the statements directly in its blocks. -/
def Node.parents (tree : Node) : FinRel Nat Nat :=
  let numbers := Numbering.ofTree tree
  .ofPairs <| tree.containers.flatMap fun s =>
    (List.range' 1 (s.node.children.length - 1)).flatMap fun i =>
      (s.block numbers tree i).map fun member => (s.number, member)

/-- Relates every loop and branching to the variables in its condition. -/
def Node.conditionVariables (tree : Node) : FinRel Nat String :=
  .ofPairs <| tree.containers.flatMap fun s =>
    ((s.node.children.head?.map Node.variableNames).getD []).map fun name => (s.number, name)

end ProgramQuery
