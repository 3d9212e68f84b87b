import ProgramQuery.Program.Nesting

/-!
# Next

The control flow between the statements of each procedure. It is built in three steps: every
statement goes on to the one that follows it, every loop enters its body and its body returns to
it, and then each branching hands the way on from it to the last statements of its two blocks.
Branchings are treated in ascending order, so one that ends a block of another has already got
the way on from the outer one.
-/

namespace ProgramQuery

/-- The edges from a loop into its body and from the body back. -/
def loopEdges (numbers : Numbering) (tree : Node) (s : Statement) : List (Nat × Nat) :=
  let body := s.block numbers tree 1
  match body.head?, body.getLast? with
  | some first, some last => [(s.number, first), (last, s.number)]
  | _, _ => []

/-- A branching with two blocks that are not empty. -/
structure Branching where
  /-- The number of the branching. -/
  statement : Nat
  /-- The first statements of the two blocks. -/
  entries : Nat × Nat
  /-- The last statements of the two blocks. -/
  ends : Nat × Nat
deriving DecidableEq

/-- The branching at a statement, if both of its blocks have a statement. -/
def branching? (numbers : Numbering) (tree : Node) (s : Statement) : Option Branching :=
  let accepted := s.block numbers tree 1
  let refused := s.block numbers tree 2
  match accepted.head?, accepted.getLast?, refused.head?, refused.getLast? with
  | some first, some last, some first', some last' =>
    some ⟨s.number, (first, first'), (last, last')⟩
  | _, _, _, _ => none

/-- Moves the edges that leave a branching to the ends of its blocks, and lets the branching go to
the first statements of the blocks instead. -/
def Branching.reroute (b : Branching) (edges : List (Nat × Nat)) : List (Nat × Nat) :=
  let exits := (edges.filter (·.1 = b.statement)).map Prod.snd
  edges.filter (·.1 ≠ b.statement) ++ exits.map (b.ends.1, ·) ++ exits.map (b.ends.2, ·) ++
    [(b.statement, b.entries.1), (b.statement, b.entries.2)]

/-- Relates every statement to those that can be executed directly after it in its procedure. -/
def Node.successors (tree : Node) : FinRel Nat Nat :=
  let numbers := Numbering.ofTree tree
  let loops := tree.statements.filter fun s => s.node.kind = .whileLoop
  let branchings := (tree.statements.filter fun s => s.node.kind = .ifElse).filterMap
    (branching? numbers tree)
  let straight := tree.follows.pairs ++ loops.flatMap (loopEdges numbers tree)
  .ofPairs (branchings.foldl (fun edges b => b.reroute edges) straight)

end ProgramQuery
