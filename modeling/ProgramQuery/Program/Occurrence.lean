import ProgramQuery.Data.Grouping
import ProgramQuery.Program.Numbering
import ProgramQuery.Tree.Display

/-!
# Occurrences of expressions

Patterns ask which assignments have a given expression on their right side, or as a part of it.
Every assignment is recorded under the text of its right side and of all proper parts of it.
-/

namespace ProgramQuery

namespace Node

/-- An operation as its two operands around the operator, in parentheses; leaves are bare. -/
def bracketed : Node → String
  | ⟨.variableRef, _, name, _, _⟩ => name
  | ⟨.constant, _, _, constant, _⟩ => constant
  | ⟨kind, _, _, _, left :: right :: _⟩ =>
    "(" ++ left.bracketed ++ kind.operator.getD "" ++ right.bracketed ++ ")"
  | _ => ""

/-- The operands of an operation and their own parts, each after its parts and left before
right. -/
def properParts : Node → List Node
  | ⟨.variableRef, _, _, _, _⟩ => []
  | ⟨.constant, _, _, _, _⟩ => []
  | ⟨_, _, _, _, left :: right :: _⟩ =>
    left.properParts ++ left :: (right.properParts ++ [right])
  | _ => []

/-- The texts of the proper parts of an expression, and its own text. Every text is put together
from those of its operands. -/
def partTexts : Node → List String × String
  | ⟨.variableRef, _, name, _, _⟩ => ([], name)
  | ⟨.constant, _, _, constant, _⟩ => ([], constant)
  | ⟨kind, _, _, _, left :: right :: _⟩ =>
    let (leftParts, leftText) := left.partTexts
    let (rightParts, rightText) := right.partTexts
    (leftParts ++ leftText :: (rightParts ++ [rightText]),
      "(" ++ leftText ++ kind.operator.getD "" ++ rightText ++ ")")
  | _ => ([], "")

/-- The texts of the parts are those that the parts have by themselves. -/
theorem partTexts_eq (n : Node) : n.partTexts = (n.properParts.map bracketed, n.bracketed) := by
  fun_induction partTexts n with
  | case1 | case2 => simp [properParts, bracketed]
  | case3 kind line name constant left right rest hv hc leftParts leftText hl rightParts
      rightText hr ihl ihr =>
    rw [hl, Prod.mk.injEq] at ihl
    rw [hr, Prod.mk.injEq] at ihr
    simp [properParts, bracketed, ← ihl.1, ← ihl.2, ← ihr.1, ← ihr.2]
  | case4 => simp_all [properParts, bracketed]

end Node

/-- An expression that an assignment has as its right side, or as a proper part of it. -/
structure Occurrence where
  /-- The text of the expression. -/
  text : String
  /-- The variable on the left side of the assignment. -/
  target : String
  /-- The number of the assignment. -/
  statement : Nat
  /-- Whether the expression is only a part of the right side. -/
  isPart : Bool
deriving DecidableEq

/-- The expressions in the right side of an assignment, the whole of it last. -/
def Statement.occurrences (s : Statement) : List Occurrence :=
  match s.node.children with
  | target :: value :: _ =>
    let (parts, whole) := value.partTexts
    parts.map (fun part => ⟨part, target.name, s.number, true⟩) ++
      [⟨whole, target.name, s.number, false⟩]
  | _ => []

/-- The expressions in all assignments of a tree, by ascending statement number. -/
def Node.occurrences (tree : Node) : List Occurrence :=
  (tree.statements.filter fun s => s.node.kind = .assign).flatMap Statement.occurrences

/-- The expressions in all assignments of a tree by their texts. -/
def Node.occurrenceTable (tree : Node) : Std.TreeMap String (List Occurrence) :=
  groupPairs (tree.occurrences.map fun o => (o.text, o))

end ProgramQuery
