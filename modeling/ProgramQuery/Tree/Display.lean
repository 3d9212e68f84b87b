import ProgramQuery.Tree.Basic

/-!
# Texts of trees

Three ways to write a tree: `display` on one line with every field, `pretty` with one indented line
per node, and `canonical` as an expression with a pair of parentheses around each operation.
-/

namespace ProgramQuery

namespace Node

mutual

/-- A tree on one line: kind, line or a dash, name and constant, then the children. -/
def display : Node → String
  | ⟨kind, line, name, constant, children⟩ =>
    kind.label ++ " @ " ++ (line.map toString).getD "-" ++ "(" ++ name ++ ", " ++ constant ++ ")" ++
      match displayAll children with
      | [] => ""
      | texts => " : [" ++ ", ".intercalate texts ++ "]"

/-- The texts of some trees. -/
def displayAll : List Node → List String
  | [] => []
  | n :: ns => n.display :: displayAll ns

end

/-- The line for one node: its kind, and its line, name and constant where it has them. -/
def headline (kind : NodeKind) (line : Option Nat) (name constant : String) : String :=
  kind.label ++ (line.elim "" fun l => " @" ++ toString l) ++
    (if name = "" then "" else " " ++ name) ++ (if constant = "" then "" else " " ++ constant)

mutual

/-- The lines of a tree in pre-order, indented by two blanks per level from `depth` on. -/
def prettyLines (depth : Nat) : Node → List String
  | ⟨kind, line, name, constant, children⟩ =>
    (String.join (List.replicate depth "  ") ++ headline kind line name constant) ::
      prettyLinesAll (depth + 1) children

/-- The lines of some trees that start at one depth. -/
def prettyLinesAll (depth : Nat) : List Node → List String
  | [] => []
  | n :: ns => prettyLines depth n ++ prettyLinesAll depth ns

end

/-- A tree with one line per node, each line ended by a line feed. -/
def pretty (n : Node) : String :=
  String.join ((prettyLines 0 n).map (· ++ "\n"))

/-- An expression with parentheses around every operation and no blanks. Operands are the first
children; a missing one is written as nothing. -/
def canonical : Node → String
  | ⟨.variableRef, _, name, _, _⟩ => name
  | ⟨.constant, _, _, constant, _⟩ => constant
  | ⟨.not, _, _, _, operand :: _⟩ => "(!" ++ operand.canonical ++ ")"
  | ⟨kind, _, _, _, left :: right :: _⟩ =>
    "(" ++ left.canonical ++ kind.operator.getD "" ++ right.canonical ++ ")"
  | _ => ""

end Node

end ProgramQuery
