/-!
# Kinds of nodes

The vocabulary of program trees: what a node stands for, the name that is printed for it, and the
operator between the operands of an expression.
-/

namespace ProgramQuery

/-- What a node of a program tree stands for. -/
inductive NodeKind where
  | program | procedure | statementList
  | assign | call | ifElse | print | read | whileLoop
  | not | and | or
  | greater | greaterEq | less | lessEq | equal | notEqual
  | plus | minus | multiply | divide | modulo
  | variableRef | constant
deriving DecidableEq

namespace NodeKind

/-- All kinds, from the outermost to the leaves. -/
def all : List NodeKind :=
  [program, procedure, statementList, assign, call, ifElse, print, read, whileLoop, not, and, or,
    greater, greaterEq, less, lessEq, equal, notEqual, plus, minus, multiply, divide, modulo,
    variableRef, constant]

/-- The printed name of a kind. -/
def label : NodeKind → String
  | program => "Program"
  | procedure => "Procedure"
  | statementList => "StatementList"
  | assign => "Assign"
  | call => "Call"
  | ifElse => "IfElse"
  | print => "Print"
  | read => "Read"
  | whileLoop => "While"
  | not => "Not"
  | and => "And"
  | or => "Or"
  | greater => "Greater"
  | greaterEq => "GreaterThanOrEqual"
  | less => "Lesser"
  | lessEq => "LesserThanOrEqual"
  | equal => "Equal"
  | notEqual => "NotEqual"
  | plus => "Plus"
  | minus => "Minus"
  | multiply => "Multiply"
  | divide => "Divide"
  | modulo => "Modulo"
  | variableRef => "Variable"
  | constant => "Constant"

/-- Whether nodes of this kind are statements, which are numbered. -/
def isStatement : NodeKind → Bool
  | assign | call | ifElse | print | read | whileLoop => true
  | _ => false

/-- Whether nodes of this kind are statements with a condition and blocks of statements. -/
def isContainer : NodeKind → Bool
  | ifElse | whileLoop => true
  | _ => false

/-- The operator that the kind puts before its operand or between its operands. -/
def operator : NodeKind → Option String
  | not => some "!"
  | and => some "&&"
  | or => some "||"
  | greater => some ">"
  | greaterEq => some ">="
  | less => some "<"
  | lessEq => some "<="
  | equal => some "=="
  | notEqual => some "!="
  | plus => some "+"
  | minus => some "-"
  | multiply => some "*"
  | divide => some "/"
  | modulo => some "%"
  | _ => none

end NodeKind

end ProgramQuery
