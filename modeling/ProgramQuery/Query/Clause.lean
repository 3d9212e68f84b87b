/-!
# Clauses

A query declares synonyms for entities of a program and states clauses about them. A clause names
a relation and gives it two arguments, which may be synonyms, values or underscores.

## Main definitions

- `EntityKind`: what a synonym can stand for.
- `ClauseKind`: the relations that clauses can state, and what they cost.
- `Argument`, `Clause`: one side of a clause, and a clause.
-/

namespace ProgramQuery

/-- What a synonym stands for. -/
inductive EntityKind where
  | stmt | read | print | call | whileLoop | ifElse | assign
  | variableName | constant | procedure | progLine
deriving DecidableEq

namespace EntityKind

/-- All kinds of entities. -/
def all : List EntityKind :=
  [stmt, read, print, call, whileLoop, ifElse, assign, variableName, constant, procedure, progLine]

/-- The word that declares synonyms of a kind. -/
def keyword : EntityKind → String
  | stmt => "stmt"
  | read => "read"
  | print => "print"
  | call => "call"
  | whileLoop => "while"
  | ifElse => "if"
  | assign => "assign"
  | variableName => "variable"
  | constant => "constant"
  | procedure => "procedure"
  | progLine => "prog_line"

/-- The printed name of a kind. -/
def label : EntityKind → String
  | stmt => "Stmt"
  | read => "Read"
  | print => "Print"
  | call => "Call"
  | whileLoop => "While"
  | ifElse => "If"
  | assign => "Assign"
  | variableName => "Variable"
  | constant => "Constant"
  | procedure => "Procedure"
  | progLine => "ProgLine"

/-- The kind that a word declares. -/
def ofKeyword? (word : String) : Option EntityKind :=
  all.find? fun kind => kind.keyword = word

/-- Whether the entities of this kind are statements. -/
def isStatement : EntityKind → Bool
  | variableName | constant | procedure => false
  | _ => true

end EntityKind

/-- What a clause states about its two arguments. -/
inductive ClauseKind where
  | follows | followsStar | parent | parentStar | uses | modifies
  | calls | callsStar | next | nextStar | affects | affectsStar
  /-- The right side of an assignment is an expression. -/
  | assignExact
  /-- The right side of an assignment has an expression as a part. -/
  | assignPart
  /-- An assignment has the given target. -/
  | assignAny
  /-- A branching has a variable in its condition. -/
  | ifPattern
  /-- A loop has a variable in its condition. -/
  | whilePattern
  /-- Two attributes or values are equal. -/
  | equality
deriving DecidableEq

namespace ClauseKind

/-- The relation of the given name, in the starred form or in the plain one. -/
def ofRelation? : (name : String) → (starred : Bool) → Option ClauseKind
  | "Follows", false => some follows
  | "Follows", true => some followsStar
  | "Parent", false => some parent
  | "Parent", true => some parentStar
  | "Uses", false => some uses
  | "Modifies", false => some modifies
  | "Calls", false => some calls
  | "Calls", true => some callsStar
  | "Next", false => some next
  | "Next", true => some nextStar
  | "Affects", false => some affects
  | "Affects", true => some affectsStar
  | _, _ => none

/-- The printed name of a kind. -/
def label : ClauseKind → String
  | follows => "Follows"
  | followsStar => "Follows*"
  | parent => "Parent"
  | parentStar => "Parent*"
  | uses => "Uses"
  | modifies => "Modifies"
  | calls => "Calls"
  | callsStar => "Calls*"
  | next => "Next"
  | nextStar => "Next*"
  | affects => "Affects"
  | affectsStar => "Affects*"
  | assignExact => "pattern-exact"
  | assignPart => "pattern-sub"
  | assignAny => "pattern-any"
  | ifPattern => "pattern-if"
  | whilePattern => "pattern-while"
  | equality => "with"

/-- How much work a clause of this kind is expected to be. -/
def weight : ClauseKind → Nat
  | equality => 1
  | assignExact | assignPart | assignAny | ifPattern | whilePattern => 2
  | parent => 3
  | follows => 4
  | calls => 5
  | uses => 6
  | modifies => 7
  | next => 8
  | affects => 9
  | parentStar => 10
  | followsStar => 11
  | callsStar => 12
  | nextStar => 13
  | affectsStar => 14

/-- Whether clauses of this kind are written as patterns. -/
def isPattern : ClauseKind → Bool
  | assignExact | assignPart | assignAny | ifPattern | whilePattern => true
  | _ => false

end ClauseKind

/-- What an argument of a clause is. -/
inductive ArgumentKind where
  /-- A synonym for statements. -/
  | stmtSynonym
  /-- A synonym for variables. -/
  | varSynonym
  /-- A synonym for procedures. -/
  | procSynonym
  /-- A synonym for constants. -/
  | constSynonym
  /-- A name in quotes. -/
  | name
  /-- A number. -/
  | number
  /-- An underscore. -/
  | wildcard
  /-- The variable that a synonym for read statements reads. -/
  | readVariable
  /-- The variable that a synonym for print statements prints. -/
  | printVariable
  /-- The procedure that a synonym for calls calls. -/
  | calledProcedure
  /-- Nothing that a clause could be about. -/
  | invalid
deriving DecidableEq

/-- The part that an argument plays in a clause. -/
inductive Role where
  /-- It ranges over the candidates of a synonym. -/
  | synonym
  /-- It stands for itself. -/
  | literal
  /-- It stands for some value. -/
  | wildcard
  /-- It makes the clause false. -/
  | invalid
deriving DecidableEq

namespace ArgumentKind

/-- The part that arguments of this kind play. -/
def role : ArgumentKind → Role
  | stmtSynonym | varSynonym | procSynonym | constSynonym => .synonym
  | readVariable | printVariable | calledProcedure => .synonym
  | name | number => .literal
  | wildcard => .wildcard
  | invalid => .invalid

/-- Whether an equation takes the argument for a name, and not for a number. -/
def isNameValued? : ArgumentKind → Option Bool
  | name | varSynonym | procSynonym | readVariable | printVariable | calledProcedure => some true
  | number | stmtSynonym | constSynonym => some false
  | wildcard | invalid => none

end ArgumentKind

/-- One side of a clause: the name of a synonym, a value or an underscore. -/
structure Argument where
  /-- What the argument is. -/
  kind : ArgumentKind
  /-- Its text. -/
  value : String
deriving DecidableEq

namespace Argument

/-- The part that the argument plays. -/
def role (a : Argument) : Role :=
  a.kind.role

/-- The argument as a query would have it. -/
def text (a : Argument) : String :=
  match a.kind with
  | .name => "\"" ++ a.value ++ "\""
  | .readVariable | .printVariable => a.value ++ ".varName"
  | .calledProcedure => a.value ++ ".procName"
  | _ => a.value

end Argument

/-- A statement about two arguments. -/
structure Clause where
  /-- What is stated. -/
  kind : ClauseKind
  /-- The left argument. -/
  left : Argument
  /-- The right argument. -/
  right : Argument
  /-- The expression of a pattern on assignments; empty for all other clauses. -/
  pattern : String := ""
deriving DecidableEq

namespace Clause

/-- The synonyms that the clause is about, from left to right. -/
def synonyms (c : Clause) : List String :=
  ([c.left, c.right].filter fun a => a.role = .synonym).map Argument.value

/-- A clause on one line. -/
def text (c : Clause) : String :=
  c.kind.label ++ "(" ++ c.left.text ++ ", " ++ c.right.text ++
    (if c.pattern = "" then "" else ", \"" ++ c.pattern ++ "\"") ++ ")"

end Clause

end ProgramQuery
