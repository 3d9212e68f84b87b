import ProgramQuery.Facts.Basic

/-!
# Statements of a program by kind

Which statements there are of each kind, and the names that single statements are about.
-/

namespace ProgramQuery

namespace Facts

/-- The numbers of all statements. -/
def statements (facts : Facts) : List Nat :=
  List.range' 1 facts.kinds.size

/-- The kind of a statement. -/
def kindOf? (facts : Facts) (s : Nat) : Option NodeKind :=
  kindAt? facts.kinds s

/-- The numbers of the statements of one kind. -/
def statementsOfKind (facts : Facts) (kind : NodeKind) : List Nat :=
  facts.statements.filter fun s => facts.kindOf? s = some kind

/-- The name that a read, print or call statement of the given kind is about. -/
def operandAt? (facts : Facts) (kind : NodeKind) (s : Nat) : Option String :=
  if facts.kindOf? s = some kind then (facts.operands.image s).head? else none

/-- The statements of one kind that are about the given name. -/
def statementsAbout (facts : Facts) (kind : NodeKind) (name : String) : List Nat :=
  (facts.operands.preimage name).filter fun s => facts.kindOf? s = some kind

end Facts

end ProgramQuery
