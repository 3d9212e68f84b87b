import ProgramQuery.Data.FinRel
import ProgramQuery.Tree.Basic

/-!
# The call graph

Procedures call each other by name. A program is rejected if a name is declared twice, if a call
has no declared target, or if a procedure can come back to itself through calls. The search that
looks for such a cycle also puts the procedures in an order in which callees come first.
-/

namespace ProgramQuery

/-- Why a tree is not a program with a meaning. -/
inductive SemanticError where
  /-- Two procedures have this name. -/
  | duplicateProcedure (name : String)
  /-- No procedure has this name, and one is called by it. -/
  | undefinedProcedure (name : String)
  /-- The procedure of this name can call itself, directly or through others. -/
  | cyclicCall (name : String)
deriving DecidableEq

/-- The wording of a semantic error. -/
def SemanticError.message : SemanticError → String
  | duplicateProcedure name => "Semantic error: duplicate procedure '" ++ name ++ "'"
  | undefinedProcedure name => "Semantic error: call to undefined procedure '" ++ name ++ "'"
  | cyclicCall name => "Semantic error: cyclic call involving procedure '" ++ name ++ "'"

/-- The names of the procedures of a program, in order of declaration. -/
def Node.procedureNames (program : Node) : List String :=
  program.children.map Node.name

/-- The names that are called below a node, in order and with repetitions. -/
def Node.callTargets (n : Node) : List String :=
  n.nodes.filterMap fun m => if m.kind = .call then some m.operandName else none

/-- Relates every procedure of a program to the names that it calls. -/
def Node.calls (program : Node) : FinRel String String :=
  .ofPairs <| program.children.flatMap fun procedure =>
    procedure.callTargets.map fun target => (procedure.name, target)

/-- Visits `name` and everything that it calls, unless it is already in `order`. The names in
`free` are those that are not on the chain of calls that leads here: a name outside of `free` has
come back to itself. Visited names are appended to `order`, callees in ascending order first. -/
def visitCalls (calls : FinRel String String) (free order : List String) (name : String) :
    Except SemanticError (List String) :=
  if name ∈ order then
    .ok order
  else if _free : name ∈ free then do
    let order ← (calls.image name).foldlM
      (fun order callee => visitCalls calls (free.erase name) order callee) order
    return order ++ [name]
  else
    .error (.cyclicCall name)
termination_by free.length
decreasing_by
  have := List.length_pos_of_mem _free
  rw [List.length_erase_of_mem _free]
  omega

/-- All declared and all called names, each after the names that it calls. -/
def Node.callOrder (program : Node) : Except SemanticError (List String) :=
  program.procedureNames.foldlM
    (visitCalls program.calls (ascending (program.procedureNames ++ program.callTargets))) []

/-- The first entry of a list that is also an earlier one, or one of `seen`. -/
def firstRepeat? (seen : List String) : List String → Option String
  | [] => none
  | name :: names => if name ∈ seen then some name else firstRepeat? (name :: seen) names

/-- Accepts programs with distinct procedures, declared call targets and no recursion. -/
def Node.validate (program : Node) : Except SemanticError Unit := do
  if let some name := firstRepeat? [] program.procedureNames then
    throw (.duplicateProcedure name)
  if let some name := program.callTargets.find? (· ∉ program.procedureNames) then
    throw (.undefinedProcedure name)
  let _ ← program.callOrder

end ProgramQuery
