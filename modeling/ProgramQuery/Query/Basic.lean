import ProgramQuery.Data.Ascending
import ProgramQuery.Query.Clause

/-!
# Queries

A query declares synonyms, selects elements and states clauses. The query that selects nothing
stands for a text that is not a query.
-/

namespace ProgramQuery

/-- An attribute of the entities that a synonym stands for. -/
inductive Attribute where
  /-- The name of a procedure. -/
  | procName
  /-- The name of the procedure that a call statement calls. -/
  | calledName
  /-- The name of a variable. -/
  | varName
  /-- The name of the variable that a read statement reads. -/
  | readName
  /-- The name of the variable that a print statement prints. -/
  | printedName
  /-- The value of a constant. -/
  | constValue
  /-- The number of a statement. -/
  | stmtNumber
deriving DecidableEq

namespace Attribute

/-- The attribute of the given name that entities of a kind have. -/
def ofName? : (name : String) → EntityKind → Option Attribute
  | "procName", .procedure => some procName
  | "procName", .call => some calledName
  | "varName", .variableName => some varName
  | "varName", .read => some readName
  | "varName", .print => some printedName
  | "value", .constant => some constValue
  | "stmt#", kind => if kind.isStatement && kind ≠ .progLine then some stmtNumber else none
  | _, _ => none

/-- What an argument is that consists of a synonym and this attribute. -/
def argumentKind : Attribute → ArgumentKind
  | procName => .procSynonym
  | calledName => .calledProcedure
  | varName => .varSynonym
  | readName => .readVariable
  | printedName => .printVariable
  | constValue => .constSynonym
  | stmtNumber => .stmtSynonym

end Attribute

/-- What a query wants to know of a selected element. -/
inductive ElementKind where
  /-- The entities themselves. -/
  | plain
  /-- An attribute of the entities. -/
  | attr (a : Attribute)
  /-- Only whether all clauses can hold. -/
  | boolean
deriving DecidableEq

/-- The printed name of a kind of element. -/
def ElementKind.label : ElementKind → String
  | plain => "Default"
  | attr .procName => "ProcName"
  | attr .calledName => "CallProcName"
  | attr .varName => "VarName"
  | attr .readName => "ReadVarName"
  | attr .printedName => "PrintVarName"
  | attr .constValue => "ConstValue"
  | attr .stmtNumber => "StmtNo"
  | boolean => "Boolean"

/-- All kinds of elements. -/
def ElementKind.all : List ElementKind :=
  [plain, attr .procName, attr .calledName, attr .varName, attr .readName,
    attr .printedName, attr .constValue, attr .stmtNumber, boolean]

/-- A selected element. -/
structure Element where
  /-- What is asked of the synonym. -/
  kind : ElementKind
  /-- The synonym. -/
  synonym : String
deriving DecidableEq

/-- The kind of entity that each declared synonym stands for. -/
abbrev Declarations := List (String × EntityKind)

/-- A question about a program. -/
structure Query where
  /-- The declared synonyms. -/
  declarations : Declarations := []
  /-- What the query selects. -/
  elements : List Element := []
  /-- What has to hold. -/
  clauses : List Clause := []
deriving DecidableEq

namespace Query

/-- Whether the query asks nothing. -/
def isEmpty (q : Query) : Bool :=
  q.elements.isEmpty

/-- Whether the query only asks if its clauses can hold. -/
def isBoolean (q : Query) : Bool :=
  match q.elements with
  | [element] => element.kind = .boolean
  | _ => false

/-- The selected synonyms, ascending. -/
def selected (q : Query) : List String :=
  ascending ((q.elements.filter fun e => e.kind ≠ .boolean).map Element.synonym)

/-- The declared synonyms, ascending, with what they stand for. -/
def sortedDeclarations (q : Query) : Declarations :=
  (ascending (q.declarations.map Prod.fst)).filterMap fun name =>
    (q.declarations.lookup name).map fun kind => (name, kind)

/-- A query on one line: declarations by name, then elements with what is asked of them, then
clauses. -/
def text (q : Query) : String :=
  String.join (q.sortedDeclarations.map fun d => d.2.label ++ " " ++ d.1 ++ "; ") ++ "Select" ++
    String.join (q.elements.map fun e => " " ++ e.synonym ++ ":" ++ e.kind.label) ++
    String.join (q.clauses.map fun c => " " ++ c.text)

end Query

end ProgramQuery
