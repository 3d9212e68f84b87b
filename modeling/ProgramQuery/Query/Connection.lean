import ProgramQuery.Facts.Matching
import ProgramQuery.Query.Clause
import ProgramQuery.Text.Numeral

/-!
# What clauses relate

The relation that a clause states, as a set of pairs of values. Values are texts: the decimal
numerals of statement numbers, and the names of variables and procedures. The partners of a value
can be asked for on both sides, as well as all values with a partner.

## Main definitions

- `Connection.ofClause?`: the relation that a clause states.
- `Connection.rightsOf`, `Connection.leftsOf`: the partners of one value.
- `Connection.lefts`, `Connection.rights`: the values that have a partner.
-/

namespace ProgramQuery

/-- The values for some statement numbers, ascending as texts. -/
def numberTexts (numbers : List Nat) : List String :=
  ascending (numbers.map toString)

/-- A relation between values, by what it relates. -/
inductive Connection where
  /-- Statements and statements, by one pair or by a chain of pairs. -/
  | statements (r : FinRel Nat Nat) (starred : Bool)
  /-- Procedures and procedures, by one pair or by a chain of pairs. -/
  | procedures (r : FinRel String String) (starred : Bool)
  /-- Statements and procedures on the left and variables on the right. -/
  | accesses (ofStatement : FinRel Nat String) (ofProcedure : FinRel String String)
  /-- Assignments with a given expression and their targets. -/
  | assignments (expression : String) (asPart : Bool)
  /-- Statements of a kind and the variables in their conditions. -/
  | conditions (kind : NodeKind)

namespace Connection

/-- The relation that a clause states about the entities of a program. Equations are about
attributes, and relate nothing by themselves. -/
def ofClause? (facts : Facts) (c : Clause) : Option Connection :=
  match c.kind with
  | .follows => some (.statements facts.follows false)
  | .followsStar => some (.statements facts.follows true)
  | .parent => some (.statements facts.parent false)
  | .parentStar => some (.statements facts.parent true)
  | .next => some (.statements facts.next false)
  | .nextStar => some (.statements facts.next true)
  | .affects => some (.statements facts.affects false)
  | .affectsStar => some (.statements facts.affects true)
  | .calls => some (.procedures facts.calls false)
  | .callsStar => some (.procedures facts.calls true)
  | .uses => some (.accesses facts.uses facts.procedureUses)
  | .modifies => some (.accesses facts.modifies facts.procedureModifies)
  | .assignExact => some (.assignments c.pattern false)
  | .assignPart => some (.assignments c.pattern true)
  | .assignAny => some (.assignments "" true)
  | .ifPattern => some (.conditions .ifElse)
  | .whilePattern => some (.conditions .whileLoop)
  | .equality => none

/-- The values to the left of a value, ascending. Only a numeral is a statement, and no numeral is
a name. -/
def leftsOf (facts : Facts) (connection : Connection) (right : String) : List String :=
  match connection, numeral? right with
  | statements r starred, some s => numberTexts (r.before s starred)
  | procedures r starred, none => r.before right starred
  | accesses ofStatement ofProcedure, none =>
    ascending ((ofStatement.preimage right).map toString ++ ofProcedure.preimage right)
  | assignments expression asPart, _ =>
    numberTexts (facts.assignsMatching right expression asPart)
  | conditions kind, _ => numberTexts (facts.conditionsMatching kind right)
  | _, _ => []

/-- The values to the right of a value, ascending. Only a numeral is a statement, and no numeral is
a name. -/
def rightsOf (facts : Facts) (connection : Connection) (left : String) : List String :=
  match connection, numeral? left with
  | statements r starred, some s => numberTexts (r.after s starred)
  | procedures r starred, none => r.after left starred
  | accesses ofStatement _, some s => ofStatement.image s
  | accesses _ ofProcedure, none => ofProcedure.image left
  | assignments expression asPart, some s =>
    (facts.modifies.image s).filter (left ∈ leftsOf facts (assignments expression asPart) ·)
  | conditions kind, some s =>
    (facts.conditions.image s).filter (left ∈ leftsOf facts (conditions kind) ·)
  | _, _ => []

/-- The values with a partner to their right, ascending. -/
def lefts (facts : Facts) (connection : Connection) : List String :=
  match connection with
  | statements r _ => numberTexts r.domain
  | procedures r _ => r.domain
  | accesses ofStatement ofProcedure =>
    ascending (ofStatement.domain.map toString ++ ofProcedure.domain)
  | assignments _ _ | conditions _ => leftsOf facts connection wildcard

/-- The values with a partner to their left, ascending. -/
def rights (facts : Facts) (connection : Connection) : List String :=
  match connection with
  | statements r _ => numberTexts r.range
  | procedures r _ => r.range
  | accesses ofStatement _ => ofStatement.range
  | assignments _ _ | conditions _ =>
    ascending ((lefts facts connection).flatMap (rightsOf facts connection))

end Connection

end ProgramQuery
