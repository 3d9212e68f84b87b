import ProgramQuery.Query.Basic
import ProgramQuery.Query.Candidates
import ProgramQuery.Query.Connection
import ProgramQuery.Query.Plan

/-!
# Applying clauses

Every clause of a plan narrows the candidates of its synonyms. When all clauses have been applied
they are applied once more from last to first, until that leaves the candidates as they are. The
query has no answer as soon as a synonym has no candidate, or a clause about no synonym does not
hold.

## Main definitions

- `initialDomain`: the entities of a program that a synonym stands for.
- `Candidates.apply`: what a clause leaves of the candidates.
- `evaluate?`: what all clauses of a query leave of the candidates.
-/

namespace ProgramQuery

/-- The entities of a program of one kind, ascending as texts. -/
def Facts.entities (facts : Facts) : EntityKind → List String
  | .stmt | .progLine => numberTexts facts.statements
  | .read => numberTexts (facts.statementsOfKind .read)
  | .print => numberTexts (facts.statementsOfKind .print)
  | .call => numberTexts (facts.statementsOfKind .call)
  | .whileLoop => numberTexts (facts.statementsOfKind .whileLoop)
  | .ifElse => numberTexts (facts.statementsOfKind .ifElse)
  | .assign => numberTexts (facts.statementsOfKind .assign)
  | .variableName => facts.variableNames
  | .constant => facts.constants
  | .procedure => facts.procedures

/-- The entities that a synonym stands for; none if it is not declared. -/
def initialDomain (facts : Facts) (declarations : Declarations) (synonym : String) : List String :=
  match declarations.lookup synonym with
  | none => []
  | some kind => facts.entities kind

/-- The name that the statement with a given number is about, if it is of a given kind. -/
def operandOf? (facts : Facts) (kind : NodeKind) (value : String) : Option String :=
  (numeral? value).bind (facts.operandAt? kind)

/-- What an equation compares of a candidate. -/
def ArgumentKind.attribute? (facts : Facts) : ArgumentKind → String → Option String
  | calledProcedure, value => operandOf? facts .call value
  | readVariable, value => operandOf? facts .read value
  | printVariable, value => operandOf? facts .print value
  | _, value => some value

namespace Candidates

/-- The same candidates, if a clause about no synonym holds. -/
def check (s : Candidates) (holds : Bool) : Option Candidates :=
  if holds then some s else none

/-- Applies a relation to two synonyms. -/
def applyPair (facts : Facts) (connection : Connection) (a b : String) (s : Candidates)
    (settle : Candidates → Option Candidates := settle?) : Option Candidates :=
  if a = b then
    s.retain a (fun value => value ∈ connection.rightsOf facts value) settle
  else
    s.constrain a b (keepBy compare Prod.snd (s.domains.get b) <|
      (s.domains.get a).flatMap fun left =>
        (connection.rightsOf facts left).map fun right => (left, right)) settle

/-- Applies a relation to two arguments. -/
def applyConnection (facts : Facts) (connection : Connection) (left right : Argument)
    (s : Candidates) (settle : Candidates → Option Candidates := settle?) : Option Candidates :=
  match left.role, right.role with
  | .invalid, _ | _, .invalid => none
  | .literal, .literal => s.check (right.value ∈ connection.rightsOf facts left.value)
  | .literal, .wildcard => s.check !(connection.rightsOf facts left.value).isEmpty
  | .wildcard, .literal => s.check !(connection.leftsOf facts right.value).isEmpty
  | .wildcard, .wildcard => s.check !(connection.lefts facts).isEmpty
  | .synonym, .literal => s.narrow left.value (connection.leftsOf facts right.value) settle
  | .literal, .synonym => s.narrow right.value (connection.rightsOf facts left.value) settle
  | .synonym, .wildcard => s.narrow left.value (connection.lefts facts) settle
  | .wildcard, .synonym => s.narrow right.value (connection.rights facts) settle
  | .synonym, .synonym => applyPair facts connection left.value right.value s settle

/-- Applies an equation between attributes of two synonyms. -/
def applyEqualPair (facts : Facts) (left right : Argument) (s : Candidates)
    (settle : Candidates → Option Candidates := settle?) : Option Candidates :=
  if left.value = right.value then
    s.retain left.value (fun value =>
      left.kind.attribute? facts value = right.kind.attribute? facts value) settle
  else
    let partners := groupPairs <| (s.domains.get right.value).filterMap fun b =>
      (right.kind.attribute? facts b).map fun name => (name, b)
    s.constrain left.value right.value ((s.domains.get left.value).flatMap fun a =>
      match left.kind.attribute? facts a with
      | none => []
      | some name => (partners.getD name []).map fun b => (a, b)) settle

/-- Keeps the candidates of a synonym whose attribute has a given value. -/
def applyEqualValue (facts : Facts) (argument : Argument) (value : String) (s : Candidates)
    (settle : Candidates → Option Candidates := settle?) : Option Candidates :=
  s.retain argument.value (fun candidate => argument.kind.attribute? facts candidate = some value)
    settle

/-- Applies an equation. Names and numbers are never equal. -/
def applyEquality (facts : Facts) (left right : Argument) (s : Candidates)
    (settle : Candidates → Option Candidates := settle?) : Option Candidates :=
  if left.kind.isNameValued?.isSome ∧ left.kind.isNameValued? = right.kind.isNameValued? then
    match left.role, right.role with
    | .literal, .literal => s.check (left.value = right.value)
    | .synonym, .literal => applyEqualValue facts left right.value s settle
    | .literal, .synonym => applyEqualValue facts right left.value s settle
    | .synonym, .synonym => applyEqualPair facts left right s settle
    | _, _ => none
  else
    none

/-- Whether a clause asks for an expression that its text is not. -/
def asksForNoExpression (c : Clause) : Bool :=
  (c.kind = .assignExact || c.kind = .assignPart) && !(canonicalExpression c.pattern).isOk

/-- What a clause leaves of the candidates. -/
def apply (facts : Facts) (c : Clause) (s : Candidates)
    (settle : Candidates → Option Candidates := settle?) : Option Candidates :=
  if c.kind = .equality then
    applyEquality facts c.left c.right s settle
  else if asksForNoExpression c then
    none
  else
    match Connection.ofClause? facts c with
    | none => none
    | some connection => applyConnection facts connection c.left c.right s settle

/-- What some clauses leave of the candidates, one after another. -/
def applyAll (facts : Facts) (clauses : List Clause) (s : Candidates) : Option Candidates :=
  clauses.foldlM (fun s c => apply facts c s) s

/-- How many candidates the synonyms of some clauses have, counted for each clause. -/
def sizeAt (clauses : List Clause) (s : Candidates) : Nat :=
  (clauses.flatMap Clause.synonyms).foldr (fun v size => (s.domains.get v).length + size) 0

/-- What a plan leaves of the candidates: its clauses are applied in order, and then backwards
until that leaves all synonyms as many candidates as before. -/
def run (facts : Facts) (clauses : List Clause) (s : Candidates) : Option Candidates := do
  let s ← applyAll facts clauses s
  stabilise (sizeAt clauses) (applyAll facts clauses.reverse) s

end Candidates

/-- What the clauses of a query leave of the candidates of its synonyms. -/
def evaluate? (facts : Facts) (q : Query) : Option Candidates := do
  let groups ← plan? q.clauses q.selected
  let domains : Domains := { initial := initialDomain facts q.declarations }
  Candidates.run facts groups.flatten { domains }

end ProgramQuery
