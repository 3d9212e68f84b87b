import ProgramQuery.Facts.Entity
import ProgramQuery.Text.Blank

/-!
# Patterns

Which assignments have a given target and a given expression on their right side, and which loops
and branchings have a given variable in their condition. An underscore stands for any name.
-/

namespace ProgramQuery

/-- The sign that stands for anything. -/
def wildcard : String := "_"

namespace Facts

/-- The assignments to `target` whatever their right side. -/
def assignsTo (facts : Facts) (target : String) : List Nat :=
  if target = wildcard then
    facts.statementsOfKind .assign
  else
    (facts.modifies.preimage target).filter fun s => facts.kindOf? s = some .assign

/-- The assignments to `target` whose right side is the expression `pattern`, or if `asPart` has it
as a part. Of the patterns that are no expressions only a blank one matches, and only as a part. -/
def assignsMatching (facts : Facts) (target pattern : String) (asPart : Bool) : List Nat :=
  if trimmed pattern = "" then
    if asPart then facts.assignsTo target else []
  else
    match canonicalExpression pattern with
    | .error _ => []
    | .ok text =>
      ascending (((facts.occurrences.getD text []).filter fun o =>
        (target = wildcard ∨ o.target = target) ∧ (asPart ∨ ¬o.isPart)).map
          Occurrence.statement)

/-- The statements of one kind that have the given name in their condition. -/
def conditionsMatching (facts : Facts) (kind : NodeKind) (name : String) : List Nat :=
  let candidates :=
    if name = wildcard then facts.conditions.domain else facts.conditions.preimage name
  candidates.filter fun s => facts.kindOf? s = some kind

end Facts

end ProgramQuery
