import ProgramQuery.Data.Ascending
import ProgramQuery.Data.Stable

/-!
# Candidates

While a query is answered, every synonym has a list of candidates, and pairs of synonyms that a
clause relates have a list of pairs that are still possible. Candidates and pairs only ever get
fewer. They are settled when every pair is made of candidates and every candidate is in a pair of
each constraint on its synonym.

## Main definitions

- `Domains`: the candidates of every synonym.
- `Constraint`: the pairs that are possible for two synonyms.
- `Candidates`: both together.
- `Candidates.narrow`, `Candidates.constrain`: a clause about one synonym, and about two.
- `Candidates.settle?`: drops what has no support, until all has.

Where settling is a step of a definition it is a parameter, and `settle?` is its default.
-/

namespace ProgramQuery

/-- The candidates of every synonym. -/
structure Domains where
  /-- The candidates of a synonym before any clause. -/
  initial : String → List String
  /-- The candidates of the synonyms that clauses have been about. -/
  narrowed : List (String × List String) := []

namespace Domains

/-- The candidates of a synonym. -/
def get (d : Domains) (synonym : String) : List String :=
  (d.narrowed.lookup synonym).getD (d.initial synonym)

/-- Replaces the entry of a synonym, or adds one. -/
def replace (synonym : String) (values : List String) :
    List (String × List String) → List (String × List String)
  | [] => [(synonym, values)]
  | entry :: entries =>
    if entry.1 = synonym then
      (synonym, values) :: entries
    else
      entry :: replace synonym values entries

/-- Sets the candidates of a synonym. -/
def set (d : Domains) (synonym : String) (values : List String) : Domains :=
  { d with narrowed := replace synonym values d.narrowed }

/-- Keeps the candidates of a synonym that are allowed, and fails if there is none. -/
def restrict (d : Domains) (synonym : String) (allowed : List String) : Option Domains :=
  match keep allowed (d.get synonym) with
  | [] => none
  | value :: values => some (d.set synonym (value :: values))

end Domains

/-- The pairs of values that are possible for two synonyms. The synonyms are in ascending order,
and so are the two values of each pair. -/
structure Constraint where
  /-- The smaller synonym. -/
  first : String
  /-- The larger synonym. -/
  second : String
  /-- The pairs of a value for the smaller and a value for the larger synonym. -/
  pairs : List (String × String)
deriving DecidableEq

namespace Constraint

/-- The constraint on two synonyms in any order. -/
def of (a b : String) (pairs : List (String × String)) : Constraint :=
  if b < a then ⟨b, a, pairs.map Prod.swap⟩ else ⟨a, b, pairs⟩

/-- Adds a constraint to a list in ascending order of the synonyms. A constraint on the same
synonyms keeps only the pairs that both allow. -/
def insert (c : Constraint) : List Constraint → List Constraint
  | [] => [c]
  | d :: ds =>
    if d.first = c.first ∧ d.second = c.second then
      { d with pairs := keepBy comparePairs id c.pairs d.pairs } :: ds
    else if c.first < d.first ∨ c.first = d.first ∧ c.second < d.second then
      c :: d :: ds
    else
      d :: insert c ds

/-- Keeps the pairs of candidates. -/
def restrict (c : Constraint) (d : Domains) : Constraint :=
  let started := keepBy compare Prod.fst (d.get c.first) c.pairs
  { c with pairs := keepBy compare Prod.snd (d.get c.second) started }

/-- The number of pairs and of candidates that the constraint is about. -/
def size (c : Constraint) (d : Domains) : Nat :=
  c.pairs.length + (d.get c.first).length + (d.get c.second).length

end Constraint

/-- The candidates of the synonyms, and the constraints on pairs of them. -/
structure Candidates where
  /-- The candidates. -/
  domains : Domains
  /-- The constraints, in ascending order of their synonyms. -/
  constraints : List Constraint := []

namespace Candidates

/-- How many pairs and candidates there are, for each constraint. -/
def size (s : Candidates) : Nat :=
  s.constraints.foldr (fun c size => c.size s.domains + size) 0

/-- Takes some constraints one after another. Each keeps the pairs of candidates, and then its
synonyms keep the candidates in those pairs. -/
def sweep : List Constraint → Domains → Option (List Constraint × Domains)
  | [], d => some ([], d)
  | c :: cs, d => do
    let c := c.restrict d
    let d ← d.restrict c.first (c.pairs.map Prod.fst)
    let d ← d.restrict c.second (c.pairs.map Prod.snd)
    let (cs, d) ← sweep cs d
    return (c :: cs, d)

/-- Sweeps once through all constraints. -/
def sweepAll (s : Candidates) : Option Candidates := do
  let (constraints, domains) ← sweep s.constraints s.domains
  return { domains, constraints }

/-- Sweeps through the constraints until nothing more is dropped. It fails if a synonym loses its
last candidate. -/
def settle? (s : Candidates) : Option Candidates :=
  stabilise size sweepAll s

/-- Keeps the candidates of a synonym that are allowed, and settles if those are fewer. -/
def narrow (s : Candidates) (synonym : String) (allowed : List String)
    (settle : Candidates → Option Candidates := settle?) : Option Candidates := do
  let domains ← s.domains.restrict synonym allowed
  if domains.get synonym = s.domains.get synonym then
    return { s with domains }
  else
    settle { s with domains }

/-- Keeps the candidates of a synonym that pass a test. -/
def retain (s : Candidates) (synonym : String) (test : String → Bool)
    (settle : Candidates → Option Candidates := settle?) : Option Candidates :=
  s.narrow synonym ((s.domains.get synonym).filter test) settle

/-- Keeps the given pairs of values for two different synonyms, and settles. -/
def constrain (s : Candidates) (a b : String) (pairs : List (String × String))
    (settle : Candidates → Option Candidates := settle?) : Option Candidates :=
  settle { s with constraints := (Constraint.of a b pairs).insert s.constraints }

end Candidates

end ProgramQuery
