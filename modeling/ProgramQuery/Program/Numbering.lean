import ProgramQuery.Data.Grouping
import ProgramQuery.Tree.Basic

/-!
# Statement numbers

The statements of a tree are numbered from 1 in the order of the walk through it. A numbering is
the list of their paths in that order, so a number and a path each give the other. The numbers are
arranged by path when the numbering is made, and looked up from then on.

## Main statements

- `Numbering.numberOf?_eq`: the number of a path is its place in the list.
-/

namespace ProgramQuery

/-- The paths of the statements of a tree, the first being that of statement 1. -/
structure Numbering where
  /-- The paths, by ascending statement number. -/
  paths : List Path
  /-- The numbers by path. -/
  index : Std.TreeMap Path (List Nat) := groupPairs (paths.zipIdx 1)
  /-- The numbers are the places in the list, counted from 1. -/
  index_eq : index = groupPairs (paths.zipIdx 1) := by rfl

namespace Numbering

/-- The numbering of the statements of a tree. -/
def ofTree (tree : Node) : Numbering :=
  { paths := (tree.select NodeKind.isStatement).map Prod.fst }

/-- How many statements there are. -/
def count (numbers : Numbering) : Nat :=
  numbers.paths.length

/-- The number of the statement at a path. -/
def numberOf? (numbers : Numbering) (path : Path) : Option Nat :=
  (numbers.index.getD path []).head?

/-- The path of a statement. -/
def pathOf? (numbers : Numbering) : Nat → Option Path
  | 0 => none
  | n + 1 => numbers.paths[n]?

/-- The first entry of a path in a list that is counted from `k`. -/
theorem head?_zipIdx (paths : List Path) (path : Path) (k : Nat) :
    ((paths.zipIdx k).filterMap fun p => if p.1 = path then some p.2 else none).head? =
      (paths.idxOf? path).map (· + k) := by
  induction paths generalizing k with
  | nil => rfl
  | cons q paths ih =>
    by_cases hq : q = path
    · simp [hq, List.idxOf?_cons]
    · simp only [List.zipIdx_cons, hq, if_false, List.filterMap_cons_none, ih, List.idxOf?_cons,
        beq_iff_eq, Option.map_map]
      congr 1
      funext i
      simp only [Function.comp_apply]
      omega

/-- The number of a path is its place in the list, counted from 1. -/
theorem numberOf?_eq (numbers : Numbering) (path : Path) :
    numbers.numberOf? path = (numbers.paths.idxOf? path).map (· + 1) := by
  rw [numberOf?, numbers.index_eq, getD_groupPairs, head?_zipIdx]

/-- The numbers of the statements directly below the node at a path. -/
def membersAt (numbers : Numbering) (tree : Node) (path : Path) : List Nat :=
  match tree.at? path with
  | none => []
  | some node =>
    (List.range node.children.length).filterMap fun i => numbers.numberOf? (path ++ [i])

end Numbering

/-- A statement of a tree: its number, its path and its node. -/
structure Statement where
  /-- The statement's number. -/
  number : Nat
  /-- Where the statement is in its tree. -/
  path : Path
  /-- The statement itself. -/
  node : Node

/-- The statements of a tree by ascending number. -/
def Node.statements (tree : Node) : List Statement :=
  ((tree.select NodeKind.isStatement).zipIdx 1).map fun entry =>
    ⟨entry.2, entry.1.1, entry.1.2⟩

/-- The paths of all nodes of one kind, in the order of the walk. -/
def Node.pathsOfKind (tree : Node) (kind : NodeKind) : List Path :=
  (tree.select fun k => k = kind).map Prod.fst

end ProgramQuery
