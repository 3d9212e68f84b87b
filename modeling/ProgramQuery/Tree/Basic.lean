import ProgramQuery.Tree.Kind

/-!
# Program trees

A node has a kind, the line it comes from, a name or a constant where its kind has one, and
children. Nodes are addressed by paths, and `walk` lists a tree in pre-order with the path of
every node. Nothing here asks which children a kind should have.

## Main definitions

- `Node.at?`: the node at the end of a path.
- `Node.walk`: every node of a tree with its path, parents before children, left to right.
- `Node.select`: the nodes of some kinds with their paths, in the order of the walk.
- `Node.variableNames`: the names of the variables below a node.

## Main statements

- `Node.select_eq`: the selected nodes are those that the walk finds.
-/

namespace ProgramQuery

/-- Child indices from a root down to a node. -/
abbrev Path := List Nat

/-- A node of a program tree together with all nodes below it. -/
structure Node where
  /-- What the node stands for. -/
  kind : NodeKind
  /-- The line of the token that makes the node, if it comes from a text. -/
  line : Option Nat := none
  /-- The name of a procedure or a variable, and the target of an assignment. -/
  name : String := ""
  /-- The digits of a constant. -/
  constant : String := ""
  /-- The nodes directly below. -/
  children : List Node := []

namespace Node

mutual

/-- Whether two trees are the same. -/
def decEq : (a b : Node) → Decidable (a = b)
  | ⟨kind, line, name, constant, children⟩, ⟨kind', line', name', constant', children'⟩ =>
    have := decEqList children children'
    decidable_of_iff
      ((kind = kind' ∧ line = line') ∧ name = name' ∧ constant = constant' ∧ children = children')
      (by simp [and_assoc])

/-- Whether two lists of trees are the same. -/
def decEqList : (as bs : List Node) → Decidable (as = bs)
  | [], [] => isTrue rfl
  | [], _ :: _ => isFalse nofun
  | _ :: _, [] => isFalse nofun
  | a :: as, b :: bs =>
    have := decEq a b
    have := decEqList as bs
    decidable_of_iff (a = b ∧ as = bs) (by simp)

end

instance : DecidableEq Node := decEq

/-- The node at the end of a path, if the path stays inside the tree. -/
def at? : Node → Path → Option Node
  | n, [] => some n
  | n, i :: path => n.children[i]?.bind (at? · path)

mutual

/-- Every node of a tree in pre-order, with its path from the root. -/
def walk : Node → List (Path × Node)
  | ⟨kind, line, name, constant, children⟩ =>
    ([], ⟨kind, line, name, constant, children⟩) :: walkFrom 0 children

/-- The walks through some siblings, the first of which is child `i` of its parent. -/
def walkFrom (i : Nat) : List Node → List (Path × Node)
  | [] => []
  | n :: siblings => n.walk.map (fun entry => (i :: entry.1, entry.2)) ++ walkFrom (i + 1) siblings

end

mutual

/-- Puts the nodes of a tree in pre-order before `rest`. Each has its way back to the root, and
`back` is that of the tree itself. Ways back share their ends, so a node takes one step. -/
def visits (back : Path) : Node → List (Path × Node) → List (Path × Node)
  | ⟨kind, line, name, constant, children⟩, rest =>
    (back, ⟨kind, line, name, constant, children⟩) :: visitsFrom back 0 children rest

/-- Puts the nodes of some siblings before `rest`. The first is child `i` of its parent, whose way
back is given. -/
def visitsFrom (back : Path) (i : Nat) : List Node → List (Path × Node) → List (Path × Node)
  | [], rest => rest
  | n :: siblings, rest => visits (i :: back) n (visitsFrom back (i + 1) siblings rest)

end

/-- The nodes of a tree of the wanted kinds in pre-order, with their paths. -/
def select (n : Node) (wanted : NodeKind → Bool) : List (Path × Node) :=
  ((n.visits [] []).filter fun entry => wanted entry.2.kind).map fun entry =>
    (entry.1.reverse, entry.2)

/-- Every node of a tree in pre-order. -/
def nodes (n : Node) : List Node :=
  (n.visits [] []).map Prod.snd

/-- The names of all variables in a tree, from left to right and with repetitions. -/
def variableNames (n : Node) : List String :=
  n.nodes.filterMap fun m => if m.kind = .variableRef then some m.name else none

/-- The name of the first child: the operand of a read, print or call statement, and the target
of an assignment. -/
def operandName (n : Node) : String :=
  match n.children with
  | [] => ""
  | operand :: _ => operand.name

mutual

/-- A visit goes the same way as the walk. -/
theorem visits_eq (back : Path) : (n : Node) → (rest : List (Path × Node)) →
    n.visits back rest =
      (n.walk.map fun entry => (entry.1.reverse ++ back, entry.2)) ++ rest
  | ⟨kind, line, name, constant, children⟩, rest => by
    simp [visits, walk, visitsFrom_eq back 0 children rest]

/-- A visit of siblings goes the same way as the walk through them. -/
theorem visitsFrom_eq (back : Path) (i : Nat) : (ns : List Node) →
    (rest : List (Path × Node)) →
    visitsFrom back i ns rest =
      ((walkFrom i ns).map fun entry => (entry.1.reverse ++ back, entry.2)) ++ rest
  | [], rest => by simp [visitsFrom, walkFrom]
  | n :: siblings, rest => by
    simp [visitsFrom, walkFrom, visits_eq (i :: back) n, visitsFrom_eq back (i + 1) siblings rest]

end

/-- The selected nodes are those that the walk finds. -/
theorem select_eq (n : Node) (wanted : NodeKind → Bool) :
    n.select wanted = n.walk.filter fun entry => wanted entry.2.kind := by
  simp only [select, visits_eq, List.append_nil, List.filter_map, List.map_map]
  rw [List.map_congr_left (g := id) (by simp), List.map_id]
  rfl

/-- The nodes are those of the walk. -/
theorem nodes_eq (n : Node) : n.nodes = n.walk.map Prod.snd := by
  simp [nodes, visits_eq]

end Node

end ProgramQuery
