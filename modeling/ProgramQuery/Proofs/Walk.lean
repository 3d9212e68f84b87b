import ProgramQuery.Program.Numbering

/-!
# The walk through a tree and the numbers of statements

The walk meets the node at the end of every path once, and in the order of the paths. So a
statement number and the path of that statement determine each other.

## Main definitions

- `Node.collect`: what all nodes of a tree contribute, in the order of the walk.

## Main statements

- `Node.mem_walk`: the walk meets exactly the nodes at the ends of paths.
- `Node.pairwise_walk`: the walk is in strictly ascending order of paths.
- `Node.mem_statements`: the numbered statements of a tree, by path and number.
- `Numbering.lt_iff`: numbers are in the order of paths.
- `numbering_ordered_bijection`: numbers and paths of statements determine each other, in order.
-/

namespace ProgramQuery

/-- In an ascending list of paths, places are in the order of the paths. -/
theorem Path.lt_iff_of_pairwise {paths : List Path} (h : paths.Pairwise (· < ·)) {i j : Nat}
    {p q : Path} (hp : paths[i]? = some p) (hq : paths[j]? = some q) : p < q ↔ i < j := by
  obtain ⟨hi, rfl⟩ := List.getElem?_eq_some_iff.mp hp
  obtain ⟨hj, rfl⟩ := List.getElem?_eq_some_iff.mp hq
  have hordered := List.pairwise_iff_getElem.mp h
  refine ⟨fun hlt => ?_, hordered i j hi hj⟩
  rcases Nat.lt_trichotomy i j with hij | rfl | hji
  · exact hij
  · exact absurd hlt (List.lt_irrefl _)
  · exact absurd hlt (List.lt_asymm (hordered j i hj hi hji))

namespace Node

mutual

theorem at?_of_mem_walk : {n : Node} → {path : Path} → {m : Node} →
    (path, m) ∈ n.walk → n.at? path = some m
  | ⟨kind, line, name, constant, children⟩, path, m, h => by
    rw [walk, List.mem_cons] at h
    rcases h with h | h
    · obtain ⟨rfl, rfl⟩ := Prod.mk.inj h
      rfl
    · obtain ⟨j, rest, rfl, hat⟩ := at?_of_mem_walkFrom h
      simpa [at?] using hat

theorem at?_of_mem_walkFrom : {i : Nat} → {ns : List Node} → {path : Path} → {m : Node} →
    (path, m) ∈ walkFrom i ns →
      ∃ j rest, path = (i + j) :: rest ∧ (ns[j]?.bind fun n => n.at? rest) = some m
  | i, [], path, m, h => by cases h
  | i, n :: ns, path, m, h => by
    rw [walkFrom, List.mem_append] at h
    rcases h with h | h
    · obtain ⟨⟨rest, m'⟩, hmem, heq⟩ := List.mem_map.mp h
      obtain ⟨rfl, rfl⟩ := Prod.mk.inj heq
      exact ⟨0, rest, rfl, by simpa using at?_of_mem_walk hmem⟩
    · obtain ⟨j, rest, rfl, hat⟩ := at?_of_mem_walkFrom h
      exact ⟨j + 1, rest, by simp [Nat.add_assoc, Nat.add_comm 1 j], by simpa using hat⟩

end

mutual

theorem mem_walk_of_at? : {n : Node} → {path : Path} → {m : Node} →
    n.at? path = some m → (path, m) ∈ n.walk
  | ⟨kind, line, name, constant, children⟩, [], m, h => by
    obtain rfl := Option.some.inj h
    rw [walk]
    exact List.mem_cons_self
  | ⟨kind, line, name, constant, children⟩, i :: rest, m, h => by
    rw [walk]
    refine List.mem_cons_of_mem _ ?_
    have hfrom : ((0 + i) :: rest, m) ∈ walkFrom 0 children := mem_walkFrom_of_at? h
    simpa using hfrom

theorem mem_walkFrom_of_at? : {i : Nat} → {ns : List Node} → {j : Nat} → {rest : Path} →
    {m : Node} → (ns[j]?.bind fun n => n.at? rest) = some m → ((i + j) :: rest, m) ∈ walkFrom i ns
  | i, [], j, rest, m, h => by simp at h
  | i, n :: ns, 0, rest, m, h => by
    rw [walkFrom]
    refine List.mem_append_left _ (List.mem_map.mpr ⟨(rest, m), ?_, rfl⟩)
    exact mem_walk_of_at? (by simpa using h)
  | i, n :: ns, j + 1, rest, m, h => by
    rw [walkFrom]
    refine List.mem_append_right _ ?_
    have hfrom : ((i + 1 + j) :: rest, m) ∈ walkFrom (i + 1) ns :=
      mem_walkFrom_of_at? (by simpa using h)
    have hindex : i + 1 + j = i + (j + 1) := by omega
    rwa [hindex] at hfrom

end

/-- The walk meets exactly the nodes at the ends of paths. -/
theorem mem_walk {n : Node} {path : Path} {m : Node} :
    (path, m) ∈ n.walk ↔ n.at? path = some m :=
  ⟨at?_of_mem_walk, mem_walk_of_at?⟩

mutual

/-- The walk is in strictly ascending order of paths, parents before children. -/
theorem pairwise_walk : (n : Node) → (n.walk.map Prod.fst).Pairwise (· < ·)
  | ⟨kind, line, name, constant, children⟩ => by
    rw [walk, List.map_cons, List.pairwise_cons]
    refine ⟨?_, pairwise_walkFrom 0 children⟩
    intro path hpath
    obtain ⟨⟨path', m⟩, hmem, rfl⟩ := List.mem_map.mp hpath
    obtain ⟨j, rest, rfl, -⟩ := at?_of_mem_walkFrom hmem
    exact List.nil_lt_cons _ _

theorem pairwise_walkFrom : (i : Nat) → (ns : List Node) →
    ((walkFrom i ns).map Prod.fst).Pairwise (· < ·)
  | i, [] => by simp [walkFrom]
  | i, n :: ns => by
    rw [walkFrom, List.map_append, List.pairwise_append]
    refine ⟨?_, pairwise_walkFrom (i + 1) ns, ?_⟩
    · have hn := pairwise_walk n
      rw [List.map_map]
      refine List.pairwise_map.mpr ((List.pairwise_map.mp hn).imp ?_)
      intro a b hab
      exact List.cons_lt_cons_self.mpr hab
    · -- the paths into the first sibling come before those into the later ones
      intro path hpath path' hpath'
      obtain ⟨entry, hmem, rfl⟩ := List.mem_map.mp hpath
      obtain ⟨entry', -, rfl⟩ := List.mem_map.mp hmem
      obtain ⟨⟨path', m⟩, hmem', rfl⟩ := List.mem_map.mp hpath'
      obtain ⟨j, rest, rfl, -⟩ := at?_of_mem_walkFrom hmem'
      exact List.cons_lt_cons_iff.mpr (.inl (by omega))

end

theorem nodup_walk (n : Node) : (n.walk.map Prod.fst).Nodup :=
  (pairwise_walk n).imp fun {a b} (hab : a < b) (heq : a = b) => List.lt_irrefl b (heq ▸ hab)

theorem at?_append (n : Node) (p q : Path) : n.at? (p ++ q) = (n.at? p).bind (at? · q) := by
  induction p generalizing n with
  | nil => rfl
  | cons i p ih =>
    simp only [List.cons_append, at?]
    cases n.children[i]? with
    | none => rfl
    | some child => exact ih child

/-! ## Contributions of all nodes -/

/-- What the nodes of a tree at a path contribute, each by its path and itself. -/
def collect {β : Type} (f : Path → Node → List β) (path : Path) (n : Node) : List β :=
  n.walk.flatMap fun entry => f (path ++ entry.1) entry.2

/-- What the nodes of some siblings contribute, the first of which is child `i` of the node at a
path. -/
def collectFrom {β : Type} (f : Path → Node → List β) (path : Path) (i : Nat) (ns : List Node) :
    List β :=
  (walkFrom i ns).flatMap fun entry => f (path ++ entry.1) entry.2

section Collect

variable {β : Type} {f : Path → Node → List β}

theorem collect_mk (path : Path) (kind : NodeKind) (line : Option Nat) (name constant : String)
    (children : List Node) :
    collect f path ⟨kind, line, name, constant, children⟩ =
      f path ⟨kind, line, name, constant, children⟩ ++ collectFrom f path 0 children := by
  simp [collect, collectFrom, walk]

@[simp]
theorem collectFrom_nil (path : Path) (i : Nat) : collectFrom f path i [] = [] := by
  simp [collectFrom, walkFrom]

@[simp]
theorem collectFrom_cons (path : Path) (i : Nat) (n : Node) (ns : List Node) :
    collectFrom f path i (n :: ns) =
      collect f (path ++ [i]) n ++ collectFrom f path (i + 1) ns := by
  simp [collect, collectFrom, walkFrom, List.flatMap_map]

theorem mem_collect {path : Path} {n : Node} {b : β} :
    b ∈ collect f path n ↔ ∃ rest m, n.at? rest = some m ∧ b ∈ f (path ++ rest) m := by
  rw [collect, List.mem_flatMap]
  constructor
  · rintro ⟨⟨rest, m⟩, hmem, hb⟩
    exact ⟨rest, m, mem_walk.mp hmem, hb⟩
  · rintro ⟨rest, m, hat, hb⟩
    exact ⟨(rest, m), mem_walk.mpr hat, hb⟩

end Collect

end Node

/-! ## Numbers -/

namespace Numbering

theorem paths_ofTree (tree : Node) : (ofTree tree).paths =
    (tree.walk.filter fun entry => entry.2.kind.isStatement).map Prod.fst :=
  congrArg (List.map Prod.fst) (tree.select_eq _)

theorem mem_paths_ofTree {tree : Node} {path : Path} :
    path ∈ (ofTree tree).paths ↔ ∃ m, tree.at? path = some m ∧ m.kind.isStatement = true := by
  simp only [paths_ofTree, List.mem_map, List.mem_filter]
  constructor
  · rintro ⟨⟨path', m⟩, ⟨hmem, hkind⟩, rfl⟩
    exact ⟨m, Node.mem_walk.mp hmem, hkind⟩
  · rintro ⟨m, hat, hkind⟩
    exact ⟨(path, m), ⟨Node.mem_walk.mpr hat, hkind⟩, rfl⟩

theorem nodup_paths_ofTree (tree : Node) : (ofTree tree).paths.Nodup := by
  rw [paths_ofTree]
  exact (List.filter_sublist.map Prod.fst).nodup tree.nodup_walk

/-- The number of a path and the path of a number are inverse to each other. -/
theorem numberOf?_eq_some_iff {tree : Node} {path : Path} {number : Nat} :
    (ofTree tree).numberOf? path = some number ↔ (ofTree tree).pathOf? number = some path := by
  rw [numberOf?_eq, Option.map_eq_some_iff]
  constructor
  · rintro ⟨i, hi, rfl⟩
    obtain ⟨hlen, hget, -⟩ := List.idxOf?_eq_some_iff.mp hi
    rw [pathOf?, List.getElem?_eq_getElem hlen, hget]
  · intro h
    cases number with
    | zero => cases h
    | succ i =>
      obtain ⟨hlen, hget⟩ := List.getElem?_eq_some_iff.mp h
      refine ⟨i, List.idxOf?_eq_some_iff.mpr ⟨hlen, hget, ?_⟩, rfl⟩
      -- an earlier position of the same path would make it occur twice
      intro j hj heq
      have hsame := (List.getElem_inj (nodup_paths_ofTree tree)).mp (heq.trans hget.symm)
      omega

theorem exists_numberOf? {numbers : Numbering} {path : Path} (h : path ∈ numbers.paths) :
    ∃ number, numbers.numberOf? path = some number := by
  obtain ⟨i, hi⟩ := Option.isSome_iff_exists.mp (List.isSome_idxOf?.mpr h)
  exact ⟨i + 1, by rw [numberOf?_eq, hi]; rfl⟩

theorem numberOf?_injective {tree : Node} {p q : Path} {number : Nat}
    (hp : (ofTree tree).numberOf? p = some number)
    (hq : (ofTree tree).numberOf? q = some number) : p = q :=
  Option.some.inj ((numberOf?_eq_some_iff.mp hp).symm.trans (numberOf?_eq_some_iff.mp hq))

/-- Numbers start at 1 and end with the count of statements. -/
theorem numberOf?_bounds {numbers : Numbering} {path : Path} {number : Nat}
    (h : numbers.numberOf? path = some number) : 1 ≤ number ∧ number ≤ numbers.count := by
  rw [numberOf?_eq] at h
  obtain ⟨i, hi, rfl⟩ := Option.map_eq_some_iff.mp h
  obtain ⟨hlen, -, -⟩ := List.idxOf?_eq_some_iff.mp hi
  rw [count]
  omega

theorem isSome_pathOf?_iff {numbers : Numbering} {number : Nat} :
    (numbers.pathOf? number).isSome = true ↔ 1 ≤ number ∧ number ≤ numbers.count := by
  cases number with
  | zero => simp [pathOf?]
  | succ i =>
    have hsome : (numbers.paths[i]?).isSome = true ↔ i < numbers.paths.length := by simp
    rw [pathOf?, count, hsome]
    omega

theorem isSome_numberOf?_iff {tree : Node} {path : Path} :
    ((ofTree tree).numberOf? path).isSome = true ↔
      ∃ m, tree.at? path = some m ∧ m.kind.isStatement = true := by
  rw [← mem_paths_ofTree, numberOf?_eq, Option.isSome_map, List.isSome_idxOf?]

/-- Numbers are in the order of paths. -/
theorem lt_iff {tree : Node} {p q : Path} {a b : Nat} (ha : (ofTree tree).numberOf? p = some a)
    (hb : (ofTree tree).numberOf? q = some b) : p < q ↔ a < b := by
  have hsorted : (ofTree tree).paths.Pairwise (· < ·) := by
    rw [paths_ofTree]
    exact tree.pairwise_walk.sublist (List.filter_sublist.map Prod.fst)
  rw [numberOf?_eq_some_iff] at ha hb
  rcases a with _ | i
  · cases ha
  rcases b with _ | j
  · cases hb
  exact (Path.lt_iff_of_pairwise hsorted ha hb).trans Nat.succ_lt_succ_iff.symm

end Numbering

/-- The numbered statements of a tree, by path and number. -/
theorem Node.mem_statements {tree : Node} {s : Statement} :
    s ∈ tree.statements ↔ tree.at? s.path = some s.node ∧ s.node.kind.isStatement = true ∧
      (Numbering.ofTree tree).numberOf? s.path = some s.number := by
  obtain ⟨number, path, node⟩ := s
  -- both sides are about position `number - 1` of the statements that the walk meets
  have hstatements : ⟨number, path, node⟩ ∈ tree.statements ↔ 1 ≤ number ∧
      (tree.walk.filter fun entry => entry.2.kind.isStatement)[number - 1]? =
        some (path, node) := by
    simp only [statements, select_eq, List.mem_map, Statement.mk.injEq]
    constructor
    · rintro ⟨⟨entry, k⟩, hmem, rfl, rfl, rfl⟩
      exact List.mk_mem_zipIdx_iff_le_and_getElem?_sub.mp hmem
    · rintro ⟨hle, hget⟩
      exact ⟨((path, node), number),
        List.mk_mem_zipIdx_iff_le_and_getElem?_sub.mpr ⟨hle, hget⟩, rfl, rfl, rfl⟩
  have hpath : (Numbering.ofTree tree).numberOf? path = some number ↔ 1 ≤ number ∧
      ((tree.walk.filter fun entry => entry.2.kind.isStatement)[number - 1]?.map Prod.fst) =
        some path := by
    rw [Numbering.numberOf?_eq_some_iff, ← List.getElem?_map, ← Numbering.paths_ofTree]
    cases number with
    | zero => simp [Numbering.pathOf?]
    | succ i => simp [Numbering.pathOf?]
  rw [hstatements]
  dsimp only
  rw [hpath]
  constructor
  · rintro ⟨hle, hget⟩
    obtain ⟨hwalk, hkind⟩ := List.mem_filter.mp (List.mem_of_getElem? hget)
    exact ⟨mem_walk.mp hwalk, hkind, hle, by rw [hget]; rfl⟩
  · rintro ⟨hat, -, hle, hget⟩
    obtain ⟨⟨path', node'⟩, hentry, rfl⟩ := Option.map_eq_some_iff.mp hget
    have hat' := mem_walk.mp (List.mem_filter.mp (List.mem_of_getElem? hentry)).1
    obtain rfl := Option.some.inj (hat'.symm.trans hat)
    exact ⟨hle, hentry⟩

/-! ## The order of visits and of numbers -/

namespace Node

/-- Visits are in the order of paths, a parent before what is below it. -/
theorem walk_lt_iff {tree : Node} {i j : Nat} {entry entry' : Path × Node}
    (hi : tree.walk[i]? = some entry) (hj : tree.walk[j]? = some entry') :
    entry.1 < entry'.1 ↔ i < j := by
  refine Path.lt_iff_of_pairwise tree.pairwise_walk ?_ ?_
  · rw [List.getElem?_map, hi, Option.map_some]
  · rw [List.getElem?_map, hj, Option.map_some]

/-- The node at the end of a path is visited once. -/
theorem at?_iff_visited_once {tree : Node} {path : Path} {node : Node} :
    tree.at? path = some node ↔
      ∃ i : Nat, ∀ j : Nat, tree.walk[j]? = some (path, node) ↔ j = i := by
  constructor
  · intro hat
    obtain ⟨i, hi⟩ := List.getElem?_of_mem (mem_walk.mpr hat)
    refine ⟨i, fun j => ⟨fun hj => ?_, fun hj => hj ▸ hi⟩⟩
    -- a visit before or after it would be one of another path
    have hij : ¬i < j := fun hlt => List.lt_irrefl path ((walk_lt_iff hi hj).mpr hlt)
    have hji : ¬j < i := fun hlt => List.lt_irrefl path ((walk_lt_iff hj hi).mpr hlt)
    omega
  · rintro ⟨i, hi⟩
    exact mem_walk.mp (List.mem_of_getElem? ((hi i).mpr rfl))

end Node

/-- The walk visits the node at the end of every path once, and paths in ascending order. Hence a
number and the path of its statement determine each other. The numbers are those from 1 to the
count, the paths are those of the statements, and both are in the same order. -/
theorem numbering_ordered_bijection (tree : Node) :
    (∀ path node, tree.at? path = some node ↔
      ∃ i : Nat, ∀ j : Nat, tree.walk[j]? = some (path, node) ↔ j = i) ∧
    (∀ (i j : Nat) (entry entry' : Path × Node), tree.walk[i]? = some entry →
      tree.walk[j]? = some entry' → (entry.1 < entry'.1 ↔ i < j)) ∧
    (∀ number path, (Numbering.ofTree tree).pathOf? number = some path ↔
      (Numbering.ofTree tree).numberOf? path = some number) ∧
    (∀ number, ((Numbering.ofTree tree).pathOf? number).isSome = true ↔
      1 ≤ number ∧ number ≤ (Numbering.ofTree tree).count) ∧
    (∀ path, ((Numbering.ofTree tree).numberOf? path).isSome = true ↔
      ∃ node, tree.at? path = some node ∧ node.kind.isStatement = true) ∧
    ∀ a b p q, (Numbering.ofTree tree).pathOf? a = some p →
      (Numbering.ofTree tree).pathOf? b = some q → (p < q ↔ a < b) :=
  ⟨fun _ _ => Node.at?_iff_visited_once, fun _ _ _ _ => Node.walk_lt_iff,
    fun _ _ => Numbering.numberOf?_eq_some_iff.symm, fun _ => Numbering.isSome_pathOf?_iff,
    fun _ => Numbering.isSome_numberOf?_iff, fun _ _ _ _ ha hb =>
      Numbering.lt_iff (Numbering.numberOf?_eq_some_iff.mpr ha)
        (Numbering.numberOf?_eq_some_iff.mpr hb)⟩

/-- A tree that no text has: a loop with a statement in its condition. -/
def readingLoop : Node :=
  { kind := .program
    children := [
      { kind := .whileLoop
        children := [{ kind := .plus, children := [{ kind := .read }] }, { kind := .print }] },
      { kind := .call }] }

/-- The statement in the condition is visited, and numbered, before the one after it. -/
theorem numbering_ordered_bijection_readingLoop :
    (readingLoop.walk[3]? = some ([0, 0, 0], { kind := .read }) ∧
      readingLoop.walk[4]? = some ([0, 1], { kind := .print })) ∧
    ((Numbering.ofTree readingLoop).pathOf? 2 = some [0, 0, 0] ∧
      (Numbering.ofTree readingLoop).pathOf? 3 = some [0, 1]) ∧
    ((Numbering.ofTree readingLoop).numberOf? [0, 0, 0] = some 2 ∧
      (Numbering.ofTree readingLoop).count = 4) ∧
    (([0, 0, 0] : Path) < [0, 1] ↔ 3 < 4) ∧ (([0, 0, 0] : Path) < [0, 1] ↔ 2 < 3) := by
  obtain ⟨-, hwalk, hinverse, -, -, hnumbers⟩ := numbering_ordered_bijection readingLoop
  have hvisit : readingLoop.walk[3]? = some ([0, 0, 0], { kind := .read }) ∧
      readingLoop.walk[4]? = some ([0, 1], { kind := .print }) := by decide
  have hpaths : (Numbering.ofTree readingLoop).pathOf? 2 = some [0, 0, 0] ∧
      (Numbering.ofTree readingLoop).pathOf? 3 = some [0, 1] := by decide
  exact ⟨hvisit, hpaths, ⟨(hinverse 2 _).mp hpaths.1, by decide⟩,
    hwalk 3 4 _ _ hvisit.1 hvisit.2, hnumbers 2 3 _ _ hpaths.1 hpaths.2⟩

end ProgramQuery
