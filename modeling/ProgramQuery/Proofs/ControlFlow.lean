import Mathlib.Data.List.Basic
import ProgramQuery.Program.Successor
import ProgramQuery.Proofs.Layout

/-!
# Next as structured control flow

The control flow of a program is defined here by recursion on its tree. Every statement gets a
continuation, which is where control goes when the statement is done. `Node.successors` has no
continuations: it draws the edges of lists and loops, and then moves the edges that leave each
branching, one branching after another. Both give the same edges.

## Main definitions

- `Node.flow`, `Node.controlFlow`: the edges of a statement with a continuation, and of a program.
- `Reroutes`: moving the exits of some branchings turns some edges into others.

## Main statements

- `successors_eq_controlFlow`: the successors are those of structured control flow.
-/

namespace ProgramQuery

namespace Node

/-- The edges from a path to its continuation. -/
def exits (path : Path) (next : Option Path) : List (Path × Path) :=
  next.toList.map (path, ·)

mutual

/-- The edges of the statement at a path, which continues at `next`. A loop also enters its body,
which comes back to the loop. A branching only enters its blocks, which continue where it does. -/
def flow (path : Path) (next : Option Path) : Node → List (Path × Path)
  | ⟨.whileLoop, _, _, _, [_, body]⟩ =>
    (path, path ++ [1, 0]) :: exits path next ++ flowBlock (path ++ [1]) (some path) body
  | ⟨.ifElse, _, _, _, [_, accepted, refused]⟩ =>
    [(path, path ++ [1, 0]), (path, path ++ [2, 0])] ++
      (flowBlock (path ++ [1]) next accepted ++ flowBlock (path ++ [2]) next refused)
  | _ => exits path next

/-- The edges of the block at a path, which continues at `next`. -/
def flowBlock (path : Path) (next : Option Path) : Node → List (Path × Path)
  | ⟨_, _, _, _, statements⟩ => flowFrom path next 0 statements

/-- The edges of the last statements of a block, the first of which is child `i`. Every statement
continues at its following sibling, and the last one at `next`. -/
def flowFrom (path : Path) (next : Option Path) (i : Nat) : List Node → List (Path × Path)
  | [] => []
  | s :: rest =>
    flow (path ++ [i]) (if rest.isEmpty then next else some (path ++ [i + 1])) s ++
      flowFrom path next (i + 1) rest

end

/-- The edges of the procedures of a program, the first of which is child `i`. Nothing comes after
the body of a procedure. -/
def flowOfProcedures (i : Nat) : List Node → List (Path × Path)
  | [] => []
  | procedure :: rest =>
    (procedure.children.head?.map (flowBlock [i, 0] none)).getD [] ++
      flowOfProcedures (i + 1) rest

/-- The edges of a program, as pairs of paths. -/
def controlFlow (tree : Node) : List (Path × Path) :=
  flowOfProcedures 0 tree.children

end Node

/-! ## Moving the exits of branchings -/

/-- The edges between numbers for edges between paths. -/
def numbered (num : Path → Nat) (edges : List (Path × Path)) : List (Nat × Nat) :=
  edges.map (Prod.map num num)

@[simp]
theorem numbered_append (num : Path → Nat) (l m : List (Path × Path)) :
    numbered num (l ++ m) = numbered num l ++ numbered num m :=
  List.map_append

theorem mem_map_of_mem_numbered {num : Path → Nat} {edges : List (Path × Path)}
    {sources : List Path} {e : Nat × Nat} (h : ∀ e ∈ edges, e.1 ∈ sources)
    (he : e ∈ numbered num edges) : e.1 ∈ sources.map num := by
  obtain ⟨edge, hedge, rfl⟩ := List.mem_map.mp he
  exact List.mem_map_of_mem (h edge hedge)

theorem Branching.mem_reroute {b : Branching} {edges : List (Nat × Nat)} {e : Nat × Nat} :
    e ∈ b.reroute edges ↔ (e ∈ edges ∧ e.1 ≠ b.statement) ∨
      ((e.1 = b.ends.1 ∨ e.1 = b.ends.2) ∧ (b.statement, e.2) ∈ edges) ∨
      (e = (b.statement, b.entries.1) ∨ e = (b.statement, b.entries.2)) := by
  obtain ⟨x, y⟩ := e
  simp only [reroute, List.mem_append, List.mem_filter, List.mem_map, List.mem_cons,
    List.not_mem_nil, or_false, decide_eq_true_eq, Prod.exists, Prod.mk.injEq, or_assoc]
  constructor
  · rintro (h | ⟨_, ⟨_, _, ⟨hmem, rfl⟩, rfl⟩, rfl, rfl⟩ |
      ⟨_, ⟨_, _, ⟨hmem, rfl⟩, rfl⟩, rfl, rfl⟩ | h)
    · exact .inl h
    · exact .inr (.inl ⟨.inl rfl, hmem⟩)
    · exact .inr (.inl ⟨.inr rfl, hmem⟩)
    · exact .inr (.inr h)
  · rintro (h | ⟨rfl | rfl, hmem⟩ | h)
    · exact .inl h
    · exact .inr (.inl ⟨y, ⟨_, _, ⟨hmem, rfl⟩, rfl⟩, rfl, rfl⟩)
    · exact .inr (.inr (.inl ⟨y, ⟨_, _, ⟨hmem, rfl⟩, rfl⟩, rfl, rfl⟩))
    · exact .inr (.inr (.inr h))

/-- Moving the exits of some branchings turns the edges `l` into the edges `m`, whatever other
edges there are. All edges in question leave the statements at `sources`, and the others do not. -/
structure Reroutes (num : Path → Nat) (branchings : List Branching) (l m : List (Path × Path))
    (sources : List Path) : Prop where
  fst_mem : ∀ e ∈ l, e.1 ∈ sources
  fst_mem' : ∀ e ∈ m, e.1 ∈ sources
  mem_foldl : ∀ (edges : List (Nat × Nat)) (rest : Nat × Nat → Prop),
    (∀ e, rest e → e.1 ∉ sources.map num) → (∀ e, e ∈ edges ↔ e ∈ numbered num l ∨ rest e) →
    ∀ e, e ∈ branchings.foldl (fun edges b => b.reroute edges) edges ↔
      e ∈ numbered num m ∨ rest e

namespace Reroutes

variable {num : Path → Nat} {bs cs : List Branching} {l m l' m' : List (Path × Path)}
  {sources sources' : List Path}

theorem refl (h : ∀ e ∈ l, e.1 ∈ sources) : Reroutes num [] l l sources :=
  ⟨h, h, fun _ _ _ hedges => hedges⟩

/-- Only the set of edges counts. -/
theorem congr (h : Reroutes num bs l m sources) (hl : ∀ e, e ∈ l' ↔ e ∈ l)
    (hm : ∀ e, e ∈ m' ↔ e ∈ m) : Reroutes num bs l' m' sources := by
  refine ⟨fun e he => h.fst_mem e ((hl e).mp he), fun e he => h.fst_mem' e ((hm e).mp he), ?_⟩
  intro edges rest hrest hedges e
  have hnumbered : ∀ {k k' : List (Path × Path)}, (∀ e, e ∈ k' ↔ e ∈ k) →
      ∀ e, e ∈ numbered num k' ↔ e ∈ numbered num k := by
    intro k k' hk e
    simp only [numbered, List.mem_map, hk]
  rw [hnumbered hm]
  exact h.mem_foldl edges rest hrest (fun e => by rw [hedges, hnumbered hl]) e

theorem not_mem_of_numbered {k : List (Path × Path)} {e : Nat × Nat}
    (hk : ∀ e ∈ k, e.1 ∈ sources) (he : e ∈ numbered num k)
    (hnodup : ((sources ++ sources').map num).Nodup) : e.1 ∉ sources'.map num := by
  rw [List.map_append] at hnodup
  intro hmem
  exact (List.nodup_append.mp hnodup).2.2 _ (mem_map_of_mem_numbered hk he) _ hmem rfl

/-- Branchings in disjoint parts of a program move disjoint edges. -/
theorem append (h : Reroutes num bs l m sources) (h' : Reroutes num cs l' m' sources')
    (hnodup : ((sources ++ sources').map num).Nodup) :
    Reroutes num (bs ++ cs) (l ++ l') (m ++ m') (sources ++ sources') := by
  have hnodup' : ((sources' ++ sources).map num).Nodup := by
    rw [List.map_append] at hnodup ⊢
    exact List.perm_append_comm.nodup_iff.mp hnodup
  refine ⟨?_, ?_, ?_⟩
  · intro e he
    rcases List.mem_append.mp he with he | he
    · exact List.mem_append_left _ (h.fst_mem e he)
    · exact List.mem_append_right _ (h'.fst_mem e he)
  · intro e he
    rcases List.mem_append.mp he with he | he
    · exact List.mem_append_left _ (h.fst_mem' e he)
    · exact List.mem_append_right _ (h'.fst_mem' e he)
  · intro edges rest hrest hedges e
    have hfirst := h.mem_foldl edges (fun e => e ∈ numbered num l' ∨ rest e)
      (by
        rintro e (he | he)
        · exact not_mem_of_numbered h'.fst_mem he hnodup'
        · exact fun hmem => hrest e he (List.map_append ▸ List.mem_append_left _ hmem))
      (by
        intro e
        rw [hedges, numbered_append, List.mem_append, or_assoc])
    have hsecond := h'.mem_foldl _ (fun e => e ∈ numbered num m ∨ rest e)
      (by
        rintro e (he | he)
        · exact not_mem_of_numbered h.fst_mem' he hnodup
        · exact fun hmem => hrest e he (List.map_append ▸ List.mem_append_right _ hmem))
      (by
        intro e
        rw [hfirst, or_left_comm])
    rw [List.foldl_append, hsecond, numbered_append, List.mem_append, or_left_comm, or_assoc]

end Reroutes

/-! ## The parts of a program -/

namespace Node

/-- The edges between the statements of a block, the first of which is child `i`, and from the last
one to `next`. -/
def links (path : Path) (next : Option Path) (i : Nat) : List Node → List (Path × Path)
  | [] => []
  | _ :: rest =>
    exits (path ++ [i]) (if rest.isEmpty then next else some (path ++ [i + 1])) ++
      links path next (i + 1) rest

/-- The path of a statement, and nothing for other nodes. -/
def ownPath (path : Path) (n : Node) : List Path :=
  if n.kind.isStatement then [path] else []

/-- The edges that a block or a loop draws. -/
def ownEdges (path : Path) : Node → List (Path × Path)
  | ⟨.statementList, _, _, _, statements⟩ => links path none 0 statements
  | ⟨.whileLoop, _, _, _, [_, body]⟩ =>
    (path, path ++ [1, 0]) :: exits (path ++ [1, body.children.length - 1]) (some path)
  | _ => []

/-- The branching that a node is. -/
def ownBranching (num : Path → Nat) (path : Path) : Node → List Branching
  | ⟨.ifElse, _, _, _, [_, accepted, refused]⟩ =>
    [{ statement := num path
       entries := (num (path ++ [1, 0]), num (path ++ [2, 0]))
       ends := (num (path ++ [1, accepted.children.length - 1]),
        num (path ++ [2, refused.children.length - 1])) }]
  | _ => []

theorem links_cons_cons (path : Path) (next : Option Path) (i : Nat) (n n' : Node)
    (ns : List Node) : links path next i (n :: n' :: ns) =
      (path ++ [i], path ++ [i + 1]) :: links path next (i + 1) (n' :: ns) :=
  rfl

/-- Without a continuation, only the edge from the last statement of a block is missing. -/
theorem mem_links {path : Path} {next : Option Path} {i : Nat} {ns : List Node}
    {e : Path × Path} (hne : ns ≠ []) : e ∈ links path next i ns ↔
      e ∈ links path none i ns ∨ e ∈ exits (path ++ [i + (ns.length - 1)]) next := by
  induction ns generalizing i with
  | nil => contradiction
  | cons n ns ih =>
    cases ns with
    | nil => simp [links, exits]
    | cons n' ns =>
      have hlast : i + 1 + ((n' :: ns).length - 1) = i + ((n :: n' :: ns).length - 1) := by
        simp only [List.length_cons]
        omega
      rw [links_cons_cons, links_cons_cons, List.mem_cons, List.mem_cons,
        ih (List.cons_ne_nil _ _), hlast, or_assoc]

theorem mem_links_block {path : Path} {next : Option Path} {i : Nat} {ns : List Node}
    {e : Path × Path} (hne : ns ≠ []) : e ∈ links (path ++ [i]) next 0 ns ↔
      e ∈ links (path ++ [i]) none 0 ns ∨ e ∈ exits (path ++ [i, ns.length - 1]) next := by
  rw [mem_links hne, List.append_assoc, Nat.zero_add, List.singleton_append]

section Parts

variable {good : Token → Prop} {num : Path → Nat}

theorem ownPath_eq_nil (path : Path) (m : Node) (hkind : m.kind.isStatement = false)
    (_ : m.kind ≠ .statementList) : ownPath path m = [] := by
  simp [ownPath, hkind]

theorem ownEdges_eq_nil_of_kind {path : Path} {m : Node} (hlist : m.kind ≠ .statementList)
    (hloop : m.kind ≠ .whileLoop) : ownEdges path m = [] := by
  obtain ⟨kind, line, name, constant, children⟩ := m
  cases kind <;> first | rfl | exact absurd rfl hlist | exact absurd rfl hloop

theorem ownEdges_eq_nil (path : Path) (m : Node) (hkind : m.kind.isStatement = false)
    (hlist : m.kind ≠ .statementList) : ownEdges path m = [] :=
  ownEdges_eq_nil_of_kind hlist fun hloop => by simp [hloop, NodeKind.isStatement] at hkind

theorem ownBranching_eq_nil_of_kind {path : Path} {m : Node} (hkind : m.kind ≠ .ifElse) :
    ownBranching num path m = [] := by
  obtain ⟨kind, line, name, constant, children⟩ := m
  cases kind <;> first | rfl | exact absurd rfl hkind

theorem ownBranching_eq_nil (path : Path) (m : Node) (hkind : m.kind.isStatement = false)
    (_ : m.kind ≠ .statementList) : ownBranching num path m = [] :=
  ownBranching_eq_nil_of_kind fun hif => by simp [hif, NodeKind.isStatement] at hkind

section Collect

variable {β : Type} {f : Path → Node → List β}
  (hf : ∀ path m, m.kind.isStatement = false → m.kind ≠ .statementList → f path m = [])

include hf

theorem collect_named (path : Path) (kind : NodeKind) (line : Option Nat) {t : Token}
    (htoken : good t) (hname : t.kind = .name) :
    collect f path ⟨kind, line, "", "", [.ofName t]⟩ =
      f path ⟨kind, line, "", "", [.ofName t]⟩ := by
  simp [collect_mk, (IsExpression.name htoken hname).collect_eq_nil hf]

theorem collect_assign (path : Path) (line : Option Nat) {t : Token} {value : Node}
    (htoken : good t) (hname : t.kind = .name) (hvalue : value.IsExpression good) :
    collect f path ⟨.assign, line, t.text, "", [.ofName t, value]⟩ =
      f path ⟨.assign, line, t.text, "", [.ofName t, value]⟩ := by
  simp [collect_mk, (IsExpression.name htoken hname).collect_eq_nil hf, hvalue.collect_eq_nil hf]

theorem collect_whileLoop (path : Path) (line : Option Nat) (blockLine : Nat) {condition : Node}
    (hcondition : condition.IsCondition good) (body : List Node) :
    collect f path ⟨.whileLoop, line, "", "", [condition, block blockLine body]⟩ =
      f path ⟨.whileLoop, line, "", "", [condition, block blockLine body]⟩ ++
        collect f (path ++ [1]) (block blockLine body) := by
  simp [collect_mk path, hcondition.collect_eq_nil hf]

theorem collect_ifElse (path : Path) (line : Option Nat) (line' line'' : Nat) {condition : Node}
    (hcondition : condition.IsCondition good) (accepted refused : List Node) :
    collect f path
        ⟨.ifElse, line, "", "", [condition, block line' accepted, block line'' refused]⟩ =
      f path ⟨.ifElse, line, "", "", [condition, block line' accepted, block line'' refused]⟩ ++
        (collect f (path ++ [1]) (block line' accepted) ++
          collect f (path ++ [2]) (block line'' refused)) := by
  simp [collect_mk path, hcondition.collect_eq_nil hf]

end Collect

/-- A tree at a path becomes its control flow, whatever its continuation is. -/
def FlowsAt (num : Path → Nat) (path : Path) (n : Node) : Prop :=
  ((collect ownPath path n).map num).Nodup → ∀ next : Option Path,
    Reroutes num (collect (ownBranching num) path n) (exits path next ++ collect ownEdges path n)
      (flow path next n) (collect ownPath path n)

/-- A block becomes its control flow if its statements do. -/
theorem reroutes_flowFrom {path : Path} (next : Option Path) {i : Nat} {ns : List Node}
    (hns : ∀ s ∈ ns, ∀ path, FlowsAt num path s)
    (hnodup : ((collectFrom ownPath path i ns).map num).Nodup) :
    Reroutes num (collectFrom (ownBranching num) path i ns)
      (links path next i ns ++ collectFrom ownEdges path i ns) (flowFrom path next i ns)
      (collectFrom ownPath path i ns) := by
  induction ns generalizing i with
  | nil => exact .refl nofun
  | cons n ns ih =>
    simp only [collectFrom_cons] at hnodup ⊢
    obtain ⟨hn, hns', -⟩ := List.nodup_append.mp (List.map_append ▸ hnodup)
    have hfirst := hns n List.mem_cons_self (path ++ [i]) hn
      (if ns.isEmpty then next else some (path ++ [i + 1]))
    have hrest := ih (fun s hs => hns s (List.mem_cons_of_mem n hs)) hns'
    refine (hfirst.append hrest hnodup).congr (fun e => ?_) (fun e => ?_)
    · simp only [links, List.mem_append, or_assoc, or_left_comm]
    · rw [flowFrom]

theorem mem_numbered_exits {path : Path} {next : Option Path} {e : Nat × Nat} :
    e ∈ numbered num (exits path next) ↔ e.1 = num path ∧ ∃ q, next = some q ∧ e.2 = num q := by
  obtain ⟨a, b⟩ := e
  cases next with
  | none => simp [numbered, exits]
  | some q => simp [numbered, exits]

/-- A branching hands its exits to the ends of its blocks and leaves all other edges alone. -/
theorem mem_reroute_exits {path first first' last last' : Path} {next : Option Path}
    {inner : List (Path × Path)} {edges : List (Nat × Nat)} {rest : Nat × Nat → Prop}
    (hinner : ∀ e ∈ numbered num inner, e.1 ≠ num path) (hrest : ∀ e, rest e → e.1 ≠ num path)
    (hedges : ∀ e, e ∈ edges ↔ e ∈ numbered num (exits path next ++ inner) ∨ rest e)
    (e : Nat × Nat) :
    e ∈ Branching.reroute ⟨num path, (num first, num first'), (num last, num last')⟩ edges ↔
      e ∈ numbered num ([(path, first), (path, first')] ++
        (exits last next ++ exits last' next ++ inner)) ∨ rest e := by
  -- what leaves the branching is its exits, what leaves another statement is the rest
  have hother : (e ∈ edges ∧ e.1 ≠ num path) ↔ (e ∈ numbered num inner ∨ rest e) := by
    rw [hedges, numbered_append, List.mem_append, mem_numbered_exits]
    constructor
    · rintro ⟨(⟨h, -⟩ | h) | h, hne⟩
      · exact absurd h hne
      · exact .inl h
      · exact .inr h
    · rintro (h | h)
      · exact ⟨.inl (.inr h), hinner e h⟩
      · exact ⟨.inr h, hrest e h⟩
  have hexit : (num path, e.2) ∈ edges ↔ ∃ q, next = some q ∧ e.2 = num q := by
    rw [hedges, numbered_append, List.mem_append, mem_numbered_exits]
    constructor
    · rintro ((⟨-, h⟩ | h) | h)
      · exact h
      · exact absurd rfl (hinner _ h)
      · exact absurd rfl (hrest _ h)
    · exact fun h => .inl (.inl ⟨rfl, h⟩)
  have hentries : e ∈ numbered num [(path, first), (path, first')] ↔
      e = (num path, num first) ∨ e = (num path, num first') := by
    simp [numbered]
  simp only [Branching.mem_reroute, hother, hexit, numbered_append, List.mem_append, hentries,
    mem_numbered_exits, or_and_right]
  grind

/-- A branching hands on its exits before other branchings do. -/
theorem reroutes_branching {bs : List Branching} {path first first' last last' : Path}
    {next : Option Path} {inner m : List (Path × Path)} {sources : List Path}
    (h : Reroutes num bs ([(path, first), (path, first')] ++
      (exits last next ++ exits last' next ++ inner)) m (path :: sources))
    (hinner : ∀ e ∈ inner, e.1 ∈ sources) (hnot : num path ∉ sources.map num) :
    Reroutes num (⟨num path, (num first, num first'), (num last, num last')⟩ :: bs)
      (exits path next ++ inner) m (path :: sources) := by
  refine ⟨fun e he => ?_, h.fst_mem', fun edges rest hrest hedges => ?_⟩
  · rcases List.mem_append.mp he with he | he
    · obtain ⟨q, -, rfl⟩ := List.mem_map.mp he
      exact List.mem_cons_self
    · exact List.mem_cons_of_mem _ (hinner e he)
  · exact h.mem_foldl _ rest hrest (mem_reroute_exits
      (fun e he heq => hnot (heq ▸ mem_map_of_mem_numbered hinner he))
      (fun e he heq => hrest e he (heq ▸ List.mem_cons_self)) hedges)

theorem collect_block {β : Type} {f : Path → Node → List β} (path : Path) (line : Nat)
    (body : List Node) : collect f path (block line body) =
      f path (block line body) ++ collectFrom f path 0 body := by
  rw [block, collect_mk]

/-- A loop becomes its control flow: its body has the loop itself as continuation. -/
theorem flowsAt_whileLoop {path : Path} {line : Option Nat} {blockLine : Nat} {condition : Node}
    {body : List Node} (hcondition : condition.IsCondition good) (hne : body ≠ [])
    (hbody : ∀ s ∈ body, ∀ path, FlowsAt num path s) :
    FlowsAt num path ⟨.whileLoop, line, "", "", [condition, block blockLine body]⟩ := by
  intro hnodup next
  rw [collect_whileLoop ownPath_eq_nil _ _ _ hcondition, collect_block] at hnodup ⊢
  rw [collect_whileLoop ownEdges_eq_nil _ _ _ hcondition, collect_block,
    collect_whileLoop ownBranching_eq_nil _ _ _ hcondition, collect_block]
  have hhead : ∀ e ∈ (path, path ++ [1, 0]) :: exits path next, e.1 ∈ [path] := by
    simp [exits]
  have hparts : (([path] ++ collectFrom ownPath (path ++ [1]) 0 body).map num).Nodup := hnodup
  have hflow := reroutes_flowFrom (some path) hbody
    (List.nodup_append.mp (List.map_append ▸ hparts)).2.1
  refine ((Reroutes.refl hhead).append hflow hparts).congr (fun e => ?_) (fun e => ?_)
  · have hlinks : e ∈ links (path ++ [1]) (some path) 0 body ↔ _ := mem_links_block hne
    simp only [ownEdges, block, List.mem_append, List.mem_cons, hlinks, or_assoc, or_left_comm]
  · simp only [flow, flowBlock, block, exits]

/-- A branching becomes its control flow: it hands on its exits, and then its two blocks have the
continuation that it had. -/
theorem flowsAt_ifElse {path : Path} {line : Option Nat} {line' line'' : Nat} {condition : Node}
    {accepted refused : List Node} (hcondition : condition.IsCondition good)
    (hne : accepted ≠ []) (hne' : refused ≠ [])
    (haccepted : ∀ s ∈ accepted, ∀ path, FlowsAt num path s)
    (hrefused : ∀ s ∈ refused, ∀ path, FlowsAt num path s) :
    FlowsAt num path
      ⟨.ifElse, line, "", "", [condition, block line' accepted, block line'' refused]⟩ := by
  intro hnodup next
  rw [collect_ifElse ownPath_eq_nil _ _ _ _ hcondition, collect_block, collect_block] at hnodup ⊢
  rw [collect_ifElse ownEdges_eq_nil _ _ _ _ hcondition, collect_block, collect_block,
    collect_ifElse ownBranching_eq_nil _ _ _ _ hcondition, collect_block, collect_block]
  have hentries : ∀ e ∈ [(path, path ++ [1, 0]), (path, path ++ [2, 0])], e.1 ∈ [path] := by
    simp
  have hparts : (([path] ++ (collectFrom ownPath (path ++ [1]) 0 accepted ++
      collectFrom ownPath (path ++ [2]) 0 refused)).map num).Nodup := hnodup
  have hblocks := (List.nodup_append.mp (List.map_append ▸ hparts)).2.1
  obtain ⟨hfirst, hsecond, -⟩ := List.nodup_append.mp (List.map_append ▸ hblocks)
  have hflow := (Reroutes.refl hentries).append
    ((reroutes_flowFrom next haccepted hfirst).append (reroutes_flowFrom next hrefused hsecond)
      hblocks) hparts
  -- the edges inside the blocks, before the exits are handed on
  have hinner := ((reroutes_flowFrom none haccepted hfirst).append
    (reroutes_flowFrom none hrefused hsecond) hblocks).fst_mem
  have hnot : num path ∉ (collectFrom ownPath (path ++ [1]) 0 accepted ++
      collectFrom ownPath (path ++ [2]) 0 refused).map num := (List.nodup_cons.mp hparts).1
  refine reroutes_branching (hflow.congr (fun e => ?_) (fun e => ?_)) hinner hnot
  · have hlinks : e ∈ links (path ++ [1]) next 0 accepted ↔ _ := mem_links_block hne
    have hlinks' : e ∈ links (path ++ [2]) next 0 refused ↔ _ := mem_links_block hne'
    simp only [ownEdges, block, List.mem_append, List.not_mem_nil, false_or, hlinks, hlinks',
      or_assoc, or_left_comm]
  · simp only [flow, flowBlock, block]

theorem IsStatement.flowsAt {n : Node} (h : n.IsStatement good) (path : Path) :
    FlowsAt num path n := by
  induction h generalizing path with
  | @named kind line t hkind htoken hname =>
    intro hnodup next
    rw [collect_named ownPath_eq_nil _ _ _ htoken hname,
      collect_named ownEdges_eq_nil _ _ _ htoken hname,
      collect_named ownBranching_eq_nil _ _ _ htoken hname]
    cases kind <;> simp at hkind
    all_goals
      refine (Reroutes.refl (l := exits path next) ?_).congr ?_ ?_
      · simp [exits, ownPath, NodeKind.isStatement]
      · simp [ownEdges]
      · simp [flow, exits]
  | @assign line target value htoken hname hvalue =>
    intro hnodup next
    rw [collect_assign ownPath_eq_nil _ _ htoken hname hvalue,
      collect_assign ownEdges_eq_nil _ _ htoken hname hvalue,
      collect_assign ownBranching_eq_nil _ _ htoken hname hvalue]
    refine (Reroutes.refl (l := exits path next) ?_).congr ?_ ?_
    · simp [exits, ownPath, NodeKind.isStatement]
    · simp [ownEdges]
    · simp [flow, exits]
  | whileLoop hcondition hne _ ih =>
    exact flowsAt_whileLoop hcondition hne ih
  | ifElse hcondition hne hne' _ _ ih ih' =>
    exact flowsAt_ifElse hcondition hne hne' ih ih'

theorem collect_procedure {β : Type} {f : Path → Node → List β}
    (hf : ∀ path m, m.kind.isStatement = false → m.kind ≠ .statementList → f path m = [])
    (path : Path) (line : Option Nat) (name : String) (blockLine : Nat) (body : List Node) :
    collect f path ⟨.procedure, line, name, "", [block blockLine body]⟩ =
      f (path ++ [0]) (block blockLine body) ++ collectFrom f (path ++ [0]) 0 body := by
  rw [collect_mk, hf _ _ rfl (by simp), List.nil_append, collectFrom_cons, collectFrom_nil,
    List.append_nil, collect_block]

theorem reroutes_flowOfProcedures {i : Nat} {procedures : List Node}
    (h : ∀ p ∈ procedures, p.IsProcedure good)
    (hnodup : ((collectFrom ownPath [] i procedures).map num).Nodup) :
    Reroutes num (collectFrom (ownBranching num) [] i procedures)
      (collectFrom ownEdges [] i procedures) (flowOfProcedures i procedures)
      (collectFrom ownPath [] i procedures) := by
  induction procedures generalizing i with
  | nil => exact .refl nofun
  | cons procedure procedures ih =>
    obtain ⟨-, -, -, hbody⟩ := h procedure List.mem_cons_self
    simp only [collectFrom_cons, collect_procedure ownPath_eq_nil,
      collect_procedure ownEdges_eq_nil, collect_procedure ownBranching_eq_nil] at hnodup ⊢
    obtain ⟨hfirst, hothers, -⟩ := List.nodup_append.mp (List.map_append ▸ hnodup)
    have hflow := reroutes_flowFrom none (fun s hs => (hbody s hs).flowsAt) hfirst
    exact hflow.append (ih (fun p hp => h p (List.mem_cons_of_mem _ hp)) hothers) hnodup

/-! ## Where edges lead -/

theorem first_mem_collectFrom {path : Path} {i : Nat} {ns : List Node} (hne : ns ≠ [])
    (hns : ∀ s ∈ ns, s.IsStatement good) : path ++ [i] ∈ collectFrom ownPath path i ns := by
  cases ns with
  | nil => contradiction
  | cons n ns =>
    rw [collectFrom_cons]
    refine List.mem_append_left _ (mem_collect.mpr ⟨[], n, rfl, ?_⟩)
    simp [ownPath, (hns n List.mem_cons_self).isStatement_kind]

/-- Edges of a block stay in it or lead to its continuation, if those of its statements do. -/
theorem snd_mem_of_mem_flowFrom {path : Path} {next : Option Path} {i : Nat} {ns : List Node}
    {e : Path × Path} (hns : ∀ s ∈ ns, s.IsStatement good)
    (ih : ∀ s ∈ ns, ∀ {path : Path} {next : Option Path}, e ∈ flow path next s →
      next = some e.2 ∨ e.2 ∈ collect ownPath path s)
    (he : e ∈ flowFrom path next i ns) : next = some e.2 ∨ e.2 ∈ collectFrom ownPath path i ns := by
  induction ns generalizing i with
  | nil => cases he
  | cons n ns ih' =>
    rw [collectFrom_cons, List.mem_append]
    have hrest : ∀ s ∈ ns, s.IsStatement good := fun s hs => hns s (List.mem_cons_of_mem n hs)
    rcases List.mem_append.mp he with he | he
    · rcases ih n List.mem_cons_self he with hnext | hmem
      · by_cases hempty : ns = []
        · subst hempty
          exact .inl hnext
        · rw [if_neg (by simpa using hempty)] at hnext
          exact .inr (.inr (Option.some.inj hnext ▸ first_mem_collectFrom hempty hrest))
      · exact .inr (.inl hmem)
    · rcases ih' hrest (fun s hs => ih s (List.mem_cons_of_mem n hs)) he with h | h
      · exact .inl h
      · exact .inr (.inr h)

theorem snd_eq_of_mem_exits {path : Path} {next : Option Path} {e : Path × Path}
    (he : e ∈ exits path next) : next = some e.2 := by
  obtain ⟨q, hq, rfl⟩ := List.mem_map.mp he
  exact Option.mem_toList.mp hq

/-- Edges of a statement stay in it or lead to its continuation. -/
theorem IsStatement.snd_mem_of_mem_flow {n : Node} {path : Path} {next : Option Path}
    {e : Path × Path} (h : n.IsStatement good) (he : e ∈ flow path next n) :
    next = some e.2 ∨ e.2 ∈ collect ownPath path n := by
  induction h generalizing path next with
  | @named kind _ _ hkind =>
    cases kind <;> simp at hkind
    all_goals exact .inl (snd_eq_of_mem_exits (by simpa only [flow] using he))
  | assign => exact .inl (snd_eq_of_mem_exits (by simpa only [flow] using he))
  | @whileLoop _ _ _ body hcondition hne hbody ih =>
    rw [collect_whileLoop ownPath_eq_nil _ _ _ hcondition, collect_block]
    simp only [flow, flowBlock, block, List.mem_append, List.mem_cons] at he ⊢
    rcases he with (rfl | he) | he
    · have hfirst : path ++ [1] ++ [0] ∈ collectFrom ownPath (path ++ [1]) 0 body :=
        first_mem_collectFrom hne hbody
      rw [List.append_assoc] at hfirst
      exact .inr (.inr (.inr hfirst))
    · exact .inl (snd_eq_of_mem_exits he)
    · rcases snd_mem_of_mem_flowFrom hbody ih he with hnext | hmem
      · exact .inr (.inl (Option.some.inj hnext ▸ List.mem_cons_self))
      · exact .inr (.inr (.inr hmem))
  | @ifElse _ _ _ _ accepted refused hcondition hne hne' haccepted hrefused ih ih' =>
    rw [collect_ifElse ownPath_eq_nil _ _ _ _ hcondition, collect_block, collect_block]
    simp only [flow, flowBlock, block, List.mem_append, List.mem_cons, List.not_mem_nil,
      or_false] at he ⊢
    rcases he with (rfl | rfl) | he | he
    · have hfirst : path ++ [1] ++ [0] ∈ collectFrom ownPath (path ++ [1]) 0 accepted :=
        first_mem_collectFrom hne haccepted
      rw [List.append_assoc] at hfirst
      exact .inr (.inr (.inl (.inr hfirst)))
    · have hfirst : path ++ [2] ++ [0] ∈ collectFrom ownPath (path ++ [2]) 0 refused :=
        first_mem_collectFrom hne' hrefused
      rw [List.append_assoc] at hfirst
      exact .inr (.inr (.inr (.inr hfirst)))
    · rcases snd_mem_of_mem_flowFrom haccepted ih he with hnext | hmem
      · exact .inl hnext
      · exact .inr (.inr (.inl (.inr hmem)))
    · rcases snd_mem_of_mem_flowFrom hrefused ih' he with hnext | hmem
      · exact .inl hnext
      · exact .inr (.inr (.inr (.inr hmem)))

theorem snd_mem_of_mem_flowOfProcedures {i : Nat} {procedures : List Node} {e : Path × Path}
    (h : ∀ p ∈ procedures, p.IsProcedure good) (he : e ∈ flowOfProcedures i procedures) :
    e.2 ∈ collectFrom ownPath [] i procedures := by
  induction procedures generalizing i with
  | nil => cases he
  | cons procedure procedures ih =>
    obtain ⟨-, -, -, hbody⟩ := h procedure List.mem_cons_self
    rw [collectFrom_cons, collect_procedure ownPath_eq_nil]
    rcases List.mem_append.mp he with he | he
    · rcases snd_mem_of_mem_flowFrom hbody (fun s hs _ _ => (hbody s hs).snd_mem_of_mem_flow) he
        with hnext | hmem
      · cases hnext
      · exact List.mem_append_left _ hmem
    · exact List.mem_append_right _ (ih (fun p hp => h p (List.mem_cons_of_mem _ hp)) he)

end Parts

/-! ## The edges that are drawn -/

/-- The number of the statement at a path, and 0 if there is none. -/
def numberAt (tree : Node) (path : Path) : Nat :=
  ((Numbering.ofTree tree).numberOf? path).getD 0

theorem numberAt_eq {tree : Node} {path : Path} {number : Nat}
    (h : (Numbering.ofTree tree).numberOf? path = some number) : tree.numberAt path = number := by
  rw [numberAt, h, Option.getD_some]

theorem numberOf?_eq_numberAt {tree m : Node} {path : Path} (hat : tree.at? path = some m)
    (hkind : m.kind.isStatement = true) :
    (Numbering.ofTree tree).numberOf? path = some (tree.numberAt path) := by
  obtain ⟨number, h⟩ := Numbering.exists_numberOf? (Numbering.mem_paths_ofTree.mpr ⟨m, hat, hkind⟩)
  rw [numberAt_eq h, h]

theorem paths_eq_collect (tree : Node) :
    (Numbering.ofTree tree).paths = collect ownPath [] tree := by
  rw [Numbering.paths_ofTree, collect]
  induction tree.walk with
  | nil => rfl
  | cons entry entries ih =>
    rw [List.flatMap_cons, ← ih, List.filter_cons, ownPath]
    split <;> simp

theorem nodup_numbers (tree : Node) : ((collect ownPath [] tree).map tree.numberAt).Nodup := by
  rw [← paths_eq_collect]
  refine List.pairwise_map.mpr ((Numbering.nodup_paths_ofTree tree).imp_of_mem ?_)
  intro p q hp hq hne heq
  obtain ⟨a, ha⟩ := Numbering.exists_numberOf? hp
  obtain ⟨b, hb⟩ := Numbering.exists_numberOf? hq
  rw [numberAt_eq ha, numberAt_eq hb] at heq
  exact hne (Numbering.numberOf?_injective (heq ▸ ha) hb)

section Drawn

variable {good : Token → Prop} {tree : Node}

/-- The members of a block are its statements, from the first to the last. -/
theorem membersAt_eq {path : Path} {line : Nat} {body : List Node}
    (hat : tree.at? path = some (block line body)) (hbody : ∀ s ∈ body, s.IsStatement good) :
    (Numbering.ofTree tree).membersAt tree path =
      (List.range' 0 body.length).map fun i => tree.numberAt (path ++ [i]) := by
  rw [Numbering.membersAt, hat]
  dsimp only [block]
  rw [List.range_eq_range', ← List.filterMap_eq_map]
  refine List.filterMap_congr fun i hi => ?_
  have hlen : i < body.length := by
    simpa using hi
  have hchild : tree.at? (path ++ [i]) = some body[i] := by
    rw [at?_append, hat, Option.bind_some]
    simp [at?, block, hlen]
  exact numberOf?_eq_numberAt hchild (hbody _ (List.getElem_mem hlen)).isStatement_kind

theorem neighbours_eq_links {num : Path → Nat} (path : Path) (i : Nat) (ns : List Node) :
    neighbours ((List.range' i ns.length).map fun j => num (path ++ [j])) =
      numbered num (links path none i ns) := by
  induction ns generalizing i with
  | nil => rfl
  | cons n ns ih =>
    cases ns with
    | nil => rfl
    | cons n' ns =>
      rw [links_cons_cons, numbered, List.map_cons]
      exact congrArg (_ :: ·) (ih (i + 1))

theorem mem_pathsOfKind {kind : NodeKind} {path : Path} :
    path ∈ tree.pathsOfKind kind ↔ ∃ m, tree.at? path = some m ∧ m.kind = kind := by
  simp [pathsOfKind, select_eq, mem_walk]

theorem mem_follows (h : tree.IsProgram good) {e : Nat × Nat} :
    e ∈ tree.follows.pairs ↔ ∃ path m, tree.at? path = some m ∧ m.kind = .statementList ∧
      e ∈ numbered tree.numberAt (ownEdges path m) := by
  have hedges : ∀ path m, tree.at? path = some m → m.kind = .statementList →
      neighbours ((Numbering.ofTree tree).membersAt tree path) =
        numbered tree.numberAt (ownEdges path m) := by
    intro path m hat hkind
    obtain ⟨line, body, rfl, -, hbody⟩ := (h.isWellFormed_of_at? hat).2 hkind
    rw [membersAt_eq hat hbody, neighbours_eq_links]
    rfl
  rw [follows, FinRel.ofPairs, List.mem_flatMap]
  constructor
  · rintro ⟨path, hpath, he⟩
    obtain ⟨m, hat, hkind⟩ := mem_pathsOfKind.mp hpath
    exact ⟨path, m, hat, hkind, hedges path m hat hkind ▸ he⟩
  · rintro ⟨path, m, hat, hkind, he⟩
    exact ⟨path, mem_pathsOfKind.mpr ⟨m, hat, hkind⟩, (hedges path m hat hkind).symm ▸ he⟩

theorem head?_range' {α : Type} {n : Nat} (f : Nat → α) (hn : n ≠ 0) :
    ((List.range' 0 n).map f).head? = some (f 0) := by
  cases n with
  | zero => contradiction
  | succ n => rfl

theorem getLast?_range' {α : Type} {n : Nat} (f : Nat → α) (hn : n ≠ 0) :
    ((List.range' 0 n).map f).getLast? = some (f (n - 1)) := by
  cases n with
  | zero => contradiction
  | succ n => simp [List.range'_concat]

theorem ends_membersAt {path : Path} {i line : Nat} {body : List Node} (hne : body ≠ [])
    (hat : tree.at? (path ++ [i]) = some (block line body))
    (hbody : ∀ s ∈ body, s.IsStatement good) :
    ((Numbering.ofTree tree).membersAt tree (path ++ [i])).head? =
        some (tree.numberAt (path ++ [i, 0])) ∧
      ((Numbering.ofTree tree).membersAt tree (path ++ [i])).getLast? =
        some (tree.numberAt (path ++ [i, body.length - 1])) := by
  have hlen : body.length ≠ 0 := fun h => hne (List.length_eq_zero_iff.mp h)
  rw [membersAt_eq hat hbody, head?_range' _ hlen, getLast?_range' _ hlen]
  simp

theorem loopEdges_eq (h : tree.IsProgram good) {s : Statement} (hs : s ∈ tree.statements)
    (hkind : s.node.kind = .whileLoop) :
    loopEdges (Numbering.ofTree tree) tree s = numbered tree.numberAt (ownEdges s.path s.node) := by
  obtain ⟨number, path, node⟩ := s
  obtain ⟨hat, hstatement, hnumber⟩ := mem_statements.mp hs
  obtain ⟨line, blockLine, condition, body, rfl, -, hne, hbody⟩ :=
    ((h.isWellFormed_of_at? hat).1 hstatement).exists_of_whileLoop hkind
  have hblock : tree.at? (path ++ [1]) = some (block blockLine body) := by
    rw [at?_append, hat]
    rfl
  obtain ⟨hfirst, hlast⟩ := ends_membersAt hne hblock hbody
  simp [loopEdges, Statement.block, hfirst, hlast, ownEdges, exits, block, numbered,
    numberAt_eq hnumber]

theorem mem_loops (h : tree.IsProgram good) {e : Nat × Nat} :
    e ∈ (tree.statements.filter fun s => s.node.kind = .whileLoop).flatMap
        (loopEdges (Numbering.ofTree tree) tree) ↔
      ∃ path m, tree.at? path = some m ∧ m.kind = .whileLoop ∧
        e ∈ numbered tree.numberAt (ownEdges path m) := by
  simp only [List.mem_flatMap, List.mem_filter, decide_eq_true_eq]
  constructor
  · rintro ⟨s, ⟨hs, hkind⟩, he⟩
    exact ⟨s.path, s.node, (mem_statements.mp hs).1, hkind, loopEdges_eq h hs hkind ▸ he⟩
  · rintro ⟨path, m, hat, hkind, he⟩
    have hstatement : m.kind.isStatement = true := by
      rw [hkind]
      rfl
    have hs : ⟨tree.numberAt path, path, m⟩ ∈ tree.statements :=
      mem_statements.mpr ⟨hat, hstatement, numberOf?_eq_numberAt hat hstatement⟩
    exact ⟨_, ⟨hs, hkind⟩, (loopEdges_eq h hs hkind).symm ▸ he⟩

/-- What is drawn before the branchings hand on their exits is what blocks and loops draw. -/
theorem mem_straight (h : tree.IsProgram good) {e : Nat × Nat} :
    e ∈ tree.follows.pairs ++ (tree.statements.filter fun s => s.node.kind = .whileLoop).flatMap
        (loopEdges (Numbering.ofTree tree) tree) ↔
      e ∈ numbered tree.numberAt (collect ownEdges [] tree) := by
  have hcollect : e ∈ numbered tree.numberAt (collect ownEdges [] tree) ↔
      ∃ path m, tree.at? path = some m ∧ e ∈ numbered tree.numberAt (ownEdges path m) := by
    simp only [numbered, List.mem_map, mem_collect, List.nil_append]
    constructor
    · rintro ⟨edge, ⟨path, m, hat, hedge⟩, rfl⟩
      exact ⟨path, m, hat, edge, hedge, rfl⟩
    · rintro ⟨path, m, hat, edge, hedge, rfl⟩
      exact ⟨edge, ⟨path, m, hat, hedge⟩, rfl⟩
  rw [List.mem_append, mem_follows h, mem_loops h, hcollect]
  constructor
  · rintro (⟨path, m, hat, -, he⟩ | ⟨path, m, hat, -, he⟩)
    · exact ⟨path, m, hat, he⟩
    · exact ⟨path, m, hat, he⟩
  · rintro ⟨path, m, hat, he⟩
    by_cases hlist : m.kind = .statementList
    · exact .inl ⟨path, m, hat, hlist, he⟩
    · by_cases hloop : m.kind = .whileLoop
      · exact .inr ⟨path, m, hat, hloop, he⟩
      · rw [ownEdges_eq_nil_of_kind hlist hloop] at he
        cases he

theorem branching?_eq (h : tree.IsProgram good) {s : Statement} (hs : s ∈ tree.statements)
    (hkind : s.node.kind = .ifElse) :
    (branching? (Numbering.ofTree tree) tree s).toList =
      ownBranching tree.numberAt s.path s.node := by
  obtain ⟨number, path, node⟩ := s
  obtain ⟨hat, hstatement, hnumber⟩ := mem_statements.mp hs
  obtain ⟨line, line', line'', condition, accepted, refused, rfl, -, ⟨hne, haccepted⟩,
    ⟨hne', hrefused⟩⟩ := ((h.isWellFormed_of_at? hat).1 hstatement).exists_of_ifElse hkind
  have hblock : tree.at? (path ++ [1]) = some (block line' accepted) := by
    rw [at?_append, hat]
    rfl
  have hblock' : tree.at? (path ++ [2]) = some (block line'' refused) := by
    rw [at?_append, hat]
    rfl
  obtain ⟨hfirst, hlast⟩ := ends_membersAt hne hblock haccepted
  obtain ⟨hfirst', hlast'⟩ := ends_membersAt hne' hblock' hrefused
  simp [branching?, Statement.block, hfirst, hlast, hfirst', hlast', ownBranching, block,
    numberAt_eq hnumber]

theorem statements_eq (tree : Node) : tree.statements =
    (tree.walk.filter fun entry => entry.2.kind.isStatement).map fun entry =>
      ⟨tree.numberAt entry.1, entry.1, entry.2⟩ := by
  have hnumbers : tree.statements = ((tree.select NodeKind.isStatement).zipIdx 1).map fun entry =>
      ⟨tree.numberAt entry.1.1, entry.1.1, entry.1.2⟩ := by
    refine List.map_congr_left fun entry hentry => ?_
    have hs : ⟨entry.2, entry.1.1, entry.1.2⟩ ∈ tree.statements :=
      List.mem_map.mpr ⟨entry, hentry, rfl⟩
    rw [numberAt_eq (mem_statements.mp hs).2.2]
  rw [hnumbers, ← select_eq]
  conv_rhs => rw [← List.zipIdx_map_fst 1 (tree.select NodeKind.isStatement)]
  rw [List.map_map]
  rfl

theorem branchings_eq (h : tree.IsProgram good) :
    (tree.statements.filter fun s => s.node.kind = .ifElse).filterMap
        (branching? (Numbering.ofTree tree) tree) =
      collect (ownBranching tree.numberAt) [] tree := by
  have hwalk : ∀ entry ∈ tree.walk, tree.at? entry.1 = some entry.2 :=
    fun entry hentry => mem_walk.mp hentry
  rw [statements_eq, collect]
  -- the induction is over any list of nodes of the tree
  generalize tree.walk = entries at hwalk ⊢
  induction entries with
  | nil => rfl
  | cons entry entries ih =>
    have hat := hwalk entry List.mem_cons_self
    rw [List.flatMap_cons, ← ih fun e he => hwalk e (List.mem_cons_of_mem _ he)]
    by_cases hkind : entry.2.kind = .ifElse
    · have hstatement : entry.2.kind.isStatement = true := by
        rw [hkind]
        rfl
      have hs : ⟨tree.numberAt entry.1, entry.1, entry.2⟩ ∈ tree.statements :=
        mem_statements.mpr ⟨hat, hstatement, numberOf?_eq_numberAt hat hstatement⟩
      rw [List.filter_cons_of_pos (by simpa), List.map_cons, List.filter_cons_of_pos (by simpa),
        List.filterMap_cons, List.nil_append, ← branching?_eq h hs hkind]
      cases branching? (Numbering.ofTree tree) tree _ <;> rfl
    · rw [ownBranching_eq_nil_of_kind hkind, List.nil_append, List.filter_cons]
      split
      · rw [List.map_cons, List.filter_cons_of_neg (by simpa)]
      · rfl

end Drawn

theorem collect_program {β : Type} {f : Path → Node → List β}
    (hf : ∀ path m, m.kind.isStatement = false → m.kind ≠ .statementList → f path m = [])
    (procedures : List Node) : collect f [] ⟨.program, none, "", "", procedures⟩ =
      collectFrom f [] 0 procedures := by
  rw [collect_mk, hf _ _ rfl (by simp), List.nil_append]

/-- A program becomes its control flow. -/
theorem IsProgram.reroutes {good : Token → Prop} {tree : Node} (h : tree.IsProgram good) :
    Reroutes tree.numberAt (collect (ownBranching tree.numberAt) [] tree)
      (collect ownEdges [] tree) tree.controlFlow (collect ownPath [] tree) := by
  have hnodup := tree.nodup_numbers
  obtain ⟨-, hprocedures⟩ := h
  rw [collect_program ownPath_eq_nil] at hnodup ⊢
  rw [collect_program ownEdges_eq_nil, collect_program ownBranching_eq_nil]
  exact reroutes_flowOfProcedures hprocedures hnodup

/-- The successors are the edges of the control flow, by number. -/
theorem mem_successors {good : Token → Prop} {tree : Node} (h : tree.IsProgram good)
    {e : Nat × Nat} :
    e ∈ tree.successors.pairs ↔ e ∈ numbered tree.numberAt tree.controlFlow := by
  rw [successors, FinRel.ofPairs]
  dsimp only
  rw [branchings_eq h]
  -- there are no other edges than those that are drawn
  have hedges := h.reroutes.mem_foldl _ (fun _ => False) (fun _ => False.elim)
    (fun e => (mem_straight h).trans (or_false _).symm.to_iff) e
  exact hedges.trans (or_false _).to_iff

/-- Both ends of an edge of the control flow are statements. -/
theorem IsProgram.exists_numberOf? {good : Token → Prop} {tree : Node} (h : tree.IsProgram good)
    {e : Path × Path} (he : e ∈ tree.controlFlow) :
    (Numbering.ofTree tree).numberOf? e.1 = some (tree.numberAt e.1) ∧
      (Numbering.ofTree tree).numberOf? e.2 = some (tree.numberAt e.2) := by
  have hsource := h.reroutes.fst_mem' e he
  have htarget : e.2 ∈ collect ownPath [] tree := by
    obtain ⟨-, hprocedures⟩ := h
    rw [collect_program ownPath_eq_nil]
    exact snd_mem_of_mem_flowOfProcedures hprocedures he
  rw [← paths_eq_collect] at hsource htarget
  obtain ⟨a, ha⟩ := Numbering.exists_numberOf? hsource
  obtain ⟨b, hb⟩ := Numbering.exists_numberOf? htarget
  exact ⟨numberAt_eq ha ▸ ha, numberAt_eq hb ▸ hb⟩

end Node

/-- In every program that can be read, the statements that can be executed directly after another
are exactly those that structured control flow gives, the statements before are the inverse, and
the statements with an entry on either side have a partner. -/
theorem successors_eq_controlFlow {tokens : List Token} {tree : Node}
    (h : parseProgram tokens = .ok tree) :
    (∀ a b, b ∈ tree.successors.image a ↔ ∃ p q, (p, q) ∈ tree.controlFlow ∧
      (Numbering.ofTree tree).numberOf? p = some a ∧
      (Numbering.ofTree tree).numberOf? q = some b) ∧
    (∀ a b, a ∈ tree.successors.preimage b ↔ b ∈ tree.successors.image a) ∧
    (∀ a ∈ tree.successors.domain, tree.successors.image a ≠ []) ∧
    ∀ b ∈ tree.successors.range, tree.successors.preimage b ≠ [] := by
  have hprogram : tree.IsProgram fun _ => True :=
    isProgram_of_parseProgram h fun _ _ => trivial
  refine ⟨fun a b => ?_, fun a b => by rw [FinRel.mem_preimage, FinRel.mem_image], ?_, ?_⟩
  · rw [FinRel.mem_image, Node.mem_successors hprogram, numbered, List.mem_map]
    constructor
    · rintro ⟨⟨p, q⟩, hpq, heq⟩
      obtain ⟨rfl, rfl⟩ := Prod.mk.inj heq
      exact ⟨p, q, hpq, hprogram.exists_numberOf? hpq⟩
    · rintro ⟨p, q, hpq, hp, hq⟩
      refine ⟨(p, q), hpq, ?_⟩
      rw [Prod.map_apply, Node.numberAt_eq hp, Node.numberAt_eq hq]
  · intro a ha
    obtain ⟨b, hb⟩ := FinRel.mem_domain.mp ha
    exact List.ne_nil_of_mem (FinRel.mem_image.mpr hb)
  · intro b hb
    obtain ⟨a, ha⟩ := FinRel.mem_range.mp hb
    exact List.ne_nil_of_mem (FinRel.mem_preimage.mpr ha)

/-- A program with a branching at the end of a loop. -/
def loopedBranching : String :=
  "procedure p \x7b while (x > 0) \x7b " ++
    "if (x > 1) then \x7b x = 1; \x7d else \x7b y = 2; \x7d \x7d \x7d"

/-- Both blocks of a branching at the end of a loop go back to the loop. -/
theorem successors_eq_controlFlow_loopedBranching : ∃ tokens tree,
    tokenize loopedBranching = .ok tokens ∧ parseProgram tokens = .ok tree ∧
      tree.successors.image 3 = [1] ∧ tree.successors.image 4 = [1] ∧
      ∃ p q, (p, q) ∈ tree.controlFlow ∧ (Numbering.ofTree tree).numberOf? p = some 3 ∧
        (Numbering.ofTree tree).numberOf? q = some 1 := by
  have hrun : (do
      let tokens ← (tokenize loopedBranching).toOption
      let tree ← (parseProgram tokens).toOption
      return (tree.successors.image 3, tree.successors.image 4)) = some ([1], [1]) := by
    decide +kernel
  obtain ⟨tokens, htokens, hrun⟩ := Option.bind_eq_some_iff.mp hrun
  obtain ⟨tree, htree, himages⟩ := Option.bind_eq_some_iff.mp hrun
  obtain ⟨himage, himage'⟩ := Prod.mk.inj (Option.some.inj himages)
  have hparse := eq_ok_of_toOption htree
  refine ⟨tokens, tree, eq_ok_of_toOption htokens, hparse, himage, himage', ?_⟩
  exact ((successors_eq_controlFlow hparse).1 3 1).mp (himage ▸ List.mem_cons_self)

end ProgramQuery
