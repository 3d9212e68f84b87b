import ProgramQuery.Data.FinRel
import ProgramQuery.Query.Clause

/-!
# Plans

The order in which the clauses of a query are taken. Clauses about no synonym come first, each on
its own. The others form a graph whose vertices are synonyms and whose edges are the clauses about
the same pair of synonyms, or about one synonym alone. Every connected part of the graph is a group,
and inside a group the cheapest edge that touches an earlier one is always next.

## Main definitions

- `Edge`: the clauses about the same synonyms, and the order by cost.
- `ClauseGraph`: the graph of the clauses of a query.
- `Tour`: a traversal of the graph, with a queue of the edges to choose from.
- `plan?`: the groups in the order in which they are taken.
-/

namespace ProgramQuery

/-- Where a clause belongs in the graph. -/
structure Placement where
  /-- The text that identifies the edge. -/
  signature : String
  /-- The synonyms that the edge joins; the same one twice for a clause about one synonym. -/
  ends : String × String
  /-- Whether the clause is about one synonym and a value or an underscore. -/
  isSingle : Bool
deriving DecidableEq

/-- The signature of a pair of synonyms, whatever their order. -/
def pairSignature (a b : String) : String :=
  if b < a then b ++ "-" ++ a else a ++ "-" ++ b

/-- Where a clause belongs in the graph, if it is about a synonym. -/
def Clause.placement? (c : Clause) : Option Placement :=
  match c.left.role, c.right.role with
  | .synonym, .synonym =>
    some ⟨pairSignature c.left.value c.right.value, (c.left.value, c.right.value), false⟩
  | .synonym, _ => some ⟨"hash_" ++ c.text, (c.left.value, c.left.value), true⟩
  | _, .synonym => some ⟨"hash_" ++ c.text, (c.right.value, c.right.value), true⟩
  | _, _ => none

/-- Whether a clause has an argument that it cannot be about. -/
def Clause.isInvalid (c : Clause) : Bool :=
  c.left.role = .invalid || c.right.role = .invalid

/-- The distinct clauses with one signature. -/
structure Edge where
  /-- Where the first of the clauses belongs. -/
  placement : Placement
  /-- The clauses, in order and without repetition. -/
  clauses : List Clause
deriving DecidableEq

namespace Edge

/-- The text that identifies the edge. -/
def signature (e : Edge) : String :=
  e.placement.signature

/-- The synonyms that the edge joins. -/
def ends (e : Edge) : List String :=
  [e.placement.ends.1, e.placement.ends.2]

/-- How much work the clauses are expected to be together. The sum is at most fourteen times the
length of the query, so 32 bits have room for it unless that is some hundred million characters. -/
def weight (e : Edge) : Nat :=
  e.clauses.foldr (fun c weight => c.kind.weight + weight) 0

/-- The order by cost: clauses about one synonym before those about two, then fewer before more,
then lighter before heavier, then by signature. -/
def compareCost (e f : Edge) : Ordering :=
  (compare (!e.placement.isSingle).toNat (!f.placement.isSingle).toNat).then <|
    (compare e.clauses.length f.clauses.length).then <|
      (compare e.weight f.weight).then (compare e.signature f.signature)

/-- The cheaper one of an edge and a candidate that may be missing. -/
def cheaper (best : Option Edge) (e : Edge) : Option Edge :=
  match best with
  | none => some e
  | some b => if e.compareCost b = .lt then some e else some b

/-- The cheapest of some edges. -/
def cheapest? (edges : List Edge) : Option Edge :=
  edges.foldl cheaper none

/-- A fold that keeps the cheaper edge ends with its start or with one of the edges. -/
theorem mem_of_foldl_cheaper {edges : List Edge} {best : Option Edge} {e : Edge}
    (h : edges.foldl cheaper best = some e) : best = some e ∨ e ∈ edges := by
  induction edges generalizing best with
  | nil => exact .inl h
  | cons f edges ih =>
    rcases ih h with hf | he
    · cases best with
      | none =>
        exact .inr (by simp [cheaper] at hf; simp [hf])
      | some b =>
        simp only [cheaper] at hf
        split at hf
        · exact .inr (by simp at hf; simp [hf])
        · exact .inl hf
    · exact .inr (List.mem_cons_of_mem f he)

/-- The cheapest edge is one of them. -/
theorem mem_of_cheapest? {edges : List Edge} {e : Edge} (h : cheapest? edges = some e) :
    e ∈ edges := by
  rcases mem_of_foldl_cheaper h with hn | he
  · simp at hn
  · exact he

end Edge

/-- The clauses of a query as a graph. -/
structure ClauseGraph where
  /-- The edges, by the first clause of each. -/
  edges : List Edge
  /-- From a synonym to the signatures of the clauses about it. -/
  incidence : FinRel String String

namespace ClauseGraph

/-- Adds a clause to the edge with its signature, or to a new one. -/
def addToEdges (p : Placement) (c : Clause) : List Edge → List Edge
  | [] => [⟨p, [c]⟩]
  | e :: edges =>
    if e.signature = p.signature then
      (if c ∈ e.clauses then e else { e with clauses := e.clauses ++ [c] }) :: edges
    else
      e :: addToEdges p c edges

/-- The graph of those clauses that are about a synonym. -/
def ofClauses (clauses : List Clause) : ClauseGraph :=
  let placed := clauses.filterMap fun c => c.placement?.map fun p => (p, c)
  { edges := placed.foldl (fun edges entry => addToEdges entry.1 entry.2 edges) []
    incidence := .ofPairs <| placed.flatMap fun entry =>
      [(entry.1.ends.1, entry.1.signature), (entry.1.ends.2, entry.1.signature)] }

/-- The synonyms of the graph, ascending. -/
def vertices (g : ClauseGraph) : List String :=
  g.incidence.domain

/-- The edges with a clause about a synonym. -/
def edgesAt (g : ClauseGraph) (v : String) : List Edge :=
  (g.incidence.image v).filterMap fun s => g.edges.find? fun e => e.signature = s

/-- The synonyms that the edges at a synonym join. -/
def joined (g : ClauseGraph) (v : String) : List String :=
  (g.edgesAt v).flatMap Edge.ends

/-- The connected parts of the unseen synonyms, each by its first synonym in a list of them. -/
def componentsFrom (g : ClauseGraph) (unseen : Std.TreeSet String) :
    List String → List (List String)
  | [] => []
  | v :: vs =>
    if unseen.contains v then
      let part := closureIn g.joined unseen [v]
      part :: componentsFrom g (discard unseen part) vs
    else
      componentsFrom g unseen vs

/-- The connected parts, each by the least synonym that is in no earlier one. -/
def components (g : ClauseGraph) : List (List String) :=
  g.componentsFrom (.ofList g.vertices) g.vertices

/-- Whether an edge has a clause about a synonym. -/
def isAt (g : ClauseGraph) (v : String) (e : Edge) : Bool :=
  e.signature ∈ g.incidence.rights v

end ClauseGraph

/-- A traversal of a graph that is under way. -/
structure Tour (g : ClauseGraph) where
  /-- The edges that have not been taken. -/
  remaining : List Edge
  /-- The edges to choose from. An edge may be queued twice, and stay there after it is taken. -/
  queue : List Edge
  /-- The synonyms of the edges that have been taken. -/
  reached : List String
  /-- Of the edges that have not been taken, those at a reached synonym are queued. -/
  queued : ∀ e ∈ remaining, e ∈ queue ↔ ∃ v ∈ reached, g.isAt v e

namespace Tour

variable {g : ClauseGraph}

/-- Before the first edge is taken, nothing is reached and nothing is queued. -/
def initial (g : ClauseGraph) : Tour g where
  remaining := g.edges
  queue := []
  reached := []
  queued := by simp

/-- The synonyms that an edge is the first one to reach. -/
def fresh (s : Tour g) (e : Edge) : List String :=
  e.ends.eraseDups.filter (· ∉ s.reached)

/-- Takes an edge. Each synonym that it is the first one to reach queues the edges at it. -/
def take (s : Tour g) (e : Edge) : Tour g :=
  let remaining := s.remaining.filter (· ≠ e)
  { remaining
    queue := (s.fresh e).flatMap (fun v => remaining.filter (g.isAt v)) ++ s.queue.erase e
    reached := s.fresh e ++ s.reached
    queued := by
      intro f hf
      obtain ⟨hmem, hne⟩ := List.mem_filter.mp hf
      have hqueue : f ∈ s.queue.erase e ↔ ∃ v ∈ s.reached, g.isAt v f := by
        rw [List.mem_erase_of_ne (of_decide_eq_true hne)]
        exact s.queued f hmem
      have hfound : ∀ v, f ∈ remaining.filter (g.isAt v) ↔ g.isAt v f := fun v => by
        rw [List.mem_filter, and_iff_right hf]
      simp only [List.mem_append, List.mem_flatMap, hfound, hqueue, or_and_right, exists_or] }

/-- Takes an edge out of the queue that has been taken before. -/
def pass (s : Tour g) (e : Edge) (he : e ∉ s.remaining) : Tour g :=
  { s with
    queue := s.queue.erase e
    queued := fun f hf => by
      have hne : f ≠ e := fun heq => he (heq ▸ hf)
      rw [List.mem_erase_of_ne hne]
      exact s.queued f hf }

/-- How far the traversal is from its end. An edge that is taken queues the others at most twice. -/
def measure (s : Tour g) : Nat :=
  s.remaining.length * (s.remaining.length + 1) + s.queue.length

theorem measure_pass_lt {s : Tour g} {e : Edge} (he : e ∉ s.remaining) (hqueue : e ∈ s.queue) :
    (s.pass e he).measure < s.measure := by
  have hpos := List.length_pos_of_mem hqueue
  simp only [measure, pass, List.length_erase_of_mem hqueue]
  omega

theorem length_fresh_le (s : Tour g) (e : Edge) : (s.fresh e).length ≤ 2 := by
  refine Nat.le_trans (List.length_filter_le _ _) ?_
  rw [Edge.ends, List.eraseDups_cons, List.filter_cons, List.filter_nil]
  split <;> simp [List.eraseDups_cons]

theorem measure_take_lt {s : Tour g} {e : Edge} (he : e ∈ s.remaining) (hqueue : e ∈ s.queue) :
    (s.take e).measure < s.measure := by
  have hpos := List.length_pos_of_mem hqueue
  have hless : (s.remaining.filter (· ≠ e)).length < s.remaining.length :=
    List.length_filter_lt_length_iff_exists.mpr ⟨e, he, by simp⟩
  -- two fresh synonyms queue each of the edges that are left
  have hfound : ∀ l : List String,
      (l.flatMap fun v => (s.remaining.filter (· ≠ e)).filter (g.isAt v)).length ≤
        l.length * (s.remaining.filter (· ≠ e)).length := by
    intro l
    induction l with
    | nil => simp
    | cons v l ih =>
      have hstep := List.length_filter_le (g.isAt v) (s.remaining.filter (· ≠ e))
      rw [List.flatMap_cons, List.length_append, List.length_cons, Nat.succ_mul]
      omega
  have hfresh := Nat.le_trans (hfound (s.fresh e))
    (Nat.mul_le_mul_right _ (s.length_fresh_le e))
  simp only [measure, take, List.length_append, List.length_erase_of_mem hqueue]
  generalize (s.remaining.filter (· ≠ e)).length = n at *
  have hpaid : (n + 1) * (n + 1 + 1) ≤ s.remaining.length * (s.remaining.length + 1) :=
    Nat.mul_le_mul hless (Nat.succ_le_succ hless)
  have hsquare : (n + 1) * (n + 1 + 1) = n * (n + 1) + 2 * n + 2 := by
    rw [Nat.mul_succ, Nat.add_mul n 1 (n + 1)]
    omega
  omega

/-- Takes the cheapest edge in the queue over and over. An edge that comes up again is passed
over. -/
def run (s : Tour g) : List Edge :=
  match _next : Edge.cheapest? s.queue with
  | none => []
  | some e => if he : e ∈ s.remaining then e :: (s.take e).run else (s.pass e he).run
termination_by s.measure
decreasing_by
  · exact measure_take_lt he (Edge.mem_of_cheapest? _next)
  · exact measure_pass_lt he (Edge.mem_of_cheapest? _next)

/-- The edges in the order of a traversal that starts with the given one. -/
def runFrom (g : ClauseGraph) (e : Edge) : List Edge :=
  e :: ((initial g).take e).run

end Tour

namespace ClauseGraph

/-- The clauses of a connected part in the order in which they are taken. -/
def group (g : ClauseGraph) (component : List String) : List Clause :=
  match Edge.cheapest? (component.flatMap g.edgesAt) with
  | none => []
  | some e => (Tour.runFrom g e).flatMap Edge.clauses

end ClauseGraph

/-- Whether a group goes before another one: groups with a selected synonym first, then shorter
ones. -/
def groupBefore (a b : Bool × List Clause) : Bool :=
  (a.1 && !b.1) || (a.1 == b.1 && a.2.length ≤ b.2.length)

/-- Puts a group before the first one that it may go before. -/
def insertGroup (a : Bool × List Clause) :
    List (Bool × List Clause) → List (Bool × List Clause)
  | [] => [a]
  | b :: groups => if groupBefore a b then a :: b :: groups else b :: insertGroup a groups

/-- Sorts groups, and keeps the order of those that may go either way. -/
def sortGroups (groups : List (Bool × List Clause)) : List (Bool × List Clause) :=
  groups.foldr insertGroup []

/-- The clauses in groups, in the order in which they are taken. There is no plan if a clause has
an argument that it cannot be about. -/
def plan? (clauses : List Clause) (selected : List String) : Option (List (List Clause)) :=
  if clauses.any Clause.isInvalid then
    none
  else
    let fixed := clauses.filter fun c => c.placement?.isNone
    let g := ClauseGraph.ofClauses clauses
    let groups := g.components.map fun component =>
      (component.any (· ∈ selected), g.group component)
    some (fixed.map ([·]) ++ (sortGroups groups).map Prod.snd)

end ProgramQuery
