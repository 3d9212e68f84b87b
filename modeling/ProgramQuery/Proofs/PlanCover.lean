import Mathlib.Data.List.Nodup
import Mathlib.Data.List.Sort
import Mathlib.Logic.Relation
import ProgramQuery.Query.Plan

/-!
# Plans take every clause

A plan arranges clauses by a graph, and a clause that the traversal of the graph missed would never
be applied. An edge joins its two synonyms in both directions, so that the connected parts of the
graph have no synonym in common, and each is reached from any of its synonyms. Hence the group of
a connected part holds the clauses about its synonyms, each once, and the groups of a plan hold all
clauses and no others.

Edges are found by a text. The results ask that clauses with the same text are about the same
synonyms, which is a property of how synonyms are written.

## Main definitions

- `SignaturesAgree`: clauses on the same edge are about the same synonyms.
- `ClauseGraph.IsConsistent`: an edge is found exactly at its two ends.
- `ClauseGraph.Joins`: an edge joins two synonyms.
- `ClauseGraph.IsPart`: a list holds the synonyms of a connected part.
- `ClauseGraph.takenEdges`: the edges of a group in the order in which they are taken.

## Main statements

- `ClauseGraph.partitions_components`: the connected parts are disjoint and leave out no synonym.
- `Tour.mem_run`: the traversal takes every edge that touches a reached synonym.
- `ClauseGraph.mem_takenEdges`: the edges of a group are those at the synonyms of its part.
- `ClauseGraph.mem_group`, `ClauseGraph.nodup_group`: a group has the clauses about its part, once.
- `mem_flatten_of_plan?`: a plan is made of the given clauses.
-/

namespace ProgramQuery

/-- Clauses with the same signature are about the same two synonyms, in either order. -/
def SignaturesAgree (clauses : List Clause) : Prop :=
  ∀ c ∈ clauses, ∀ d ∈ clauses, ∀ p o, c.placement? = some p → d.placement? = some o →
    p.signature = o.signature → p.ends = o.ends ∨ p.ends = o.ends.swap

namespace Clause

variable {c : Clause} {p : Placement}

/-- A clause is placed by both of its synonyms, or by the only one. -/
theorem placement?_cases (h : c.placement? = some p) :
    c.left.role = .synonym ∧ c.right.role = .synonym ∧
        p.signature = pairSignature c.left.value c.right.value ∧
        p.ends = (c.left.value, c.right.value) ∨
      p.signature = "hash_" ++ c.text ∧
        (c.left.role = .synonym ∧ c.right.role ≠ .synonym ∧
            p.ends = (c.left.value, c.left.value) ∨
          c.left.role ≠ .synonym ∧ c.right.role = .synonym ∧
            p.ends = (c.right.value, c.right.value)) := by
  unfold placement? at h
  split at h
  · rename_i hl hr
    obtain rfl := Option.some.inj h
    exact .inl ⟨hl, hr, rfl, rfl⟩
  · rename_i hl hr
    obtain rfl := Option.some.inj h
    exact .inr ⟨rfl, .inl ⟨hl, hr, rfl⟩⟩
  · rename_i hr hl
    obtain rfl := Option.some.inj h
    exact .inr ⟨rfl, .inr ⟨hl, hr, rfl⟩⟩
  · cases h

/-- The ends of a placement are the synonyms of the clause. -/
theorem mem_synonyms_of_placement? (h : c.placement? = some p) {x : String} :
    x ∈ c.synonyms ↔ x = p.ends.1 ∨ x = p.ends.2 := by
  rcases placement?_cases h with ⟨hl, hr, -, hends⟩ | ⟨-, ⟨hl, hr, hends⟩ | ⟨hl, hr, hends⟩⟩
  all_goals simp [synonyms, hl, hr, hends]

theorem placement?_eq_none_iff : c.placement? = none ↔ c.synonyms = [] := by
  unfold placement? synonyms
  cases hl : c.left.role <;> cases hr : c.right.role <;> simp [hl, hr]

end Clause

namespace Edge

theorem ne_none_of_foldl_cheaper {edges : List Edge} {e : Edge} :
    edges.foldl cheaper (some e) ≠ none := by
  induction edges generalizing e with
  | nil => simp
  | cons f edges ih =>
    rw [List.foldl_cons, cheaper]
    split <;> exact ih

theorem eq_nil_of_cheapest? {edges : List Edge} (h : cheapest? edges = none) : edges = [] := by
  cases edges with
  | nil => rfl
  | cons e edges => exact absurd h ne_none_of_foldl_cheaper

end Edge

namespace ClauseGraph

/-! ## Edges of the clauses -/

/-- The edges hold the placed clauses, each once, and one edge for each signature. -/
structure Holds (edges : List Edge) (placed : List (Placement × Clause)) : Prop where
  exists_edge : ∀ entry ∈ placed, ∃ e ∈ edges, e.signature = entry.1.signature ∧
    entry.2 ∈ e.clauses
  mem_placed : ∀ e ∈ edges, ∀ c ∈ e.clauses, ∃ p, (p, c) ∈ placed ∧ p.signature = e.signature
  placement_mem : ∀ e ∈ edges, ∃ c, (e.placement, c) ∈ placed
  distinct : edges.Pairwise fun e f => e.signature ≠ f.signature
  nodup : ∀ e ∈ edges, e.clauses.Nodup

theorem mem_addToEdges {p : Placement} {c : Clause} {edges : List Edge} {e : Edge}
    (h : e ∈ addToEdges p c edges) :
    e ∈ edges ∨ e = ⟨p, [c]⟩ ∨
      ∃ d ∈ edges, d.signature = p.signature ∧ c ∉ d.clauses ∧
        e = ⟨d.placement, d.clauses ++ [c]⟩ := by
  induction edges with
  | nil => exact .inr (.inl (by simpa [addToEdges] using h))
  | cons d edges ih =>
    rw [addToEdges] at h
    split at h
    · rename_i hsig
      rcases List.mem_cons.mp h with rfl | h
      · split
        · exact .inl List.mem_cons_self
        · rename_i hnew
          exact .inr (.inr ⟨d, List.mem_cons_self, hsig, hnew, rfl⟩)
      · exact .inl (List.mem_cons_of_mem d h)
    · rcases List.mem_cons.mp h with rfl | h
      · exact .inl List.mem_cons_self
      · rcases ih h with h | h | ⟨f, hf, hadded⟩
        · exact .inl (List.mem_cons_of_mem d h)
        · exact .inr (.inl h)
        · exact .inr (.inr ⟨f, List.mem_cons_of_mem d hf, hadded⟩)

theorem exists_mem_addToEdges_self (p : Placement) (c : Clause) (edges : List Edge) :
    ∃ e ∈ addToEdges p c edges, e.signature = p.signature ∧ c ∈ e.clauses := by
  induction edges with
  | nil => exact ⟨⟨p, [c]⟩, by simp [addToEdges], rfl, List.mem_singleton_self c⟩
  | cons d edges ih =>
    rw [addToEdges]
    split
    · refine ⟨_, List.mem_cons_self, ?_⟩
      split <;> simp_all [Edge.signature]
    · obtain ⟨e, he, hsig, hc⟩ := ih
      exact ⟨e, List.mem_cons_of_mem d he, hsig, hc⟩

theorem exists_mem_addToEdges {p : Placement} {c : Clause} {edges : List Edge} {d : Edge}
    (h : d ∈ edges) :
    ∃ e ∈ addToEdges p c edges, e.signature = d.signature ∧ ∀ b ∈ d.clauses, b ∈ e.clauses := by
  induction edges with
  | nil => cases h
  | cons f edges ih =>
    rw [addToEdges]
    rcases List.mem_cons.mp h with rfl | h
    · split
      · refine ⟨_, List.mem_cons_self, ?_⟩
        split <;> simp_all [Edge.signature]
      · exact ⟨d, List.mem_cons_self, rfl, fun b hb => hb⟩
    · split
      · exact ⟨d, List.mem_cons_of_mem _ h, rfl, fun b hb => hb⟩
      · obtain ⟨e, he, hsig, hsub⟩ := ih h
        exact ⟨e, List.mem_cons_of_mem f he, hsig, hsub⟩

theorem signature_of_mem_addToEdges {p : Placement} {c : Clause} {edges : List Edge} {e : Edge}
    (h : e ∈ addToEdges p c edges) :
    e.signature = p.signature ∨ ∃ d ∈ edges, e.signature = d.signature := by
  rcases mem_addToEdges h with h | rfl | ⟨d, hd, -, -, rfl⟩
  · exact .inr ⟨e, h, rfl⟩
  · exact .inl rfl
  · exact .inr ⟨d, hd, rfl⟩

theorem pairwise_addToEdges {p : Placement} {c : Clause} {edges : List Edge}
    (h : edges.Pairwise fun e f => e.signature ≠ f.signature) :
    (addToEdges p c edges).Pairwise fun e f => e.signature ≠ f.signature := by
  induction edges with
  | nil => simp [addToEdges]
  | cons d edges ih =>
    rw [List.pairwise_cons] at h
    rw [addToEdges]
    split
    · refine List.pairwise_cons.mpr ⟨fun f hf => ?_, h.2⟩
      split <;> exact h.1 f hf
    · rename_i hne
      refine List.pairwise_cons.mpr ⟨fun f hf => ?_, ih h.2⟩
      rcases signature_of_mem_addToEdges hf with heq | ⟨e, he, heq⟩
      · exact heq ▸ hne
      · exact heq ▸ h.1 e he

theorem Holds.addToEdges {edges : List Edge} {placed : List (Placement × Clause)}
    (h : Holds edges placed) (p : Placement) (c : Clause) :
    Holds (addToEdges p c edges) (placed ++ [(p, c)]) where
  exists_edge := by
    intro entry hentry
    rcases List.mem_append.mp hentry with hentry | hentry
    · obtain ⟨d, hd, hsig, hmem⟩ := h.exists_edge entry hentry
      obtain ⟨e, he, heq, hsub⟩ := exists_mem_addToEdges (p := p) (c := c) hd
      exact ⟨e, he, heq.trans hsig, hsub _ hmem⟩
    · obtain rfl := List.mem_singleton.mp hentry
      exact exists_mem_addToEdges_self p c edges
  mem_placed := by
    intro e he b hb
    rcases mem_addToEdges he with he | rfl | ⟨d, hd, hsig, -, rfl⟩
    · obtain ⟨o, ho, hsig⟩ := h.mem_placed e he b hb
      exact ⟨o, List.mem_append_left _ ho, hsig⟩
    · obtain rfl := List.mem_singleton.mp hb
      exact ⟨p, by simp, rfl⟩
    · rcases List.mem_append.mp hb with hb | hb
      · obtain ⟨o, ho, hsig⟩ := h.mem_placed d hd b hb
        exact ⟨o, List.mem_append_left _ ho, hsig⟩
      · obtain rfl := List.mem_singleton.mp hb
        exact ⟨p, by simp, hsig.symm⟩
  placement_mem := by
    intro e he
    rcases mem_addToEdges he with he | rfl | ⟨d, hd, -, -, rfl⟩
    · obtain ⟨b, hb⟩ := h.placement_mem e he
      exact ⟨b, List.mem_append_left _ hb⟩
    · exact ⟨c, by simp⟩
    · obtain ⟨b, hb⟩ := h.placement_mem d hd
      exact ⟨b, List.mem_append_left _ hb⟩
  distinct := pairwise_addToEdges h.distinct
  nodup := by
    intro e he
    rcases mem_addToEdges he with he | rfl | ⟨d, hd, -, hnew, rfl⟩
    · exact h.nodup e he
    · exact List.nodup_singleton c
    · rw [List.nodup_append_comm]
      exact List.nodup_cons.mpr ⟨hnew, h.nodup d hd⟩

theorem Holds.foldl {edges : List Edge} {placed more : List (Placement × Clause)}
    (h : Holds edges placed) :
    Holds (more.foldl (fun edges entry => ClauseGraph.addToEdges entry.1 entry.2 edges) edges)
      (placed ++ more) := by
  induction more generalizing edges placed with
  | nil => simpa using h
  | cons entry more ih =>
    have hstep := ih (h.addToEdges entry.1 entry.2)
    rwa [List.append_assoc] at hstep

/-- The clauses about a synonym, with where they belong. -/
def placed (clauses : List Clause) : List (Placement × Clause) :=
  clauses.filterMap fun c => c.placement?.map fun p => (p, c)

theorem mem_placed {clauses : List Clause} {p : Placement} {c : Clause} :
    (p, c) ∈ placed clauses ↔ c ∈ clauses ∧ c.placement? = some p := by
  simp only [placed, List.mem_filterMap, Option.map_eq_some_iff, Prod.mk.injEq]
  constructor
  · rintro ⟨d, hd, o, ho, rfl, rfl⟩
    exact ⟨hd, ho⟩
  · rintro ⟨hc, hp⟩
    exact ⟨c, hc, p, hp, rfl, rfl⟩

theorem holds_nil : Holds [] [] := by
  constructor <;> simp

theorem holds_ofClauses (clauses : List Clause) :
    Holds (ofClauses clauses).edges (placed clauses) :=
  holds_nil.foldl

theorem mem_incidence {clauses : List Clause} {v s : String} :
    (v, s) ∈ (ofClauses clauses).incidence.pairs ↔
      ∃ c ∈ clauses, ∃ p, c.placement? = some p ∧ p.signature = s ∧
        (v = p.ends.1 ∨ v = p.ends.2) := by
  constructor
  · intro h
    obtain ⟨⟨p, c⟩, hentry, hmem⟩ := List.mem_flatMap.mp h
    obtain ⟨hc, hp⟩ := mem_placed.mp hentry
    have hends : v = p.ends.1 ∧ s = p.signature ∨ v = p.ends.2 ∧ s = p.signature := by
      simpa using hmem
    rcases hends with ⟨rfl, rfl⟩ | ⟨rfl, rfl⟩
    · exact ⟨c, hc, p, hp, rfl, .inl rfl⟩
    · exact ⟨c, hc, p, hp, rfl, .inr rfl⟩
  · rintro ⟨c, hc, p, hp, rfl, hv⟩
    refine List.mem_flatMap.mpr ⟨(p, c), mem_placed.mpr ⟨hc, hp⟩, ?_⟩
    rcases hv with rfl | rfl <;> simp

/-! ## Consistent graphs -/

/-- Edges have different signatures, and an edge is found at its two ends and nowhere else. -/
structure IsConsistent (g : ClauseGraph) : Prop where
  distinct : g.edges.Pairwise fun e f => e.signature ≠ f.signature
  exists_edge : ∀ v s, (v, s) ∈ g.incidence.pairs → ∃ e ∈ g.edges, e.signature = s
  incident : ∀ e ∈ g.edges, ∀ v, (v, e.signature) ∈ g.incidence.pairs ↔ v ∈ e.ends

theorem isConsistent_ofClauses {clauses : List Clause} (h : SignaturesAgree clauses) :
    (ofClauses clauses).IsConsistent := by
  have hholds := holds_ofClauses clauses
  refine ⟨hholds.distinct, fun v s hs => ?_, fun e he v => ?_⟩
  · obtain ⟨c, hc, p, hp, rfl, -⟩ := mem_incidence.mp hs
    obtain ⟨e, he, hsig, -⟩ := hholds.exists_edge (p, c) (mem_placed.mpr ⟨hc, hp⟩)
    exact ⟨e, he, hsig⟩
  obtain ⟨d, hd⟩ := hholds.placement_mem e he
  obtain ⟨hd, hplacement⟩ := mem_placed.mp hd
  rw [mem_incidence, Edge.ends, List.mem_cons, List.mem_singleton]
  constructor
  · rintro ⟨c, hc, p, hp, hsig, hv⟩
    -- The clause found may not be the one that made the edge; both have the edge's ends.
    rcases h c hc d hd p _ hp hplacement hsig with heq | heq
    · rwa [heq] at hv
    · rw [heq] at hv
      exact hv.symm
  · intro hv
    exact ⟨d, hd, e.placement, hplacement, rfl, hv⟩

section Consistent

variable {g : ClauseGraph} (hg : g.IsConsistent)

include hg

theorem IsConsistent.find?_signature {e : Edge} (he : e ∈ g.edges) :
    g.edges.find? (fun f => f.signature = e.signature) = some e := by
  have hdistinct := hg.distinct
  generalize g.edges = edges at he hdistinct
  induction edges with
  | nil => cases he
  | cons f edges ih =>
    rw [List.pairwise_cons] at hdistinct
    rcases List.mem_cons.mp he with rfl | he
    · simp
    · rw [List.find?_cons_of_neg (by simpa using hdistinct.1 e he)]
      exact ih he hdistinct.2

theorem IsConsistent.mem_edgesAt {v : String} {e : Edge} :
    e ∈ g.edgesAt v ↔ e ∈ g.edges ∧ v ∈ e.ends := by
  rw [edgesAt, List.mem_filterMap]
  constructor
  · rintro ⟨s, hs, hfind⟩
    have he := List.mem_of_find?_eq_some hfind
    have hsig : e.signature = s := by simpa using List.find?_some hfind
    exact ⟨he, (hg.incident e he v).mp (hsig ▸ FinRel.mem_image.mp hs)⟩
  · rintro ⟨he, hv⟩
    exact ⟨e.signature, FinRel.mem_image.mpr ((hg.incident e he v).mpr hv), hg.find?_signature he⟩

end Consistent

/-! ## Connected parts -/

/-- An edge joins the two synonyms. -/
def Joins (g : ClauseGraph) (v w : String) : Prop :=
  ∃ e ∈ g.edges, v ∈ e.ends ∧ w ∈ e.ends

instance (g : ClauseGraph) : Std.Symm g.Joins where
  symm _ _ := fun ⟨e, he, hv, hw⟩ => ⟨e, he, hw, hv⟩

/-- The list holds what is connected with some synonym of the graph. -/
def IsPart (g : ClauseGraph) (component : List String) : Prop :=
  ∃ v ∈ g.vertices, ∀ w, w ∈ component ↔ Relation.ReflTransGen g.Joins v w

theorem IsPart.reflTransGen {g : ClauseGraph} {component : List String} (h : g.IsPart component)
    {v w : String} (hv : v ∈ component) (hw : w ∈ component) :
    Relation.ReflTransGen g.Joins v w := by
  obtain ⟨u, -, hu⟩ := h
  have hback : Relation.ReflTransGen g.Joins v u := symm ((hu v).mp hv)
  exact hback.trans ((hu w).mp hw)

theorem IsPart.mem_of_reflTransGen {g : ClauseGraph} {component : List String}
    (h : g.IsPart component) {v w : String} (hv : v ∈ component)
    (hpath : Relation.ReflTransGen g.Joins v w) : w ∈ component := by
  obtain ⟨u, -, hu⟩ := h
  exact (hu w).mpr (((hu v).mp hv).trans hpath)

theorem IsPart.mem_of_joins {g : ClauseGraph} {component : List String} (h : g.IsPart component)
    {v w : String} (hv : v ∈ component) (hvw : g.Joins v w) : w ∈ component :=
  h.mem_of_reflTransGen hv (.single hvw)

/-- No edge leaves the set of synonyms. -/
def IsUnion (g : ClauseGraph) (unseen : Std.TreeSet String) : Prop :=
  ∀ v ∈ unseen, ∀ w, g.Joins v w → w ∈ unseen

/-- The parts are connected ones, they have no synonym in common, and together they have every
synonym in `vs` that is in the set. -/
structure Partitions (g : ClauseGraph) (unseen : Std.TreeSet String) (vs : List String)
    (parts : List (List String)) : Prop where
  isPart : ∀ part ∈ parts, g.IsPart part
  mem_unseen : ∀ part ∈ parts, ∀ w ∈ part, w ∈ unseen
  disjoint : parts.Pairwise List.Disjoint
  covers : ∀ v ∈ vs, v ∈ unseen → ∃ part ∈ parts, v ∈ part

section Parts

variable {g : ClauseGraph} (hg : g.IsConsistent)

include hg

theorem IsConsistent.mem_joined {v w : String} : w ∈ g.joined v ↔ g.Joins v w := by
  simp only [joined, Joins, List.mem_flatMap, hg.mem_edgesAt, and_assoc]

theorem IsConsistent.exists_edge_at {v : String} (hv : v ∈ g.vertices) :
    ∃ e ∈ g.edges, v ∈ e.ends := by
  obtain ⟨s, hs⟩ := FinRel.mem_domain.mp hv
  obtain ⟨e, he, rfl⟩ := hg.exists_edge v s hs
  exact ⟨e, he, (hg.incident e he v).mp hs⟩

theorem IsConsistent.mem_vertices {e : Edge} (he : e ∈ g.edges) {v : String} (hv : v ∈ e.ends) :
    v ∈ g.vertices :=
  FinRel.mem_domain.mpr ⟨e.signature, (hg.incident e he v).mpr hv⟩

/-- A search in a set that no edge leaves finds all that is connected with its start. -/
theorem mem_closureIn_joined {unseen : Std.TreeSet String} (hunion : g.IsUnion unseen)
    {v w : String} (hv : v ∈ unseen) :
    w ∈ closureIn g.joined unseen [v] ↔ Relation.ReflTransGen g.Joins v w := by
  rw [mem_closureIn]
  constructor
  · intro h
    induction h with
    | seed _ start => rw [List.mem_singleton.mp start]
    | next _ _ edge ih => exact ih.tail (hg.mem_joined.mp edge)
  · intro h
    induction h with
    | refl => exact .seed hv List.mem_cons_self
    | @tail a b _ hab ih =>
      have ha : a ∈ unseen := by cases ih <;> assumption
      exact .next ih (hunion a ha b hab) (hg.mem_joined.mpr hab)

theorem isUnion_discard {unseen : Std.TreeSet String} (hunion : g.IsUnion unseen) {v : String}
    (hv : v ∈ unseen) : g.IsUnion (discard unseen (closureIn g.joined unseen [v])) := by
  intro a ha b hab
  obtain ⟨ha, hout⟩ := mem_discard.mp ha
  refine mem_discard.mpr ⟨hunion a ha b hab, fun hb => hout ?_⟩
  rw [mem_closureIn_joined hg hunion hv] at hb ⊢
  exact hb.tail (symm hab)

theorem partitions_componentsFrom {unseen : Std.TreeSet String} {vs : List String}
    (hvs : ∀ v ∈ vs, v ∈ g.vertices) (hunion : g.IsUnion unseen) :
    g.Partitions unseen vs (g.componentsFrom unseen vs) := by
  fun_induction componentsFrom g unseen vs with
  | case1 => exact ⟨by simp, by simp, .nil, by simp⟩
  | case2 unseen v vs hcontains part ih =>
    have hv : v ∈ unseen := Std.TreeSet.contains_iff_mem.mp hcontains
    have hpart : ∀ w, w ∈ part ↔ Relation.ReflTransGen g.Joins v w := fun w =>
      mem_closureIn_joined hg hunion hv
    have hrest := ih (fun w hw => hvs w (List.mem_cons_of_mem v hw)) (isUnion_discard hg hunion hv)
    refine ⟨?_, ?_, ?_, ?_⟩
    · exact List.forall_mem_cons.mpr ⟨⟨v, hvs v List.mem_cons_self, hpart⟩, hrest.isPart⟩
    · refine List.forall_mem_cons.mpr ⟨fun w hw => ?_, fun q hq w hw => ?_⟩
      · have hreached := mem_closureIn.mp hw
        cases hreached <;> assumption
      · exact (mem_discard.mp (hrest.mem_unseen q hq w hw)).1
    · refine List.pairwise_cons.mpr ⟨fun q hq w hw hwq => ?_, hrest.disjoint⟩
      exact (mem_discard.mp (hrest.mem_unseen q hq w hwq)).2 hw
    · intro w hw hunseen
      by_cases hin : w ∈ part
      · exact ⟨part, List.mem_cons_self, hin⟩
      · have hne : w ≠ v := fun heq => hin ((hpart w).mpr (heq ▸ .refl))
        obtain ⟨q, hq, hwq⟩ := hrest.covers w ((List.mem_cons.mp hw).resolve_left hne)
          (mem_discard.mpr ⟨hunseen, hin⟩)
        exact ⟨q, List.mem_cons_of_mem _ hq, hwq⟩
  | case3 unseen v vs hseen ih =>
    have hrest := ih (fun w hw => hvs w (List.mem_cons_of_mem v hw)) hunion
    refine ⟨hrest.isPart, hrest.mem_unseen, hrest.disjoint, fun w hw hunseen => ?_⟩
    have hne : w ≠ v := fun heq => hseen (Std.TreeSet.contains_iff_mem.mpr (heq ▸ hunseen))
    exact hrest.covers w ((List.mem_cons.mp hw).resolve_left hne) hunseen

/-- The connected parts of the graph have no synonym in common and leave out none. -/
theorem partitions_components :
    g.Partitions (.ofList g.vertices) g.vertices g.components := by
  refine partitions_componentsFrom hg (fun v hv => hv) fun v _ w hvw => ?_
  obtain ⟨e, he, -, hw⟩ := hvw
  exact Std.TreeSet.mem_ofList.mpr (by simpa using hg.mem_vertices he hw)

/-! ## The traversal -/

theorem IsConsistent.isAt_iff {e : Edge} (he : e ∈ g.edges) {v : String} :
    g.isAt v e ↔ v ∈ e.ends := by
  rw [isAt, decide_eq_true_eq, FinRel.mem_rights]
  exact hg.incident e he v

end Parts

end ClauseGraph

namespace Tour

variable {g : ClauseGraph} {s : Tour g} {e : Edge}

theorem mem_reached_take {v : String} : v ∈ (s.take e).reached ↔ v ∈ e.ends ∨ v ∈ s.reached := by
  simp only [take, fresh, List.mem_append, List.mem_filter, List.mem_eraseDups, decide_eq_true_eq]
  by_cases hv : v ∈ s.reached <;> simp [hv]

theorem mem_remaining_take {f : Edge} : f ∈ (s.take e).remaining ↔ f ∈ s.remaining ∧ f ≠ e := by
  simp [take]

theorem mem_of_mem_run (h : e ∈ s.run) : e ∈ s.remaining := by
  fun_induction run s with
  | case1 s hnone => cases h
  | case2 s f hnext hf ih =>
    rcases List.mem_cons.mp h with rfl | h
    · exact hf
    · exact (mem_remaining_take.mp (ih h)).1
  | case3 s f hnext hf ih => exact ih h

theorem not_mem_run_take : e ∉ (s.take e).run :=
  fun h => (mem_remaining_take.mp (mem_of_mem_run h)).2 rfl

theorem nodup_run (s : Tour g) : s.run.Nodup := by
  fun_induction run s with
  | case1 => exact List.nodup_nil
  | case2 s f hnext hf ih => exact List.nodup_cons.mpr ⟨not_mem_run_take, ih⟩
  | case3 s f hnext hf ih => exact ih

theorem nodup_runFrom (g : ClauseGraph) (e : Edge) : (runFrom g e).Nodup :=
  List.nodup_cons.mpr ⟨not_mem_run_take, nodup_run _⟩

theorem mem_remaining_first {f : Edge} :
    f ∈ ((initial g).take e).remaining ↔ f ∈ g.edges ∧ f ≠ e :=
  mem_remaining_take

theorem mem_reached_first {v : String} : v ∈ ((initial g).take e).reached ↔ v ∈ e.ends := by
  rw [mem_reached_take]
  simp [initial]

section Consistent

variable (hg : g.IsConsistent) (hsub : ∀ f ∈ s.remaining, f ∈ g.edges)

include hg hsub

/-- The traversal takes every remaining edge that touches a reached synonym, or an edge that it
takes. -/
theorem mem_run {v : String} (he : e ∈ s.remaining) (hv : v ∈ e.ends)
    (hreached : v ∈ s.reached ∨ ∃ f ∈ s.run, v ∈ f.ends) : e ∈ s.run := by
  fun_induction run s with
  | case1 s hnone =>
    rcases hreached with hreached | ⟨f, hf, -⟩
    · have hqueued := (s.queued e he).mpr ⟨v, hreached, (hg.isAt_iff (hsub e he)).mpr hv⟩
      rw [Edge.eq_nil_of_cheapest? hnone] at hqueued
      cases hqueued
    · cases hf
  | case2 s f hnext hf ih =>
    by_cases hef : e = f
    · exact hef ▸ List.mem_cons_self
    · refine List.mem_cons_of_mem f (ih (fun d hd => hsub d (mem_remaining_take.mp hd).1)
        (mem_remaining_take.mpr ⟨he, hef⟩) ?_)
      rcases hreached with hreached | ⟨d, hd, hvd⟩
      · exact .inl (mem_reached_take.mpr (.inr hreached))
      · rcases List.mem_cons.mp hd with rfl | hd
        · exact .inl (mem_reached_take.mpr (.inl hvd))
        · exact .inr ⟨d, hd, hvd⟩
  | case3 s f hnext hf ih => exact ih hsub he hreached

/-- An edge that comes up for the first time touches a reached synonym. -/
theorem exists_reached_of_cheapest? (hnext : Edge.cheapest? s.queue = some e)
    (he : e ∈ s.remaining) : ∃ v ∈ s.reached, v ∈ e.ends := by
  obtain ⟨v, hv, hat⟩ := (s.queued e he).mp (Edge.mem_of_cheapest? hnext)
  exact ⟨v, hv, (hg.isAt_iff (hsub e he)).mp hat⟩

/-- The traversal stays in the connected part in which it starts. -/
theorem exists_mem_ends_of_mem_run {component : List String} (hpart : g.IsPart component)
    (hreached : ∀ v ∈ s.reached, v ∈ component) (he : e ∈ s.run) :
    ∃ v ∈ component, v ∈ e.ends := by
  fun_induction run s with
  | case1 => cases he
  | case2 s f hnext hf ih =>
    obtain ⟨v, hv, hvf⟩ := exists_reached_of_cheapest? hg hsub hnext hf
    rcases List.mem_cons.mp he with rfl | he
    · exact ⟨v, hreached v hv, hvf⟩
    · refine ih (fun d hd => hsub d (mem_remaining_take.mp hd).1) (fun w hw => ?_) he
      rcases mem_reached_take.mp hw with hw | hw
      · exact hpart.mem_of_joins (hreached v hv) ⟨f, hsub f hf, hvf, hw⟩
      · exact hreached w hw
  | case3 s f hnext hf ih => exact ih hsub hreached he

end Consistent

end Tour

namespace ClauseGraph

/-! ## Groups -/

/-- The edges of a connected part in the order in which they are taken. -/
def takenEdges (g : ClauseGraph) (component : List String) : List Edge :=
  match Edge.cheapest? (component.flatMap g.edgesAt) with
  | none => []
  | some e => Tour.runFrom g e

theorem group_eq (g : ClauseGraph) (component : List String) :
    g.group component = (g.takenEdges component).flatMap Edge.clauses := by
  rw [group, takenEdges]
  cases Edge.cheapest? (component.flatMap g.edgesAt) <;> rfl

section Groups

variable {g : ClauseGraph} (hg : g.IsConsistent) {component : List String}

include hg

theorem exists_takenEdges_eq (hpart : g.IsPart component) :
    ∃ f, Edge.cheapest? (component.flatMap g.edgesAt) = some f ∧ f ∈ g.edges ∧
      (∃ v ∈ component, v ∈ f.ends) ∧ g.takenEdges component = Tour.runFrom g f := by
  rw [takenEdges]
  cases hcheapest : Edge.cheapest? (component.flatMap g.edgesAt) with
  | none =>
    obtain ⟨v, hv, hcomponent⟩ := hpart
    obtain ⟨e, he, hend⟩ := hg.exists_edge_at hv
    have hmem : e ∈ component.flatMap g.edgesAt :=
      List.mem_flatMap.mpr ⟨v, (hcomponent v).mpr .refl, hg.mem_edgesAt.mpr ⟨he, hend⟩⟩
    rw [Edge.eq_nil_of_cheapest? hcheapest] at hmem
    cases hmem
  | some f =>
    obtain ⟨v, hv, hf⟩ := List.mem_flatMap.mp (Edge.mem_of_cheapest? hcheapest)
    obtain ⟨hf, hend⟩ := hg.mem_edgesAt.mp hf
    exact ⟨f, rfl, hf, ⟨v, hv, hend⟩, rfl⟩

/-- An edge at an end of a taken edge is taken, the first one included. -/
theorem mem_runFrom {f d : Edge} {x : String} (hd : d ∈ g.edges) (hx : x ∈ d.ends)
    (htaken : ∃ k ∈ Tour.runFrom g f, x ∈ k.ends) : d ∈ Tour.runFrom g f := by
  by_cases hdf : d = f
  · exact hdf ▸ List.mem_cons_self
  · refine List.mem_cons_of_mem f (Tour.mem_run hg (fun a ha => (Tour.mem_remaining_first.mp ha).1)
      (Tour.mem_remaining_first.mpr ⟨hd, hdf⟩) hx ?_)
    obtain ⟨k, hk, hxk⟩ := htaken
    rcases List.mem_cons.mp hk with rfl | hk
    · exact .inl (Tour.mem_reached_first.mpr hxk)
    · exact .inr ⟨k, hk, hxk⟩

/-- The edges that are taken for a connected part are those at its synonyms. -/
theorem mem_takenEdges (hpart : g.IsPart component) {e : Edge} :
    e ∈ g.takenEdges component ↔ e ∈ g.edges ∧ ∃ v ∈ component, v ∈ e.ends := by
  obtain ⟨f, -, hf, ⟨w, hw, hwf⟩, htaken⟩ := exists_takenEdges_eq hg hpart
  rw [htaken]
  constructor
  · intro he
    rcases List.mem_cons.mp he with rfl | he
    · exact ⟨hf, w, hw, hwf⟩
    · refine ⟨(Tour.mem_remaining_first.mp (Tour.mem_of_mem_run he)).1, ?_⟩
      refine Tour.exists_mem_ends_of_mem_run hg (fun d hd => (Tour.mem_remaining_first.mp hd).1)
        hpart (fun v hv => ?_) he
      exact hpart.mem_of_joins hw ⟨f, hf, hwf, Tour.mem_reached_first.mp hv⟩
  · rintro ⟨he, v, hv, hve⟩
    -- along a path from the first edge all synonyms are ends of taken edges
    have hends : ∀ x, Relation.ReflTransGen g.Joins w x → ∃ k ∈ Tour.runFrom g f, x ∈ k.ends := by
      intro x hpath
      induction hpath with
      | refl => exact ⟨f, List.mem_cons_self, hwf⟩
      | tail _ hjoins ih =>
        obtain ⟨d, hd, ha, hb⟩ := hjoins
        exact ⟨d, mem_runFrom hg hd ha ih, hb⟩
    exact mem_runFrom hg he hve (hends v (hpart.reflTransGen hw hv))

omit hg in
theorem nodup_takenEdges : (g.takenEdges component).Nodup := by
  rw [takenEdges]
  split
  · exact List.nodup_nil
  · exact Tour.nodup_runFrom g _

end Groups

section OfClauses

variable {clauses : List Clause} {component : List String}

theorem mem_clauses_of_mem_edge {e : Edge} (he : e ∈ (ofClauses clauses).edges) {c : Clause}
    (hc : c ∈ e.clauses) :
    c ∈ clauses ∧ ∃ p, c.placement? = some p ∧ p.signature = e.signature := by
  obtain ⟨p, hp, hsig⟩ := (holds_ofClauses clauses).mem_placed e he c hc
  exact ⟨(mem_placed.mp hp).1, p, (mem_placed.mp hp).2, hsig⟩

variable (hagree : SignaturesAgree clauses)

include hagree

/-- A clause is on one edge only. -/
theorem eq_of_mem_clauses {e f : Edge} (he : e ∈ (ofClauses clauses).edges)
    (hf : f ∈ (ofClauses clauses).edges) {c : Clause} (hce : c ∈ e.clauses) (hcf : c ∈ f.clauses) :
    e = f := by
  have hg := isConsistent_ofClauses hagree
  obtain ⟨-, p, hp, hpe⟩ := mem_clauses_of_mem_edge he hce
  obtain ⟨-, o, ho, hof⟩ := mem_clauses_of_mem_edge hf hcf
  obtain rfl := Option.some.inj (hp.symm.trans ho)
  have hfind := hg.find?_signature he
  rw [← hpe, hof, hg.find?_signature hf] at hfind
  exact (Option.some.inj hfind).symm

/-- The ends of an edge are the synonyms of each of its clauses. -/
theorem mem_ends_iff {e : Edge} (he : e ∈ (ofClauses clauses).edges) {c : Clause}
    (hc : c ∈ e.clauses) {x : String} : x ∈ e.ends ↔ x ∈ c.synonyms := by
  obtain ⟨hmem, p, hp, hsig⟩ := mem_clauses_of_mem_edge he hc
  obtain ⟨d, hd⟩ := (holds_ofClauses clauses).placement_mem e he
  obtain ⟨hd, hplacement⟩ := mem_placed.mp hd
  rw [Clause.mem_synonyms_of_placement? hp, Edge.ends, List.mem_cons, List.mem_singleton]
  rcases hagree c hmem d hd p e.placement hp hplacement hsig with heq | heq
  · rw [heq]
  · rw [heq]
    exact or_comm

/-- A clause with a synonym is on an edge at it. -/
theorem exists_edge_of_mem_synonyms {c : Clause} (hc : c ∈ clauses) {x : String}
    (hx : x ∈ c.synonyms) : ∃ e ∈ (ofClauses clauses).edges, c ∈ e.clauses ∧ x ∈ e.ends := by
  cases hp : c.placement? with
  | none =>
    rw [Clause.placement?_eq_none_iff.mp hp] at hx
    cases hx
  | some p =>
    obtain ⟨e, he, -, hmem⟩ :=
      (holds_ofClauses clauses).exists_edge (p, c) (mem_placed.mpr ⟨hc, hp⟩)
    exact ⟨e, he, hmem, (mem_ends_iff hagree he hmem).mpr hx⟩

/-- The group of a connected part has the clauses about its synonyms. -/
theorem mem_group (hpart : (ofClauses clauses).IsPart component) {c : Clause} :
    c ∈ (ofClauses clauses).group component ↔ c ∈ clauses ∧ ∃ x ∈ c.synonyms, x ∈ component := by
  have hg := isConsistent_ofClauses hagree
  simp only [group_eq, List.mem_flatMap, mem_takenEdges hg hpart]
  constructor
  · rintro ⟨e, ⟨he, x, hx, hend⟩, hc⟩
    exact ⟨(mem_clauses_of_mem_edge he hc).1, x, (mem_ends_iff hagree he hc).mp hend, hx⟩
  · rintro ⟨hc, x, hx, hin⟩
    obtain ⟨e, he, hmem, hend⟩ := exists_edge_of_mem_synonyms hagree hc hx
    exact ⟨e, ⟨he, x, hin, hend⟩, hmem⟩

/-- The group of a connected part has no clause twice. -/
theorem nodup_group (hpart : (ofClauses clauses).IsPart component) :
    ((ofClauses clauses).group component).Nodup := by
  have hg := isConsistent_ofClauses hagree
  have hedge : ∀ e ∈ (ofClauses clauses).takenEdges component, e ∈ (ofClauses clauses).edges :=
    fun e he => ((mem_takenEdges hg hpart).mp he).1
  rw [group_eq, List.nodup_flatMap]
  refine ⟨fun e he => (holds_ofClauses clauses).nodup e (hedge e he), ?_⟩
  refine nodup_takenEdges.imp_of_mem fun he hf hne c hce hcf => ?_
  exact hne (eq_of_mem_clauses hagree (hedge _ he) (hedge _ hf) hce hcf)

/-- Every synonym of a clause is in some connected part. -/
theorem exists_mem_components {c : Clause} (hc : c ∈ clauses) {x : String} (hx : x ∈ c.synonyms) :
    ∃ component ∈ (ofClauses clauses).components, x ∈ component := by
  have hg := isConsistent_ofClauses hagree
  obtain ⟨e, he, -, hend⟩ := exists_edge_of_mem_synonyms hagree hc hx
  have hvertex := hg.mem_vertices he hend
  exact (partitions_components hg).covers x hvertex
    (Std.TreeSet.mem_ofList.mpr (by simpa using hvertex))

/-- The groups of the connected parts have the clauses about synonyms. -/
theorem mem_flatten_groups {c : Clause} :
    c ∈ ((ofClauses clauses).components.map (ofClauses clauses).group).flatten ↔
      c ∈ clauses ∧ c.synonyms ≠ [] := by
  have hparts := partitions_components (isConsistent_ofClauses hagree)
  rw [← List.flatMap_def, List.mem_flatMap]
  constructor
  · rintro ⟨component, hcomponent, hc⟩
    obtain ⟨hc, x, hx, -⟩ := (mem_group hagree (hparts.isPart _ hcomponent)).mp hc
    exact ⟨hc, List.ne_nil_of_mem hx⟩
  · rintro ⟨hc, hne⟩
    obtain ⟨x, hx⟩ := List.exists_mem_of_ne_nil _ hne
    obtain ⟨component, hcomponent, hin⟩ := exists_mem_components hagree hc hx
    exact ⟨component, hcomponent,
      (mem_group hagree (hparts.isPart _ hcomponent)).mpr ⟨hc, x, hx, hin⟩⟩

end OfClauses

end ClauseGraph

/-! ## The plan -/

/-- Groups are sorted by insertion. -/
theorem sortGroups_eq (groups : List (Bool × List Clause)) :
    sortGroups groups = groups.insertionSort fun a b => groupBefore a b = true := by
  have hinsert : ∀ a groups,
      insertGroup a groups = groups.orderedInsert (fun a b => groupBefore a b = true) a := by
    intro a groups
    induction groups with
    | nil => rfl
    | cons b groups ih => rw [insertGroup, List.orderedInsert_cons, ih]
  induction groups with
  | nil => rfl
  | cons a groups ih =>
    have hstep : sortGroups (a :: groups) = insertGroup a (sortGroups groups) := rfl
    rw [hstep, hinsert, ih, List.insertionSort_cons]

/-- There is a plan if no clause has an argument that it cannot be about. -/
theorem exists_plan? {clauses : List Clause} (h : ∀ c ∈ clauses, c.isInvalid = false)
    (selected : List String) : ∃ groups, plan? clauses selected = some groups := by
  have hvalid : clauses.any Clause.isInvalid = false := by simpa using h
  exact ⟨_, by rw [plan?, hvalid]; rfl⟩

/-- The groups of the connected parts, each with whether it is about a selected synonym. -/
def partGroups (clauses : List Clause) (selected : List String) : List (Bool × List Clause) :=
  (ClauseGraph.ofClauses clauses).components.map fun component =>
    (component.any (· ∈ selected), (ClauseGraph.ofClauses clauses).group component)

theorem perm_sortGroups_partGroups (clauses : List Clause) (selected : List String) :
    ((sortGroups (partGroups clauses selected)).map Prod.snd).Perm
      ((ClauseGraph.ofClauses clauses).components.map (ClauseGraph.ofClauses clauses).group) := by
  have hperm := (List.perm_insertionSort (fun a b => groupBefore a b = true)
    (partGroups clauses selected)).map Prod.snd
  rw [← sortGroups_eq] at hperm
  refine hperm.trans (.of_eq ?_)
  rw [partGroups, List.map_map]
  rfl

theorem eq_of_plan? {clauses : List Clause} {selected : List String} {groups : List (List Clause)}
    (h : plan? clauses selected = some groups) :
    groups = (clauses.filter fun c => c.synonyms.isEmpty).map ([·]) ++
      (sortGroups (partGroups clauses selected)).map Prod.snd := by
  unfold plan? at h
  split at h
  · cases h
  · have hfixed : (fun c : Clause => c.placement?.isNone) = fun c => c.synonyms.isEmpty := by
      funext c
      rw [Bool.eq_iff_iff, Option.isNone_iff_eq_none, Clause.placement?_eq_none_iff,
        List.isEmpty_iff]
    rw [← hfixed]
    exact (Option.some.inj h).symm

/-- A plan is made of the given clauses, and leaves out none of them. -/
theorem mem_flatten_of_plan? {clauses : List Clause} {selected : List String}
    {groups : List (List Clause)} (h : plan? clauses selected = some groups)
    (hagree : SignaturesAgree clauses) {c : Clause} : c ∈ groups.flatten ↔ c ∈ clauses := by
  have hfixed : c ∈ ((clauses.filter fun c => c.synonyms.isEmpty).map ([·])).flatten ↔
      c ∈ clauses ∧ c.synonyms = [] := by
    rw [← List.flatMap_def, List.flatMap_singleton', List.mem_filter, List.isEmpty_iff]
  rw [eq_of_plan? h, List.flatten_append, List.mem_append, hfixed,
    (perm_sortGroups_partGroups clauses selected).flatten.mem_iff,
    ClauseGraph.mem_flatten_groups hagree, ← and_or_left]
  exact and_iff_left (em _)

end ProgramQuery
