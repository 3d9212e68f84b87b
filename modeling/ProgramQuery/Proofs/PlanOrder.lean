import Mathlib.Data.List.Induction
import Mathlib.Data.Prod.Lex
import Mathlib.Data.String.Basic
import ProgramQuery.Proofs.PlanComponents

/-!
# Groups of a plan start with what is cheap

Inside a group of a plan the clauses come edge by edge: first the cheapest edge of the group, and
then always the cheapest one that touches an edge before it. The traversal finds it in a queue that
also holds edges taken long ago, and some edges twice. What counts is that of the edges not yet
taken the queue holds those at the reached synonyms and no others, so that its first new edge is the
cheapest of all that could come next.

## Main definitions

- `IsEdge`: an edge collects the clauses with one signature.
- `Edge.cost`: what the order of edges goes by.
- `IsCheapestFirst`: an order of edges in which the cheapest possible edge is always next.
- `Tour.Follows`: a traversal stands after the edges that it has taken.

## Main statements

- `ClauseGraph.mem_edges_iff_isEdge`: the edges of the graph are the edges of the clauses.
- `Tour.isNext_of_run`: a traversal takes the cheapest possible edge each time.
- `IsEdge.toNat_wordWeight`: the weight of an edge could as well be added up in words of 32 bits.
- `plan_isCheapestFirst`: the order of the clauses in the groups of a plan.
-/

namespace ProgramQuery

/-- The edge holds the clauses with one signature, in their order and each once, and is placed where
the first of them belongs. -/
structure IsEdge (clauses : List Clause) (e : Edge) : Prop where
  placement_eq : ∃ c ∈ e.clauses.head?, c.placement? = some e.placement
  clauses_eq : e.clauses =
    (clauses.filter fun c => c.placement?.map Placement.signature = some e.signature).eraseDups

namespace Edge

/-- What edges are ordered by: whether they are about two synonyms, how many clauses they have, how
much work these are, and the signature. -/
def cost (e : Edge) : Bool ×ₗ Nat ×ₗ Nat ×ₗ String :=
  toLex (!e.placement.isSingle, toLex (e.clauses.length, toLex (e.weight, e.signature)))

/-- The edge has an end in common with one of those done. -/
def Touches (e : Edge) (done : List Edge) : Prop :=
  ∃ d ∈ done, ∃ x ∈ d.ends, x ∈ e.ends

/-- The edge can come after those done: it touches one of them, or is the first. -/
def CanFollow (e : Edge) (done : List Edge) : Prop :=
  done = [] ∨ e.Touches done

end Edge

/-- Of the edges that are not done and can come next, this is the cheapest one. -/
structure IsNext (edges : Edge → Prop) (done : List Edge) (e : Edge) : Prop where
  canFollow : e.CanFollow done
  cheapest : ∀ f, edges f → f ∉ done → f.CanFollow done → f = e ∨ e.cost < f.cost

/-- The order has each of the edges once, and the cheapest possible edge is always next. -/
structure IsCheapestFirst (edges : Edge → Prop) (order : List Edge) : Prop where
  mem_iff : ∀ e, e ∈ order ↔ edges e
  nodup : order.Nodup
  isNext : ∀ done e rest, order = done ++ e :: rest → IsNext edges done e

/-! ## The order by cost -/

namespace Edge

variable {e f : Edge}

theorem compareCost_eq_lt_iff : e.compareCost f = .lt ↔ e.cost < f.cost := by
  have hsort : compare (!e.placement.isSingle).toNat (!f.placement.isSingle).toNat =
      compare (!e.placement.isSingle) (!f.placement.isSingle) := by
    cases e.placement.isSingle <;> cases f.placement.isSingle <;> rfl
  simp only [compareCost, cost, hsort, Ordering.then_eq_lt, Prod.Lex.toLex_lt_toLex,
    compare_lt_iff_lt, compare_eq_iff_eq]

theorem signature_eq_of_cost_eq (h : e.cost = f.cost) : e.signature = f.signature :=
  congrArg (fun cost => (ofLex (ofLex (ofLex cost).2).2).2) h

/-- A fold that keeps the cheaper edge ends with one that nothing undercuts. -/
theorem cost_le_of_foldl_cheaper {edges : List Edge} {best : Option Edge}
    (h : edges.foldl cheaper best = some e) :
    (∀ b ∈ best, e.cost ≤ b.cost) ∧ ∀ f ∈ edges, e.cost ≤ f.cost := by
  induction edges generalizing best with
  | nil =>
    obtain rfl : best = some e := h
    exact ⟨fun b hb => by rw [Option.some.inj hb], fun f hf => absurd hf List.not_mem_nil⟩
  | cons f edges ih =>
    obtain ⟨hbest, hedges⟩ := ih h
    cases best with
    | none => exact ⟨nofun, List.forall_mem_cons.mpr ⟨hbest f rfl, hedges⟩⟩
    | some b =>
      rw [cheaper] at hbest
      split at hbest
      · next hlt =>
        have hf := hbest f rfl
        have hfb := (compareCost_eq_lt_iff.mp hlt).le
        refine ⟨fun b' hb' => ?_, List.forall_mem_cons.mpr ⟨hf, hedges⟩⟩
        rw [← Option.some.inj hb']
        exact hf.trans hfb
      · next hlt =>
        have hb := hbest b rfl
        have hbf := not_lt.mp fun hcost => hlt (compareCost_eq_lt_iff.mpr hcost)
        exact ⟨hbest, List.forall_mem_cons.mpr ⟨hb.trans hbf, hedges⟩⟩

theorem cost_le_of_cheapest? {edges : List Edge} (h : cheapest? edges = some e) (hf : f ∈ edges) :
    e.cost ≤ f.cost :=
  (cost_le_of_foldl_cheaper h).2 f hf

end Edge

namespace ClauseGraph

/-! ## Edges hold the clauses with their signature -/

theorem eq_of_signature_eq {edges : List Edge}
    (h : edges.Pairwise fun e f => e.signature ≠ f.signature) {e f : Edge} (he : e ∈ edges)
    (hf : f ∈ edges) (hsig : e.signature = f.signature) : e = f :=
  List.inj_on_of_nodup_map (List.pairwise_map.mpr h) he hf hsig

/-- The placed clauses with a signature. -/
def withSignature (signature : String) (placed : List (Placement × Clause)) : List Clause :=
  (placed.filter fun entry => entry.1.signature = signature).map Prod.snd

theorem withSignature_append (signature : String) (placed : List (Placement × Clause))
    (p : Placement) (c : Clause) : withSignature signature (placed ++ [(p, c)]) =
      withSignature signature placed ++ if p.signature = signature then [c] else [] := by
  rw [withSignature, withSignature, List.filter_append, List.map_append]
  congr 1
  split <;> simp_all

theorem withSignature_placed (signature : String) (clauses : List Clause) :
    withSignature signature (placed clauses) =
      clauses.filter fun c => c.placement?.map Placement.signature = some signature := by
  induction clauses with
  | nil => rfl
  | cons c clauses ih =>
    rw [List.filter_cons, ← ih]
    cases hp : c.placement? with
    | none => simp [placed, withSignature, hp]
    | some p => by_cases hsig : p.signature = signature <;> simp [placed, withSignature, hp, hsig]

theorem eraseDups_append_singleton (l : List Clause) (c : Clause) :
    (l ++ [c]).eraseDups = l.eraseDups ++ if c ∈ l then [] else [c] := by
  rw [List.eraseDups_append]
  split <;> simp_all [List.removeAll, List.eraseDups_cons]

/-- Each edge has the clauses with its signature, and is placed like the first of them. -/
def Collects (edges : List Edge) (placed : List (Placement × Clause)) : Prop :=
  ∀ e ∈ edges, (∃ c ∈ e.clauses.head?, (e.placement, c) ∈ placed) ∧
    e.clauses = (withSignature e.signature placed).eraseDups

theorem Collects.addToEdges {edges : List Edge} {placed : List (Placement × Clause)}
    (h : Collects edges placed) (hdistinct : edges.Pairwise fun e f => e.signature ≠ f.signature)
    {p : Placement} {c : Clause} (hfound : ∀ entry ∈ placed, entry.1.signature = p.signature →
      ∃ e ∈ edges, e.signature = p.signature) :
    Collects (addToEdges p c edges) (placed ++ [(p, c)]) := by
  induction edges with
  | nil =>
    have hnone : withSignature p.signature placed = [] := by
      refine List.map_eq_nil_iff.mpr (List.filter_eq_nil_iff.mpr fun entry hentry hsig => ?_)
      obtain ⟨e, he, -⟩ := hfound entry hentry (of_decide_eq_true hsig)
      cases he
    intro e he
    obtain rfl : e = ⟨p, [c]⟩ := by simpa [ClauseGraph.addToEdges] using he
    refine ⟨⟨c, rfl, by simp⟩, ?_⟩
    have hsig : Edge.signature ⟨p, [c]⟩ = p.signature := rfl
    rw [withSignature_append, hsig, if_pos rfl, hnone]
    rfl
  | cons d edges ih =>
    obtain ⟨hd, hedges⟩ := List.forall_mem_cons.mp h
    rw [List.pairwise_cons] at hdistinct
    -- an edge with another signature stays as it is
    have hother : ∀ e ∈ d :: edges, e.signature ≠ p.signature →
        (∃ b ∈ e.clauses.head?, (e.placement, b) ∈ placed ++ [(p, c)]) ∧
          e.clauses = (withSignature e.signature (placed ++ [(p, c)])).eraseDups := by
      intro e he hne
      obtain ⟨⟨b, hb, hmem⟩, hclauses⟩ := h e he
      rw [withSignature_append, if_neg hne.symm, List.append_nil]
      exact ⟨⟨b, hb, List.mem_append_left _ hmem⟩, hclauses⟩
    rw [ClauseGraph.addToEdges]
    split
    · next hsig =>
      refine List.forall_mem_cons.mpr ⟨?_, fun e he => hother e (List.mem_cons_of_mem d he) ?_⟩
      · obtain ⟨⟨b, hb, hmem⟩, hclauses⟩ := hd
        have hmem := List.mem_append_left [(p, c)] hmem
        have happend : (withSignature d.signature (placed ++ [(p, c)])).eraseDups =
            d.clauses ++ if c ∈ d.clauses then [] else [c] := by
          rw [withSignature_append, if_pos hsig.symm, eraseDups_append_singleton, hclauses]
          simp only [List.mem_eraseDups]
        split
        · next hc => exact ⟨⟨b, hb, hmem⟩, by rw [happend, if_pos hc, List.append_nil]⟩
        · next hc =>
          rw [if_neg hc] at happend
          refine ⟨⟨b, ?_, hmem⟩, happend.symm⟩
          rw [List.head?_append, Option.mem_def.mp hb]
          rfl
      · exact fun heq => hdistinct.1 e he (hsig.trans heq.symm)
    · next hsig =>
      refine List.forall_mem_cons.mpr
        ⟨hother d List.mem_cons_self hsig, ih hedges hdistinct.2 fun entry hentry heq => ?_⟩
      obtain ⟨e, he, hesig⟩ := hfound entry hentry heq
      rcases List.mem_cons.mp he with rfl | he
      · exact absurd hesig hsig
      · exact ⟨e, he, hesig⟩

theorem Collects.foldl {edges : List Edge} {placed more : List (Placement × Clause)}
    (h : Collects edges placed) (hholds : Holds edges placed) :
    Collects (more.foldl (fun edges entry => ClauseGraph.addToEdges entry.1 entry.2 edges) edges)
      (placed ++ more) := by
  induction more generalizing edges placed with
  | nil => simpa using h
  | cons entry more ih =>
    obtain ⟨p, c⟩ := entry
    have hadded := h.addToEdges hholds.distinct (p := p) (c := c) fun entry hentry hsig => by
      obtain ⟨e, he, heq, -⟩ := hholds.exists_edge entry hentry
      exact ⟨e, he, heq.trans hsig⟩
    have hstep := ih hadded (hholds.addToEdges p c)
    rwa [List.append_assoc] at hstep

theorem isEdge_of_mem_edges {clauses : List Clause} {e : Edge}
    (he : e ∈ (ofClauses clauses).edges) : IsEdge clauses e := by
  have hnil : Collects [] [] := fun e he => absurd he List.not_mem_nil
  have hcollects : Collects (ofClauses clauses).edges (placed clauses) := hnil.foldl holds_nil
  obtain ⟨⟨c, hc, hmem⟩, hclauses⟩ := hcollects e he
  exact ⟨⟨c, hc, (mem_placed.mp hmem).2⟩, by rw [hclauses, withSignature_placed]⟩

theorem IsEdge.mem_clauses_iff {clauses : List Clause} {e : Edge} (h : IsEdge clauses e)
    {c : Clause} : c ∈ e.clauses ↔
      c ∈ clauses ∧ c.placement?.map Placement.signature = some e.signature := by
  rw [h.clauses_eq, List.mem_eraseDups, List.mem_filter, decide_eq_true_eq]

/-- The edges of the graph are those that collect clauses with one signature. -/
theorem mem_edges_iff_isEdge {clauses : List Clause} {e : Edge} :
    e ∈ (ofClauses clauses).edges ↔ IsEdge clauses e := by
  refine ⟨isEdge_of_mem_edges, fun h => ?_⟩
  -- the edge of its first clause has the same clauses, and so the same place
  obtain ⟨c, hc, hplacement⟩ := h.placement_eq
  have hmem := (IsEdge.mem_clauses_iff h).mp (List.mem_of_head? hc)
  obtain ⟨f, hf, hsig, -⟩ := (holds_ofClauses clauses).exists_edge (e.placement, c)
    (mem_placed.mpr ⟨hmem.1, hplacement⟩)
  have hedge := isEdge_of_mem_edges hf
  have hclauses : f.clauses = e.clauses := by
    rw [hedge.clauses_eq, h.clauses_eq, show f.signature = e.signature from hsig]
  obtain ⟨d, hd, hplacement'⟩ := hedge.placement_eq
  rw [hclauses] at hd
  obtain rfl := Option.mem_unique hd hc
  have hplacements : f.placement = e.placement :=
    Option.some.inj (hplacement'.symm.trans hplacement)
  have heq : f = e := by
    cases f
    cases e
    cases hplacements
    cases hclauses
    rfl
  exact heq ▸ hf

/-- Of two edges of the graph one is cheaper. -/
theorem eq_or_cost_lt {clauses : List Clause} {e f : Edge} (he : e ∈ (ofClauses clauses).edges)
    (hf : f ∈ (ofClauses clauses).edges) (h : e.cost ≤ f.cost) : f = e ∨ e.cost < f.cost := by
  rcases h.eq_or_lt with heq | hlt
  · exact .inl (eq_of_signature_eq (holds_ofClauses clauses).distinct hf he
      (Edge.signature_eq_of_cost_eq heq).symm)
  · exact .inr hlt

end ClauseGraph

/-! ## The queue -/

namespace Tour

/-- The edges done have been taken: their ends are reached, and all other edges remain. -/
structure Follows {g : ClauseGraph} (s : Tour g) (done : List Edge) : Prop where
  mem_remaining : ∀ f, f ∈ s.remaining ↔ f ∈ g.edges ∧ f ∉ done
  mem_reached : ∀ v, v ∈ s.reached ↔ ∃ d ∈ done, v ∈ d.ends

variable {g : ClauseGraph} {s : Tour g} {done : List Edge}

theorem follows_initial (g : ClauseGraph) : (initial g).Follows [] := by
  constructor <;> simp [initial]

theorem Follows.take (h : s.Follows done) (e : Edge) : (s.take e).Follows (done ++ [e]) where
  mem_remaining f := by
    rw [mem_remaining_take, h.mem_remaining, and_assoc, List.mem_append, List.mem_singleton, not_or]
  mem_reached v := by
    rw [mem_reached_take, h.mem_reached, or_comm]
    simp [or_and_right, exists_or]

theorem Follows.pass (h : s.Follows done) {e : Edge} (he : e ∉ s.remaining) :
    (s.pass e he).Follows done :=
  ⟨h.mem_remaining, h.mem_reached⟩

section Consistent

variable {clauses : List Clause} {s : Tour (.ofClauses clauses)} (hagree : SignaturesAgree clauses)

include hagree

/-- The edges that touch what is done are those at the reached synonyms. -/
theorem Follows.touches_iff (h : s.Follows done) {e : Edge} (he : e ∈ s.remaining) :
    e.Touches done ↔ e ∈ s.queue := by
  have hedge := ((h.mem_remaining e).mp he).1
  rw [s.queued e he]
  constructor
  · rintro ⟨d, hd, v, hvd, hve⟩
    exact ⟨v, (h.mem_reached v).mpr ⟨d, hd, hvd⟩,
      ((ClauseGraph.isConsistent_ofClauses hagree).isAt_iff hedge).mpr hve⟩
  · rintro ⟨v, hv, hat⟩
    obtain ⟨d, hd, hvd⟩ := (h.mem_reached v).mp hv
    exact ⟨d, hd, v, hvd, ((ClauseGraph.isConsistent_ofClauses hagree).isAt_iff hedge).mp hat⟩

/-- The first edge from the queue that has not been taken is the cheapest that can come next. -/
theorem Follows.isNext_of_cheapest? (h : s.Follows done) (hdone : done ≠ []) {e : Edge}
    (hnext : Edge.cheapest? s.queue = some e) (he : e ∈ s.remaining) :
    IsNext (· ∈ (ClauseGraph.ofClauses clauses).edges) done e where
  canFollow := .inr ((h.touches_iff hagree he).mpr (Edge.mem_of_cheapest? hnext))
  cheapest f hf hnew hfollow := by
    have hremaining := (h.mem_remaining f).mpr ⟨hf, hnew⟩
    have hqueue := (h.touches_iff hagree hremaining).mp (hfollow.resolve_left hdone)
    exact ClauseGraph.eq_or_cost_lt ((h.mem_remaining e).mp he).1 hf
      (Edge.cost_le_of_cheapest? hnext hqueue)

/-- A traversal takes the cheapest edge that can come next each time. -/
theorem isNext_of_run (h : s.Follows done) (hdone : done ≠ []) {more rest : List Edge} {e : Edge}
    (hrun : s.run = more ++ e :: rest) :
    IsNext (· ∈ (ClauseGraph.ofClauses clauses).edges) (done ++ more) e := by
  fun_induction run s generalizing done more with
  | case1 s hnone => simp at hrun
  | case2 s f hnext hf ih =>
    cases more with
    | nil =>
      obtain ⟨rfl, -⟩ := List.cons.inj hrun
      rw [List.append_nil]
      exact h.isNext_of_cheapest? hagree hdone hnext hf
    | cons d more =>
      obtain ⟨rfl, hmore⟩ := List.cons.inj hrun
      have hlater := ih (h.take f) (by simp) hmore
      rwa [List.append_assoc] at hlater
  | case3 s f hnext hf ih => exact ih (h.pass hf) hdone hrun

end Consistent

end Tour

namespace ClauseGraph

variable {clauses : List Clause} {component : List String} (hagree : SignaturesAgree clauses)

include hagree

/-- The edges at the synonyms of a connected part are taken by cost. -/
theorem isCheapestFirst_takenEdges (hpart : (ofClauses clauses).IsPart component) :
    IsCheapestFirst (fun e => e ∈ (ofClauses clauses).edges ∧ ∃ v ∈ component, v ∈ e.ends)
      ((ofClauses clauses).takenEdges component) where
  mem_iff e := mem_takenEdges (isConsistent_ofClauses hagree) hpart
  nodup := nodup_takenEdges
  isNext := by
    have hg := isConsistent_ofClauses hagree
    obtain ⟨first, hcheapest, hfirst, -, htaken⟩ := exists_takenEdges_eq hg hpart
    intro done e rest horder
    rw [htaken] at horder
    cases done with
    | nil =>
      obtain ⟨rfl, -⟩ := List.cons.inj horder
      refine ⟨.inl rfl, fun f hf _ _ => ?_⟩
      obtain ⟨hf, v, hv, hend⟩ := hf
      exact eq_or_cost_lt hfirst hf (Edge.cost_le_of_cheapest? hcheapest
        (List.mem_flatMap.mpr ⟨v, hv, hg.mem_edgesAt.mpr ⟨hf, hend⟩⟩))
    | cons d more =>
      obtain ⟨rfl, hrun⟩ := List.cons.inj horder
      have hnext := Tour.isNext_of_run hagree ((Tour.follows_initial _).take first) (by simp) hrun
      exact ⟨hnext.canFollow, fun f hf => hnext.cheapest f hf.1⟩

/-- The edges at the synonyms of a connected part hold what is linked with any clause of its
group. -/
theorem mem_part_iff_linked (hpart : (ofClauses clauses).IsPart component) {c : Clause}
    (hc : c ∈ (ofClauses clauses).group component) {e : Edge} :
    (e ∈ (ofClauses clauses).edges ∧ ∃ v ∈ component, v ∈ e.ends) ↔
      IsEdge clauses e ∧ ∃ d ∈ e.clauses, Linked clauses c d := by
  obtain ⟨hmem, x, hx, hin⟩ := (mem_group hagree hpart).mp hc
  rw [← mem_edges_iff_isEdge]
  refine and_congr_right fun he => ?_
  have hclause : ∀ d ∈ e.clauses, d ∈ clauses := fun d hd => (mem_clauses_of_mem_edge he hd).1
  constructor
  · rintro ⟨v, hv, hend⟩
    obtain ⟨d, hd, -⟩ := (isEdge_of_mem_edges he).placement_eq
    have hd := List.mem_of_head? hd
    have hvd := (mem_ends_iff hagree he hd).mp hend
    exact ⟨d, hd, (linked_iff hagree hmem hx (hclause d hd) hvd).mpr (hpart.reflTransGen hin hv)⟩
  · rintro ⟨d, hd, hlinked⟩
    have hend : e.placement.ends.1 ∈ e.ends := List.mem_cons_self
    have hvd := (mem_ends_iff hagree he hd).mp hend
    exact ⟨_, hpart.mem_of_reflTransGen hin
      ((linked_iff hagree hmem hx (hclause d hd) hvd).mp hlinked), hend⟩

end ClauseGraph

/-! ## Neighbours in a group -/

theorem exists_of_flatMap_clauses_eq {order : List Edge} {before after : List Clause} {c : Clause}
    (h : order.flatMap Edge.clauses = before ++ c :: after) :
    ∃ done e rest cs cs', order = done ++ e :: rest ∧ e.clauses = cs ++ c :: cs' ∧
      before = done.flatMap Edge.clauses ++ cs := by
  rw [List.flatMap_def] at h
  obtain ⟨earlier, cs, cs', later, hlists, rfl⟩ := exists_of_flatten_eq h
  obtain ⟨done, more, rfl, rfl, hmore⟩ := List.map_eq_append_iff.mp hlists
  obtain ⟨e, rest, rfl, he, -⟩ := List.map_eq_cons_iff.mp hmore
  exact ⟨done, e, rest, cs, cs', rfl, he, by rw [List.flatMap_def]⟩

/-- A clause that is not the first of its group has a synonym in common with one before it. -/
theorem exists_shared_synonym {clauses : List Clause} (hagree : SignaturesAgree clauses)
    {edges : Edge → Prop} (hedges : ∀ e, edges e → e ∈ (ClauseGraph.ofClauses clauses).edges)
    {order : List Edge} (horder : IsCheapestFirst edges order) {before after : List Clause}
    {c : Clause} (h : order.flatMap Edge.clauses = before ++ c :: after) (hne : before ≠ []) :
    ∃ d ∈ before, ∃ x ∈ d.synonyms, x ∈ c.synonyms := by
  obtain ⟨done, e, rest, cs, cs', rfl, he, rfl⟩ := exists_of_flatMap_clauses_eq h
  have hedge := fun f hf => hedges f ((horder.mem_iff f).mp hf)
  have hc : c ∈ e.clauses := by simp [he]
  have hends {f : Edge} (hf : f ∈ done ++ e :: rest) {d : Clause} (hd : d ∈ f.clauses)
      {x : String} : x ∈ f.ends ↔ x ∈ d.synonyms :=
    ClauseGraph.mem_ends_iff hagree (hedge f hf) hd
  cases cs with
  | cons d cs =>
    -- the clauses of one edge are about the same synonyms
    have hd : d ∈ e.clauses := by simp [he]
    have hfirst : e.placement.ends.1 ∈ e.ends := List.mem_cons_self
    exact ⟨d, by simp, _, (hends (by simp) hd).mp hfirst, (hends (by simp) hc).mp hfirst⟩
  | nil =>
    -- the edge touches an earlier one, and that has a clause
    have hdone : done ≠ [] := by
      rintro rfl
      exact hne rfl
    obtain ⟨f, hf, x, hxf, hxe⟩ := ((horder.isNext done e rest rfl).canFollow).resolve_left hdone
    obtain ⟨d, hd, -⟩ := (ClauseGraph.isEdge_of_mem_edges (hedge f (by simp [hf]))).placement_eq
    have hd := List.mem_of_head? hd
    refine ⟨d, ?_, x, (hends (by simp [hf]) hd).mp hxf, (hends (by simp) hc).mp hxe⟩
    rw [List.append_nil]
    exact List.mem_flatMap.mpr ⟨f, hf, hd⟩

/-! ## The weight of an edge -/

theorem ClauseKind.weight_le (kind : ClauseKind) : kind.weight ≤ 14 := by
  cases kind <;> decide

namespace Edge

/-- The weight of the clauses, added up in words of 32 bits. -/
def wordWeight (e : Edge) : UInt32 :=
  e.clauses.foldl (fun weight c => weight + .ofNat c.kind.weight) 0

theorem toNat_foldl_weight {clauses : List Clause} {start : UInt32}
    (h : start.toNat + 14 * clauses.length < UInt32.size) :
    (clauses.foldl (fun weight c => weight + .ofNat c.kind.weight) start).toNat =
      start.toNat + clauses.foldr (fun c weight => c.kind.weight + weight) 0 := by
  induction clauses generalizing start with
  | nil => rfl
  | cons c clauses ih =>
    have hle := c.kind.weight_le
    rw [List.length_cons] at h
    have hsize : UInt32.size = 4294967296 := rfl
    have hnext : (start + .ofNat c.kind.weight).toNat = start.toNat + c.kind.weight := by
      rw [UInt32.toNat_add, UInt32.toNat_ofNat_of_lt' (by omega), Nat.mod_eq_of_lt (by omega)]
    rw [List.foldl_cons, ih (by omega), hnext, List.foldr_cons, Nat.add_assoc]

end Edge

theorem length_eraseDups_le (l : List Clause) : l.eraseDups.length ≤ l.length := by
  induction l using List.reverseRecOn with
  | nil => simp
  | append_singleton l c ih =>
    rw [ClauseGraph.eraseDups_append_singleton, List.length_append, List.length_append]
    split <;> simp <;> omega

/-- In a query whose text is not hundreds of millions of characters long, words of 32 bits have room
for the weight of every edge. -/
theorem IsEdge.toNat_wordWeight {text : String} {q : Query} {e : Edge} (he : IsEdge q.clauses e)
    (hread : Query.ofText text = .ok q) (htext : 14 * text.length < UInt32.size) :
    e.wordWeight.toNat = e.weight := by
  have hlength : e.clauses.length ≤ text.length := by
    calc
      e.clauses.length ≤ (q.clauses.filter fun c =>
          c.placement?.map Placement.signature = some e.signature).length := by
        rw [he.clauses_eq]
        exact length_eraseDups_le _
      _ ≤ q.clauses.length := List.length_filter_le _ _
      _ ≤ text.length := length_clauses_le_of_ofText hread
  have hroom : (0 : UInt32).toNat + 14 * e.clauses.length < UInt32.size := by
    rw [UInt32.toNat_zero]
    omega
  rw [Edge.wordWeight, Edge.toNat_foldl_weight hroom, UInt32.toNat_zero, Nat.zero_add, Edge.weight]

/-! ## The order of a plan -/

/-- After the clauses without a synonym, the groups of a plan have the edges of what is linked, the
cheapest possible edge always next: the clauses about one synonym first, then those that are fewer,
then the lighter ones, then by signature. So a clause that is not the first of its group has a
synonym in common with an earlier one. -/
theorem plan_isCheapestFirst {clauses : List Clause} (hwritten : ∀ c ∈ clauses, c.IsWritten)
    (selected : List String) :
    ∃ groups, plan? clauses selected =
        some ((clauses.filter fun c => c.synonyms.isEmpty).map ([·]) ++ groups) ∧
      ∀ group ∈ groups,
        (∃ c ∈ group, ∃ order, group = order.flatMap Edge.clauses ∧
          IsCheapestFirst (fun e => IsEdge clauses e ∧ ∃ d ∈ e.clauses, Linked clauses c d) order) ∧
        ∀ before c after, group = before ++ c :: after → before ≠ [] →
          ∃ d ∈ before, ∃ x ∈ d.synonyms, x ∈ c.synonyms := by
  have hagree := signaturesAgree_of_isWritten hwritten
  have hparts := ClauseGraph.partitions_components (ClauseGraph.isConsistent_ofClauses hagree)
  obtain ⟨groups, hplan⟩ :=
    exists_plan? (fun c hc => (hwritten c hc).isInvalid_eq_false) selected
  refine ⟨_, by rw [hplan, eq_of_plan? hplan], fun group hgroup => ?_⟩
  rw [(perm_sortGroups_partGroups clauses selected).mem_iff] at hgroup
  obtain ⟨component, hcomponent, rfl⟩ := List.mem_map.mp hgroup
  have hpart := hparts.isPart component hcomponent
  have horder := ClauseGraph.isCheapestFirst_takenEdges hagree hpart
  obtain ⟨c, hc⟩ := List.exists_mem_of_ne_nil _ (ClauseGraph.group_ne_nil hagree hpart)
  refine ⟨⟨c, hc, _, ClauseGraph.group_eq _ _, ?_⟩, fun before d after hsplit hne => ?_⟩
  · simpa only [ClauseGraph.mem_part_iff_linked hagree hpart hc] using horder
  · rw [ClauseGraph.group_eq] at hsplit
    exact exists_shared_synonym hagree (fun e he => he.1) horder hsplit hne

/-- Three synonyms in a ring, with two clauses between two of them and a value for each of two. -/
def ringedClauses : List Clause :=
  [⟨.next, ⟨.stmtSynonym, "a"⟩, ⟨.stmtSynonym, "b"⟩, ""⟩,
   ⟨.affects, ⟨.stmtSynonym, "c"⟩, ⟨.stmtSynonym, "a"⟩, ""⟩,
   ⟨.followsStar, ⟨.stmtSynonym, "b"⟩, ⟨.stmtSynonym, "c"⟩, ""⟩,
   ⟨.modifies, ⟨.stmtSynonym, "b"⟩, ⟨.name, "x"⟩, ""⟩,
   ⟨.parent, ⟨.stmtSynonym, "a"⟩, ⟨.stmtSynonym, "c"⟩, ""⟩,
   ⟨.uses, ⟨.stmtSynonym, "c"⟩, ⟨.name, "y"⟩, ""⟩]

/-- The lighter one of the two clauses with a value comes first. The other one waits until its
synonym is reached, and the two clauses between the same synonyms come last. -/
theorem plan_isCheapestFirst_ringedClauses :
    (∀ c ∈ ringedClauses, c.IsWritten) ∧
      ∃ group, plan? ringedClauses ["a"] = some [group] ∧
        group.map Clause.text = ["Uses(c, \"y\")", "Follows*(b, c)", "Modifies(b, \"x\")",
          "Next(a, b)", "Affects(c, a)", "Parent(a, c)"] ∧
        ∃ c ∈ group, ∃ order, group = order.flatMap Edge.clauses ∧
          IsCheapestFirst (fun e => IsEdge ringedClauses e ∧
            ∃ d ∈ e.clauses, Linked ringedClauses c d) order := by
  have ha : Argument.IsWritten ⟨.stmtSynonym, "a"⟩ := .synonym rfl ⟨'a', [], by decide⟩
  have hb : Argument.IsWritten ⟨.stmtSynonym, "b"⟩ := .synonym rfl ⟨'b', [], by decide⟩
  have hc : Argument.IsWritten ⟨.stmtSynonym, "c"⟩ := .synonym rfl ⟨'c', [], by decide⟩
  have hx : Argument.IsWritten ⟨.name, "x"⟩ := .name ⟨'x', [], by decide⟩
  have hy : Argument.IsWritten ⟨.name, "y"⟩ := .name ⟨'y', [], by decide⟩
  have hwritten : ∀ c ∈ ringedClauses, c.IsWritten := by
    simp only [ringedClauses, List.forall_mem_cons]
    exact ⟨⟨ha, hb⟩, ⟨hc, ha⟩, ⟨hb, hc⟩, ⟨hb, hx⟩, ⟨ha, hc⟩, ⟨hc, hy⟩, List.forall_mem_nil _⟩
  have hplan : (plan? ringedClauses ["a"]).map (·.map (·.map Clause.text)) =
      some [["Uses(c, \"y\")", "Follows*(b, c)", "Modifies(b, \"x\")", "Next(a, b)",
        "Affects(c, a)", "Parent(a, c)"]] := by
    decide +kernel
  obtain ⟨groups, hgroups, horder⟩ := plan_isCheapestFirst hwritten ["a"]
  rw [hgroups] at hplan
  obtain ⟨group, rfl, htexts⟩ := List.map_eq_singleton_iff.mp (Option.some.inj hplan)
  exact ⟨hwritten, group, hgroups, htexts, (horder group List.mem_cons_self).1⟩

end ProgramQuery
