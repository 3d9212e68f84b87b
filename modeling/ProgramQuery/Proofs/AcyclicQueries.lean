import Mathlib.Combinatorics.SimpleGraph.Star
import ProgramQuery.Proofs.Answers

/-!
# Queries without cycles of clauses

The synonyms of a query are the vertices of a graph, with an edge between two synonyms that a clause
is about. An evaluation looks at the synonyms that are not joined two at a time. Where these do not
lie on a cycle of the graph, that is enough, and the answer is exactly what the satisfying
assignments show.

A component without a cycle is entered at a root. Every vertex then has one neighbour that is no
further from the root than itself, so the synonyms can be given values from the root outwards.

## Main definitions

- `Query.synonymGraph`: the graph of the synonyms of a query.

## Main statements

- `Query.isForest_of_isAcyclic`: without cycles, synonyms can be attached one after another.
- `Query.nodup_answer`: no line of an answer is repeated.
- `answer_single_of_isAcyclic`: the answer of a query for one element or for the truth.
- `answer_tuples_of_isAcyclic`: the answer of a query for several elements.
-/

namespace ProgramQuery

/-! ## Distance from a root -/

section Rank

variable {V : Type} {G : SimpleGraph V}

/-- Without cycles, at most one neighbour of a vertex is no further from a root than itself. -/
theorem eq_of_adj_of_dist_le (hG : G.IsAcyclic) {root x y z : V} (hroot : G.Reachable root x)
    (hy : G.Adj x y) (hz : G.Adj x z) (hyx : G.dist root y ≤ G.dist root x)
    (hzx : G.dist root z ≤ G.dist root x) : y = z := by
  classical
  obtain ⟨p, hp, -⟩ := hroot.exists_path_of_dist
  have hlast : ∀ w, G.Adj x w → G.dist root w ≤ G.dist root x → w = p.penultimate := by
    intro w hw hwx
    obtain ⟨q, hq, hlength⟩ := (hroot.trans hw.reachable).exists_path_of_dist
    -- a shortest way to the neighbour does not lead through the vertex
    have hx : x ∉ q.support := by
      intro hmem
      have hshort := SimpleGraph.dist_le (q.takeUntil x hmem)
      have hlt := q.length_takeUntil_lt_length hmem hw.ne
      omega
    exact hG.eq_penultimate_of_adj_end hp hw
      (hG.mem_support_of_ne_mem_support_of_adj_of_isPath hp hq hw hx)
  rw [hlast y hy hyx, hlast z hz hzx]

/-- Without cycles, the vertices can be ranked so that each has at most one neighbour that is not
ranked above it. Vertices of different components can be put first. -/
theorem exists_rank (hG : G.IsAcyclic) {first : V → Prop}
    (hfirst : ∀ x y, first x → first y → G.Reachable x y → x = y) :
    ∃ rank : V → Nat, (∀ x, first x → rank x = 0) ∧ ∀ x y z, G.Adj x y → G.Adj x z →
      rank y ≤ rank x → rank z ≤ rank x → y = z := by
  have hroots : ∀ C : G.ConnectedComponent, ∃ root, G.connectedComponentMk root = C ∧
      ∀ x, first x → G.connectedComponentMk x = C → x = root := by
    intro C
    by_cases hsome : ∃ x, first x ∧ G.connectedComponentMk x = C
    · obtain ⟨root, hroot, rfl⟩ := hsome
      exact ⟨root, rfl, fun x hx hC =>
        hfirst x root hx hroot (SimpleGraph.ConnectedComponent.exact hC)⟩
    · obtain ⟨root, hroot⟩ := C.exists_rep
      exact ⟨root, hroot, fun x hx hC => absurd ⟨x, hx, hC⟩ hsome⟩
  choose root hroot hunique using hroots
  refine ⟨fun x => G.dist (root (G.connectedComponentMk x)) x, fun x hx => ?_,
    fun x y z hy hz hyx hzx => ?_⟩
  · dsimp only
    rw [← hunique _ x hx rfl, SimpleGraph.dist_self]
  · -- neighbours have the same root
    have hsame : ∀ w, G.Adj x w → G.connectedComponentMk w = G.connectedComponentMk x :=
      fun w hw => SimpleGraph.ConnectedComponent.sound hw.symm.reachable
    dsimp only at hyx hzx
    rw [hsame y hy] at hyx
    rw [hsame z hz] at hzx
    exact eq_of_adj_of_dist_le hG (SimpleGraph.ConnectedComponent.exact (hroot _)) hy hz hyx hzx

end Rank

namespace Query

/-! ## The graph of synonyms -/

/-- The graph of the synonyms of a query. Two different synonyms are neighbours if a clause is about
both. -/
def synonymGraph (q : Query) : SimpleGraph String where
  Adj x y := x ≠ y ∧ ∃ c ∈ q.clauses, x ∈ c.synonyms ∧ y ∈ c.synonyms
  symm := ⟨fun _ _ ⟨hne, c, hc, hx, hy⟩ => ⟨hne.symm, c, hc, hy, hx⟩⟩
  loopless := ⟨fun _ h => h.1 rfl⟩

variable {q : Query}

/-- Synonyms in descending order of rank attach one after another. -/
theorem attaches_of_rank {G : SimpleGraph String} {rank : String → Nat}
    (hrank : ∀ x y z, G.Adj x y → G.Adj x z → rank y ≤ rank x → rank z ≤ rank x → y = z)
    (hjoined : ∀ x, q.IsJoined x → rank x = 0)
    (hadj : ∀ x y, ¬q.IsJoined x → q.synonymGraph.Adj x y → G.Adj x y) {order : List String}
    (hnot : ∀ x ∈ order, ¬q.IsJoined x) (horder : order.Pairwise fun x y => rank y ≤ rank x) :
    q.Attaches order := by
  induction order with
  | nil => trivial
  | cons x rest ih =>
    obtain ⟨hx, hrest⟩ := List.forall_mem_cons.mp hnot
    obtain ⟨hlower, horder⟩ := List.pairwise_cons.mp horder
    refine ⟨ih hrest horder, ?_⟩
    have hle : ∀ y, q.IsJoined y ∨ y ∈ rest → rank y ≤ rank x := by
      rintro y (hy | hy)
      · have := hjoined y hy
        omega
      · exact hlower y hy
    by_cases hparent : ∃ parent, G.Adj x parent ∧ rank parent ≤ rank x
    · obtain ⟨parent, hedge, hparent⟩ := hparent
      refine ⟨parent, fun c hc hxc y hyc hne hbefore => ?_⟩
      exact hrank x y parent (hadj x y hx ⟨hne.symm, c, hc, hxc, hyc⟩) hedge (hle y hbefore) hparent
    · refine ⟨x, fun c hc hxc y hyc hne hbefore => absurd ?_ hparent⟩
      exact ⟨y, hadj x y hx ⟨hne.symm, c, hc, hxc, hyc⟩, hle y hbefore⟩

/-- Without cycles among the synonyms that are not joined, these can be attached one after another.
The graph may leave out edges between joined synonyms, and no chain of its edges leads from one of
these to another. -/
theorem isForest_of_isAcyclic {G : SimpleGraph String} (hG : G.IsAcyclic)
    (hadj : ∀ x y, ¬q.IsJoined x → q.synonymGraph.Adj x y → G.Adj x y)
    (hone : ∀ x y, q.IsJoined x → q.IsJoined y → G.Reachable x y → x = y) : q.IsForest := by
  classical
  obtain ⟨rank, hjoined, hrank⟩ := exists_rank hG hone
  let outer := (q.synonyms.filter fun x => ¬q.IsJoined x).dedup
  have hperm := List.mergeSort_perm outer fun x y => rank y ≤ rank x
  have hmem : ∀ x, x ∈ outer.mergeSort (fun x y => rank y ≤ rank x) ↔
      x ∈ q.synonyms ∧ ¬q.IsJoined x := by
    intro x
    rw [hperm.mem_iff]
    simp [outer]
  refine ⟨_, hperm.nodup_iff.mpr (List.nodup_dedup _), hmem,
    attaches_of_rank hrank hjoined hadj (fun x hx => ((hmem x).mp hx).2) ?_⟩
  refine (List.pairwise_mergeSort (fun a b c hab hbc => ?_) (fun a b => ?_) outer).imp
    fun h => of_decide_eq_true h
  · simp only [decide_eq_true_eq] at hab hbc ⊢
    omega
  · simp only [Bool.or_eq_true, decide_eq_true_eq]
    omega

theorem isForest_of_single {e : Element} (he : q.elements = [e])
    (hacyclic : q.synonymGraph.IsAcyclic) : q.IsForest := by
  refine isForest_of_isAcyclic hacyclic (fun _ _ _ hedge => hedge) fun x y hx hy _ => ?_
  have honly : ∀ z, q.IsJoined z → z = e.synonym := by
    intro z hz
    have hselected := isJoined_of_single he hz
    simp only [selected, he, mem_ascending, List.mem_map, List.mem_filter, List.mem_singleton]
      at hselected
    obtain ⟨-, ⟨rfl, -⟩, rfl⟩ := hselected
    rfl
  rw [honly x hx, honly y hy]

/-- The graph of the synonyms that are not joined. -/
def outerGraph (q : Query) : SimpleGraph String where
  Adj x y := q.synonymGraph.Adj x y ∧ ¬q.IsJoined x ∧ ¬q.IsJoined y
  symm := ⟨fun _ _ ⟨hedge, hx, hy⟩ => ⟨hedge.symm, hy, hx⟩⟩
  loopless := ⟨fun _ h => h.1.ne rfl⟩

/-- Whatever is connected to a joined synonym is joined, unless a single element is selected. -/
theorem IsJoined.of_reachable (hseveral : q.elements.length ≠ 1) {x y : String}
    (hx : q.IsJoined x) (hxy : q.synonymGraph.Reachable x y) : q.IsJoined y := by
  rw [SimpleGraph.reachable_iff_reflTransGen] at hxy
  induction hxy with
  | refl => exact hx
  | tail _ hedge ih =>
    obtain ⟨-, c, hc, hyc, hzc⟩ := hedge
    exact .clause hseveral ih hc hyc hzc

theorem isForest_of_several (hseveral : q.elements.length ≠ 1)
    (hacyclic : ∀ C : q.synonymGraph.ConnectedComponent, (∀ x ∈ q.selected, x ∉ C) →
      C.toSimpleGraph.IsAcyclic) : q.IsForest := by
  have hadj : ∀ x y, ¬q.IsJoined x → q.synonymGraph.Adj x y → q.outerGraph.Adj x y :=
    fun x y hx hedge =>
      ⟨hedge, hx, fun hy => hx (hy.of_reachable hseveral hedge.symm.reachable)⟩
  refine isForest_of_isAcyclic (G := q.outerGraph) (fun x cycle hcycle => ?_) hadj
    fun x y hx _ hxy => ?_
  · -- a cycle outside lies in one component, and that has no selected synonym
    have hle : q.outerGraph ≤ q.synonymGraph := fun _ _ hedge => hedge.1
    have hx : ¬q.IsJoined x := (cycle.adj_snd hcycle.not_nil).2.1
    let walk := cycle.mapLe hle
    have hsupport : ∀ y ∈ walk.support, y ∈ (q.synonymGraph.connectedComponentMk x).supp := by
      classical
      intro y hy
      exact SimpleGraph.ConnectedComponent.sound (walk.takeUntil y hy).reverse.reachable
    have hinduced : (walk.induce _ hsupport).IsCycle := by
      refine .of_map (f := (SimpleGraph.Embedding.induce _).toHom) ?_
      rw [SimpleGraph.Walk.map_induce]
      exact hcycle.mapLe hle
    refine hacyclic (q.synonymGraph.connectedComponentMk x) (fun y hy hmem => ?_) _ hinduced
    exact hx ((IsJoined.selected hy).of_reachable hseveral
      (SimpleGraph.ConnectedComponent.exact hmem))
  · -- no edge leads away from a joined synonym
    rw [SimpleGraph.reachable_iff_reflTransGen] at hxy
    cases hxy.cases_head with
    | inl heq => exact heq
    | inr hstep =>
      obtain ⟨z, hedge, -⟩ := hstep
      exact absurd hx hedge.2.1

/-! ## Lines of an answer -/

section Lines

variable {facts : Facts} (hf : facts.IsWellFormed)

include hf

theorem isName_or_isNumber_of_mem_entities {kind : EntityKind} {value : String}
    (h : value ∈ facts.entities kind) : IsName value ∨ IsNumber value := by
  cases kind with
  | variableName => exact .inl (hf.variableNames value h)
  | constant => exact .inr (hf.constants value h)
  | procedure => exact .inl (hf.procedures value h)
  | _ =>
    obtain ⟨s, rfl, -⟩ := exists_of_isStatement hf rfl h
    exact .inr (isNumber_toString s)

theorem isName_of_operandOf? {kind : NodeKind} {value name : String}
    (h : operandOf? facts kind value = some name) : IsName name := by
  obtain ⟨s, -, hs⟩ := Option.bind_eq_some_iff.mp h
  rw [Facts.operandAt?] at hs
  split at hs
  · have hmem : name ∈ facts.operands.image s := List.mem_of_mem_head? (by simp [hs])
    exact (hf.operands _ _ (FinRel.mem_image.mp hmem)).2
  · cases hs

/-- What is shown of an entity is a name or a number. -/
theorem isName_or_isNumber_of_shown? {kind : EntityKind} {asked : ElementKind}
    {value shown : String} (hvalue : value ∈ facts.entities kind)
    (h : asked.shown? facts value = some shown) : IsName shown ∨ IsNumber shown := by
  have hself : some value = some shown → IsName shown ∨ IsNumber shown := by
    intro heq
    exact Option.some.inj heq ▸ isName_or_isNumber_of_mem_entities hf hvalue
  cases asked with
  | plain | boolean => exact hself h
  | attr a =>
    cases a with
    | calledName | readName | printedName => exact .inl (isName_of_operandOf? hf h)
    | procName | varName | constValue | stmtNumber => exact hself h

theorem isName_or_isNumber_of_forall₂ {v : String → String} {elements : List Element} {row : Row}
    (h : List.Forall₂ (fun e value => e.kind.shown? facts (v e.synonym) = some value) elements row)
    (hentity : ∀ e ∈ elements, ∃ kind, v e.synonym ∈ facts.entities kind) :
    ∀ value ∈ row, IsName value ∨ IsNumber value := by
  induction h with
  | nil => exact fun value hvalue => absurd hvalue List.not_mem_nil
  | cons hshown _ ih =>
    obtain ⟨⟨kind, hkind⟩, hrest⟩ := List.forall_mem_cons.mp hentity
    exact List.forall_mem_cons.mpr ⟨isName_or_isNumber_of_shown? hf hkind hshown, ih hrest⟩

/-- A row of an answer has a name or a number for each element. -/
theorem isName_or_isNumber_of_mem_answerRows (ht : q.IsTyped) (hboolean : q.isBoolean = false)
    {row : Row} (h : row ∈ q.answerRows facts) : row.length = q.elements.length ∧
      ∀ value ∈ row, IsName value ∨ IsNumber value := by
  obtain ⟨v, hv, hrow⟩ := (mem_answerRows hf ht hboolean).mp h
  obtain ⟨F, hF, hmem⟩ := hv.family
  have hentity : ∀ e ∈ q.elements, ∃ kind, v e.synonym ∈ facts.entities kind := by
    intro e he
    have hselected : e.synonym ∈ q.selected :=
      (mem_selected ht hboolean).mpr (List.mem_map_of_mem he)
    have hdomain := hF.mem_domain _ (List.mem_append_left _ hselected) _
      (hmem _ (.selected hselected))
    obtain ⟨kind, hdeclared, -⟩ := isTyped_of_mem_elements ht hboolean he
    rw [initialDomain, hdeclared] at hdomain
    exact ⟨kind, hdomain⟩
  exact ⟨hrow.length_eq.symm, isName_or_isNumber_of_forall₂ hf hrow hentity⟩

end Lines

/-- Rows of names and numbers can be read off their lines. -/
theorem intercalate_inj {row row' : Row} (hlength : row.length = row'.length)
    (h : ∀ value ∈ row, IsName value ∨ IsNumber value)
    (h' : ∀ value ∈ row', IsName value ∨ IsNumber value)
    (heq : " ".intercalate row = " ".intercalate row') : row = row' := by
  induction row generalizing row' with
  | nil => exact (List.length_eq_zero_iff.mp hlength.symm).symm
  | cons value row ih =>
    cases row' with
    | nil => cases hlength
    | cons value' row' =>
      obtain ⟨hvalue, hrow⟩ := List.forall_mem_cons.mp h
      obtain ⟨hvalue', hrow'⟩ := List.forall_mem_cons.mp h'
      cases row with
      | nil =>
        obtain rfl : row' = [] := List.length_eq_zero_iff.mp (Nat.succ.inj hlength).symm
        simpa using heq
      | cons next row =>
        cases row' with
        | nil => cases hlength
        | cons next' row' =>
          -- the first blank ends the first value
          have hlist := congrArg String.toList heq
          simp only [String.intercalate_cons_cons, String.toList_append, List.append_assoc] at hlist
          obtain ⟨hfirst, hrest⟩ := append_stop_inj (hvalue.elim IsName.isAlphanum
            IsNumber.isAlphanum) (hvalue'.elim IsName.isAlphanum IsNumber.isAlphanum) (by decide)
            (by decide) hlist
          rw [String.toList_inj.mp hfirst,
            ih (Nat.succ.inj hlength) hrow hrow' (String.toList_inj.mp hrest)]

theorem nodup_sortedRows (rows : List Row) : (sortedRows rows).Nodup := by
  refine (pairwise_sortedRows rows).imp fun {row row'} hlt heq => ?_
  have hself : compareKeys (rowKey row) (rowKey row) = .eq := Std.ReflCmp.compare_self
  rw [← heq, compareRows, hself] at hlt
  cases hlt

/-- No line of an answer is repeated. -/
theorem nodup_answer {facts : Facts} (hf : facts.IsWellFormed) (ht : q.IsTyped) :
    (q.answer facts).Nodup := by
  rw [answer]
  split
  · exact List.nodup_nil
  · split
    · exact List.nodup_singleton _
    · rename_i hboolean
      have hboolean : q.isBoolean = false := by simpa using hboolean
      have hrows : (q.answerRows facts).Nodup := by
        rw [answerRows]
        split
        · exact List.nodup_nil
        · exact nodup_sortedRows _
      refine hrows.map_on fun row hrow row' hrow' heq => ?_
      obtain ⟨hlength, hvalues⟩ := isName_or_isNumber_of_mem_answerRows hf ht hboolean hrow
      obtain ⟨hlength', hvalues'⟩ := isName_or_isNumber_of_mem_answerRows hf ht hboolean hrow'
      exact intercalate_inj (hlength.trans hlength'.symm) hvalues hvalues' heq

/-! ## Exact answers -/

section Exact

variable {facts : Facts} (hf : facts.IsWellFormed) (ht : q.IsTyped) (hforest : q.IsForest)

include hf ht hforest

theorem mem_answerRows_of_isForest (hboolean : q.isBoolean = false) {row : Row} :
    row ∈ q.answerRows facts ↔ ∃ v, q.Satisfies facts v ∧ q.Shows facts v row := by
  rw [mem_answerRows hf ht hboolean]
  constructor
  · rintro ⟨v, hv, hrow⟩
    obtain ⟨w, hw, hsame⟩ := hv.exists_satisfies hforest
    exact ⟨w, hw, hrow.congr ht hboolean hsame⟩
  · rintro ⟨v, hv, hrow⟩
    exact ⟨v, hv.satisfiesPairwise, hrow⟩

theorem answer_eq_true_of_isForest (hboolean : q.isBoolean = true) :
    q.answer facts = ["TRUE"] ↔ ∃ v, q.Satisfies facts v := by
  rw [answer_eq_true hf ht hboolean]
  constructor
  · rintro ⟨v, hv⟩
    obtain ⟨w, hw, -⟩ := hv.exists_satisfies hforest
    exact ⟨w, hw⟩
  · rintro ⟨v, hv⟩
    exact ⟨v, hv.satisfiesPairwise⟩

end Exact

theorem answer_eq_map (hempty : q.isEmpty = false) (hboolean : q.isBoolean = false)
    (facts : Facts) : q.answer facts = (q.answerRows facts).map (" ".intercalate ·) := by
  rw [answer, if_neg (by simp [hempty]), if_neg (by simp [hboolean])]

/-- The truth is answered in one of two words. -/
theorem answer_eq_or (hboolean : q.isBoolean = true) (facts : Facts) :
    q.answer facts = ["TRUE"] ∨ q.answer facts = ["FALSE"] := by
  have hempty : q.isEmpty = false := by
    cases helements : q.elements with
    | nil => simp [isBoolean, helements] at hboolean
    | cons e elements => simp [isEmpty, helements]
  rw [answer, if_neg (by simp [hempty]), if_pos hboolean]
  cases (evaluate? facts q).isSome
  · exact .inr rfl
  · exact .inl rfl

end Query

/-- Queries for one element whose clauses form no cycle are answered exactly. An answer is the truth
if and only if an assignment satisfies the query; and the lines of all others are what the element
shows under the satisfying assignments, each once. -/
theorem answer_single_of_isAcyclic {source text : String} {facts : Facts} {q : Query} {e : Element}
    (hlength : source.length < numeralBound) (hfacts : Facts.ofSource source = .ok facts)
    (hquery : Query.ofText text = .ok q) (hsingle : q.elements = [e])
    (hacyclic : q.synonymGraph.IsAcyclic) :
    (e.kind = .boolean →
      ((∃ v, q.Satisfies facts v) → q.answer facts = ["TRUE"]) ∧
      ((¬∃ v, q.Satisfies facts v) → q.answer facts = ["FALSE"])) ∧
    (e.kind ≠ .boolean → (q.answer facts).Nodup ∧ ∀ line, line ∈ q.answer facts ↔
      ∃ v, q.Satisfies facts v ∧ e.kind.shown? facts (v e.synonym) = some line) := by
  have hf := isWellFormed_of_ofSource hfacts hlength
  have ht := isTyped_of_ofText hquery
  have hforest := Query.isForest_of_single hsingle hacyclic
  have hkind : q.isBoolean = decide (e.kind = .boolean) := by rw [Query.isBoolean, hsingle]
  refine ⟨fun htruth => ?_, fun hvalue => ⟨Query.nodup_answer hf ht, fun line => ?_⟩⟩
  · have hboolean : q.isBoolean = true := by rw [hkind, decide_eq_true htruth]
    have htrue := Query.answer_eq_true_of_isForest hf ht hforest hboolean
    exact ⟨htrue.mpr, fun hnone =>
      (Query.answer_eq_or hboolean facts).resolve_left fun h => hnone (htrue.mp h)⟩
  · have hboolean : q.isBoolean = false := by rw [hkind, decide_eq_false hvalue]
    have hempty : q.isEmpty = false := by rw [Query.isEmpty, hsingle, List.isEmpty_cons]
    rw [Query.answer_eq_map hempty hboolean, List.mem_map]
    simp only [Query.mem_answerRows_of_isForest hf ht hforest hboolean, Query.Shows, hsingle,
      List.forall₂_cons_left_iff, List.forall₂_nil_left_iff]
    constructor
    · rintro ⟨-, ⟨v, hv, value, -, hshown, rfl, rfl⟩, rfl⟩
      exact ⟨v, hv, by simpa using hshown⟩
    · rintro ⟨v, hv, hshown⟩
      exact ⟨[line], ⟨v, hv, line, [], hshown, rfl, rfl⟩, by simp⟩

/-- Which assignments are directly followed by a loop with a variable. -/
def intoLoops : String :=
  "assign a; while w; variable v; Select a such that Next(a, w) and Uses(w, v)"

/-- The assignments before a loop and at its end, and nothing else, are followed by the loop. -/
theorem answer_single_of_isAcyclic_intoLoops : ∃ facts q e,
    countingUp.length < numeralBound ∧ Facts.ofSource countingUp = .ok facts ∧
      Query.ofText intoLoops = .ok q ∧ q.elements = [e] ∧ q.synonymGraph.IsAcyclic ∧
      q.answer facts = ["1", "3"] ∧
      ∃ v, q.Satisfies facts v ∧ e.kind.shown? facts (v e.synonym) = some "3" := by
  have hlength : countingUp.length < numeralBound := by decide +kernel
  have hrun : (do
      let facts ← (Facts.ofSource countingUp).toOption
      let q ← (Query.ofText intoLoops).toOption
      return decide (q.elements = [⟨.plain, "a"⟩] ∧ q.answer facts = ["1", "3"] ∧
        ∀ c ∈ q.clauses, ∀ x ∈ c.synonyms, ∀ y ∈ c.synonyms, x ≠ y → x = "w" ∨ y = "w")) =
      some true := by
    decide +kernel
  obtain ⟨facts, hfacts, hrun⟩ := Option.bind_eq_some_iff.mp hrun
  obtain ⟨q, hquery, hrun⟩ := Option.bind_eq_some_iff.mp hrun
  obtain ⟨hsingle, hanswer, hstar⟩ := of_decide_eq_true (Option.some.inj hrun)
  have hfacts := eq_ok_of_toOption hfacts
  have hquery := eq_ok_of_toOption hquery
  -- both clauses are about the loop
  have hacyclic : q.synonymGraph.IsAcyclic := by
    refine (SimpleGraph.isAcyclic_starGraph "w").anti fun x y hedge => ?_
    obtain ⟨hne, c, hc, hx, hy⟩ := hedge
    exact SimpleGraph.starGraph_adj.mpr ⟨hne, hstar c hc x hx y hy hne⟩
  refine ⟨facts, q, ⟨.plain, "a"⟩, hlength, hfacts, hquery, hsingle, hacyclic, hanswer, ?_⟩
  have hexact := (answer_single_of_isAcyclic hlength hfacts hquery hsingle hacyclic).2 (by decide)
  exact (hexact.2 "3").mp (by rw [hanswer]; decide)

/-- Queries for several elements are answered exactly if every connected component without a
selected synonym is free of cycles. The lines are those of the rows that the elements show under the
satisfying assignments, each once. -/
theorem answer_tuples_of_isAcyclic {source text : String} {facts : Facts} {q : Query}
    (hlength : source.length < numeralBound) (hfacts : Facts.ofSource source = .ok facts)
    (hquery : Query.ofText text = .ok q) (hseveral : 2 ≤ q.elements.length)
    (hacyclic : ∀ C : q.synonymGraph.ConnectedComponent, (∀ x ∈ q.selected, x ∉ C) →
      C.toSimpleGraph.IsAcyclic) :
    ∃ rows : List Row, q.answer facts = rows.map (" ".intercalate ·) ∧ (q.answer facts).Nodup ∧
      ∀ row, row ∈ rows ↔ ∃ v, q.Satisfies facts v ∧ q.Shows facts v row := by
  have hf := isWellFormed_of_ofSource hfacts hlength
  have ht := isTyped_of_ofText hquery
  have hforest := Query.isForest_of_several (by omega) hacyclic
  have hboolean : q.isBoolean = false := by
    rw [Query.isBoolean]
    split
    · rename_i e he
      rw [he, List.length_singleton] at hseveral
      omega
    · rfl
  have hempty : q.isEmpty = false := by
    rw [Query.isEmpty, List.isEmpty_eq_false_iff, ← List.length_pos_iff]
    omega
  exact ⟨q.answerRows facts, Query.answer_eq_map hempty hboolean facts, Query.nodup_answer hf ht,
    fun row => Query.mem_answerRows_of_isForest hf ht hforest hboolean⟩

/-- A loop of three statements. -/
def roundTrip : String :=
  "procedure p \x7b while (x > 0) \x7b x = 1; y = 2; \x7d \x7d"

/-- The first of three steps that lead back, if an assignment modifies a variable. -/
def stepsBack : String :=
  "stmt a, b, c; assign d; variable v; Select <a, b> such that Next(a, b) and Next(b, c) " ++
    "and Next(c, a) and Modifies(d, v)"

/-- Three steps lead round the loop. The selected synonyms lie on a cycle of clauses, and the other
component has none. -/
theorem answer_tuples_of_isAcyclic_stepsBack : ∃ facts q,
    roundTrip.length < numeralBound ∧ Facts.ofSource roundTrip = .ok facts ∧
      Query.ofText stepsBack = .ok q ∧ 2 ≤ q.elements.length ∧
      (∀ C : q.synonymGraph.ConnectedComponent, (∀ x ∈ q.selected, x ∉ C) →
        C.toSimpleGraph.IsAcyclic) ∧
      q.answer facts = ["1 2", "2 3", "3 1"] ∧
      ∃ rows : List Row, q.answer facts = rows.map (" ".intercalate ·) ∧
        ∀ row, row ∈ rows ↔ ∃ v, q.Satisfies facts v ∧ q.Shows facts v row := by
  have hlength : roundTrip.length < numeralBound := by decide +kernel
  have hrun : (do
      let facts ← (Facts.ofSource roundTrip).toOption
      let q ← (Query.ofText stepsBack).toOption
      return decide (2 ≤ q.elements.length ∧ q.answer facts = ["1 2", "2 3", "3 1"] ∧
        ∀ c ∈ q.clauses, ∀ x ∈ c.synonyms, ∀ y ∈ c.synonyms, x ≠ y →
          x ∈ q.selected ∨ y ∈ q.selected ∨ x = "d" ∨ y = "d")) = some true := by
    decide +kernel
  obtain ⟨facts, hfacts, hrun⟩ := Option.bind_eq_some_iff.mp hrun
  obtain ⟨q, hquery, hrun⟩ := Option.bind_eq_some_iff.mp hrun
  obtain ⟨hseveral, hanswer, hedges⟩ := of_decide_eq_true (Option.some.inj hrun)
  have hfacts := eq_ok_of_toOption hfacts
  have hquery := eq_ok_of_toOption hquery
  have hacyclic : ∀ C : q.synonymGraph.ConnectedComponent, (∀ x ∈ q.selected, x ∉ C) →
      C.toSimpleGraph.IsAcyclic := by
    intro C hC
    -- outside of the cycle all edges are at one synonym
    refine (SimpleGraph.isAcyclic_starGraph "d").comap ⟨Subtype.val, fun {x y} hedge => ?_⟩
      Subtype.val_injective
    obtain ⟨hne, c, hc, hx, hy⟩ := hedge
    refine SimpleGraph.starGraph_adj.mpr ⟨hne, ?_⟩
    rcases hedges c hc x hx y hy hne with hselected | hselected | hcenter
    · exact absurd x.2 (hC x hselected)
    · exact absurd y.2 (hC y hselected)
    · exact hcenter
  obtain ⟨rows, hlines, -, hrows⟩ :=
    answer_tuples_of_isAcyclic hlength hfacts hquery hseveral hacyclic
  exact ⟨facts, q, hlength, hfacts, hquery, hseveral, hacyclic, hanswer, rows, hlines, hrows⟩

end ProgramQuery
