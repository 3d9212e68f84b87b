import ProgramQuery.Proofs.Signatures

/-!
# Plans group clauses by the synonyms they share

Two clauses belong together if a chain of clauses leads from one to the other in which neighbours
have a synonym in common. A chain of clauses is a path of synonyms in the graph of the clauses, so
that the groups of a plan, which are made from the connected parts of that graph, are the classes
of clauses that belong together.

## Main definitions

- `Linked`: a chain of clauses leads from one to another.
- `IsGrouping`: lists of clauses are the classes of linked clauses.
- `GroupLe`: groups about a selected synonym come first, then shorter ones.

## Main statements

- `ClauseGraph.linked_iff`: clauses are linked if and only if their synonyms are connected.
- `isGrouping_plan`: what a plan is for clauses with the arguments that queries have.
-/

namespace ProgramQuery

/-- A chain of the clauses leads from one to another, and neighbours share a synonym. -/
def Linked (clauses : List Clause) : Clause → Clause → Prop :=
  Relation.ReflTransGen fun c d => d ∈ clauses ∧ ∃ x ∈ c.synonyms, x ∈ d.synonyms

/-- The groups hold each of the clauses that has a synonym once, and nothing else. Clauses are in
the same group if they are linked. -/
structure IsGrouping (clauses : List Clause) (groups : List (List Clause)) : Prop where
  ne_nil : ∀ group ∈ groups, group ≠ []
  nodup : groups.flatten.Nodup
  mem_flatten : ∀ c, c ∈ groups.flatten ↔ c ∈ clauses ∧ c.synonyms ≠ []
  linked : ∀ c ∈ groups.flatten, ∀ d ∈ groups.flatten,
    (∃ group ∈ groups, c ∈ group ∧ d ∈ group) ↔ Linked clauses c d

/-- A clause of the group is about a selected synonym. -/
def IsSelected (selected : List String) (group : List Clause) : Prop :=
  ∃ c ∈ group, ∃ x ∈ c.synonyms, x ∈ selected

/-- The order of groups: those about a selected synonym first, then shorter ones. -/
def GroupLe (selected : List String) (a b : List Clause) : Prop :=
  (IsSelected selected b → IsSelected selected a) ∧
    ((IsSelected selected a ↔ IsSelected selected b) → a.length ≤ b.length)

theorem IsGrouping.perm {clauses : List Clause} {groups groups' : List (List Clause)}
    (h : IsGrouping clauses groups) (hperm : groups'.Perm groups) : IsGrouping clauses groups' where
  ne_nil group hgroup := h.ne_nil group (hperm.mem_iff.mp hgroup)
  nodup := hperm.flatten.nodup_iff.mpr h.nodup
  mem_flatten c := hperm.flatten.mem_iff.trans (h.mem_flatten c)
  linked c hc d hd := by
    simp only [hperm.mem_iff]
    exact h.linked c (hperm.flatten.mem_iff.mp hc) d (hperm.flatten.mem_iff.mp hd)

namespace ClauseGraph

variable {clauses : List Clause} {component : List String} (hagree : SignaturesAgree clauses)

include hagree

/-! ## Chains of clauses -/

/-- An edge joins synonyms that some clause is about. -/
theorem joins_iff {x y : String} :
    (ofClauses clauses).Joins x y ↔ ∃ c ∈ clauses, x ∈ c.synonyms ∧ y ∈ c.synonyms := by
  constructor
  · rintro ⟨e, he, hx, hy⟩
    obtain ⟨c, hplaced⟩ := (holds_ofClauses clauses).placement_mem e he
    obtain ⟨hc, hp⟩ := mem_placed.mp hplaced
    have hends : ∀ z ∈ e.ends, z ∈ c.synonyms := by
      intro z hz
      rw [Clause.mem_synonyms_of_placement? hp]
      simpa [Edge.ends] using hz
    exact ⟨c, hc, hends x hx, hends y hy⟩
  · rintro ⟨c, hc, hx, hy⟩
    obtain ⟨e, he, hmem, hend⟩ := exists_edge_of_mem_synonyms hagree hc hx
    exact ⟨e, he, hend, (mem_ends_iff hagree he hmem).mpr hy⟩

/-- Clauses are linked if and only if their synonyms are connected. -/
theorem linked_iff {c d : Clause} {x y : String} (hc : c ∈ clauses) (hx : x ∈ c.synonyms)
    (hd : d ∈ clauses) (hy : y ∈ d.synonyms) :
    Linked clauses c d ↔ Relation.ReflTransGen (ofClauses clauses).Joins x y := by
  constructor
  · intro h
    -- Every synonym of the last clause is reached, and one of them is in the next clause.
    have hreach : ∀ z ∈ d.synonyms, Relation.ReflTransGen (ofClauses clauses).Joins x z := by
      clear hd hy
      induction h with
      | refl => exact fun z hz => .single ((joins_iff hagree).mpr ⟨c, hc, hx, hz⟩)
      | @tail a b _ hab ih =>
        obtain ⟨hb, w, hwa, hwb⟩ := hab
        exact fun z hz => (ih w hwa).tail ((joins_iff hagree).mpr ⟨b, hb, hwb, hz⟩)
    exact hreach y hy
  · intro h
    induction h generalizing d with
    | refl => exact .single ⟨hd, x, hx, hy⟩
    | tail _ hjoins ih =>
      -- The clause that joins the last two synonyms is the last but one of the chain.
      obtain ⟨b, hb, hz, hw⟩ := (joins_iff hagree).mp hjoins
      exact (ih hb hz).tail ⟨hd, _, hw, hy⟩

/-! ## Groups of connected parts -/

/-- All synonyms of a clause are in the same part. -/
theorem mem_of_mem_group (hpart : (ofClauses clauses).IsPart component) {c : Clause}
    (hc : c ∈ (ofClauses clauses).group component) {x : String} (hx : x ∈ c.synonyms) :
    x ∈ component := by
  obtain ⟨hc, y, hy, hin⟩ := (mem_group hagree hpart).mp hc
  exact hpart.mem_of_joins hin ((joins_iff hagree).mpr ⟨c, hc, hy, hx⟩)

/-- Every synonym of a part has a clause in its group. -/
theorem exists_mem_group (hpart : (ofClauses clauses).IsPart component) {x : String}
    (hx : x ∈ component) : ∃ c ∈ (ofClauses clauses).group component, x ∈ c.synonyms := by
  have hg := isConsistent_ofClauses hagree
  have hself : (ofClauses clauses).Joins x x := by
    obtain ⟨v, hv, hmem⟩ := hpart
    rcases Relation.ReflTransGen.cases_tail ((hmem x).mp hx) with rfl | ⟨w, -, e, he, -, hend⟩
    · obtain ⟨e, he, hend⟩ := hg.exists_edge_at hv
      exact ⟨e, he, hend, hend⟩
    · exact ⟨e, he, hend, hend⟩
  obtain ⟨c, hc, hxc, -⟩ := (joins_iff hagree).mp hself
  exact ⟨c, (mem_group hagree hpart).mpr ⟨hc, x, hxc, hx⟩, hxc⟩

/-- The flag of a part says whether its group is about a selected synonym. -/
theorem any_mem_iff_isSelected (hpart : (ofClauses clauses).IsPart component)
    (selected : List String) : component.any (· ∈ selected) = true ↔
      IsSelected selected ((ofClauses clauses).group component) := by
  rw [List.any_eq_true]
  constructor
  · rintro ⟨x, hx, hselected⟩
    obtain ⟨c, hc, hxc⟩ := exists_mem_group hagree hpart hx
    exact ⟨c, hc, x, hxc, of_decide_eq_true hselected⟩
  · rintro ⟨c, hc, x, hx, hselected⟩
    exact ⟨x, mem_of_mem_group hagree hpart hc hx, decide_eq_true hselected⟩

theorem group_ne_nil (hpart : (ofClauses clauses).IsPart component) :
    (ofClauses clauses).group component ≠ [] := by
  obtain ⟨v, hv⟩ : ∃ v, v ∈ component := by
    obtain ⟨v, -, hmem⟩ := hpart
    exact ⟨v, (hmem v).mpr .refl⟩
  obtain ⟨c, hc, -⟩ := exists_mem_group hagree hpart hv
  exact List.ne_nil_of_mem hc

/-- No clause is in the groups of two parts, because its synonyms are in one of them only. -/
theorem nodup_flatten_groups :
    ((ofClauses clauses).components.map (ofClauses clauses).group).flatten.Nodup := by
  have hparts := partitions_components (isConsistent_ofClauses hagree)
  rw [← List.flatMap_def, List.nodup_flatMap]
  refine ⟨fun component hcomponent => nodup_group hagree (hparts.isPart _ hcomponent), ?_⟩
  refine hparts.disjoint.imp_of_mem fun {a b} ha hb hdisjoint c hca hcb => ?_
  obtain ⟨-, x, hx, hin⟩ := (mem_group hagree (hparts.isPart a ha)).mp hca
  exact hdisjoint hin (mem_of_mem_group hagree (hparts.isPart b hb) hcb hx)

/-- The clauses of two connected synonyms are in the group of the same part. -/
theorem exists_part_iff {c d : Clause} {x y : String} (hc : c ∈ clauses) (hx : x ∈ c.synonyms)
    (hd : d ∈ clauses) (hy : y ∈ d.synonyms) :
    (∃ component ∈ (ofClauses clauses).components,
        c ∈ (ofClauses clauses).group component ∧ d ∈ (ofClauses clauses).group component) ↔
      Relation.ReflTransGen (ofClauses clauses).Joins x y := by
  have hparts := partitions_components (isConsistent_ofClauses hagree)
  constructor
  · rintro ⟨component, hcomponent, hcin, hdin⟩
    have hpart := hparts.isPart component hcomponent
    exact hpart.reflTransGen (mem_of_mem_group hagree hpart hcin hx)
      (mem_of_mem_group hagree hpart hdin hy)
  · intro hpath
    obtain ⟨component, hcomponent, hin⟩ := exists_mem_components hagree hc hx
    have hpart := hparts.isPart component hcomponent
    refine ⟨component, hcomponent, ?_, ?_⟩
    · exact (mem_group hagree hpart).mpr ⟨hc, x, hx, hin⟩
    · exact (mem_group hagree hpart).mpr ⟨hd, y, hy, hpart.mem_of_reflTransGen hin hpath⟩

/-- The groups of the connected parts are the classes of linked clauses. -/
theorem isGrouping_components :
    IsGrouping clauses ((ofClauses clauses).components.map (ofClauses clauses).group) := by
  have hparts := partitions_components (isConsistent_ofClauses hagree)
  refine ⟨?_, nodup_flatten_groups hagree, fun c => mem_flatten_groups hagree, ?_⟩
  · rw [List.forall_mem_map]
    exact fun component hcomponent => group_ne_nil hagree (hparts.isPart component hcomponent)
  · intro c hc d hd
    obtain ⟨hc, hcne⟩ := (mem_flatten_groups hagree).mp hc
    obtain ⟨hd, hdne⟩ := (mem_flatten_groups hagree).mp hd
    obtain ⟨x, hx⟩ := List.exists_mem_of_ne_nil _ hcne
    obtain ⟨y, hy⟩ := List.exists_mem_of_ne_nil _ hdne
    rw [linked_iff hagree hc hx hd hy, ← exists_part_iff hagree hc hx hd hy]
    simp only [List.mem_map, exists_exists_and_eq_and]

end ClauseGraph

/-! ## The order of groups -/

instance : Std.Total fun a b => groupBefore a b = true where
  total a b := by
    cases ha : a.1 <;> cases hb : b.1 <;> simp [groupBefore, ha, hb] <;> omega

instance : IsTrans (Bool × List Clause) fun a b => groupBefore a b = true where
  trans a b c := by
    cases ha : a.1 <;> cases hb : b.1 <;> cases hc : c.1 <;> simp [groupBefore, ha, hb, hc] <;>
      omega

/-- Flags that say which groups are about a selected synonym give the order of the groups. -/
theorem groupLe_of_groupBefore {selected : List String} {a b : Bool × List Clause}
    (h : groupBefore a b = true) (ha : a.1 = true ↔ IsSelected selected a.2)
    (hb : b.1 = true ↔ IsSelected selected b.2) : GroupLe selected a.2 b.2 := by
  rw [GroupLe, ← ha, ← hb]
  cases hfa : a.1 <;> cases hfb : b.1 <;> simp_all [groupBefore]

theorem pairwise_sortGroups {clauses : List Clause} (hagree : SignaturesAgree clauses)
    (selected : List String) :
    ((sortGroups (partGroups clauses selected)).map Prod.snd).Pairwise (GroupLe selected) := by
  have hflag : ∀ a ∈ sortGroups (partGroups clauses selected),
      (a.1 = true ↔ IsSelected selected a.2) := by
    intro a ha
    rw [sortGroups_eq, List.mem_insertionSort] at ha
    obtain ⟨component, hcomponent, rfl⟩ := List.mem_map.mp ha
    have hparts := ClauseGraph.partitions_components (ClauseGraph.isConsistent_ofClauses hagree)
    exact ClauseGraph.any_mem_iff_isSelected hagree (hparts.isPart _ hcomponent) selected
  have hsorted := List.pairwise_insertionSort (fun a b => groupBefore a b = true)
    (partGroups clauses selected)
  rw [← sortGroups_eq] at hsorted
  rw [List.pairwise_map]
  exact hsorted.imp_of_mem fun ha hb hab => groupLe_of_groupBefore hab (hflag _ ha) (hflag _ hb)

/-- There is a plan. It starts with the clauses that have no synonym, one by one, and goes on with
the classes of linked clauses, those about a selected synonym first and shorter ones first. -/
theorem isGrouping_plan {clauses : List Clause} (hwritten : ∀ c ∈ clauses, c.IsWritten)
    (selected : List String) :
    ∃ groups, plan? clauses selected =
        some ((clauses.filter fun c => c.synonyms.isEmpty).map ([·]) ++ groups) ∧
      IsGrouping clauses groups ∧ groups.Pairwise (GroupLe selected) := by
  have hagree := signaturesAgree_of_isWritten hwritten
  obtain ⟨groups, hplan⟩ :=
    exists_plan? (fun c hc => (hwritten c hc).isInvalid_eq_false) selected
  refine ⟨(sortGroups (partGroups clauses selected)).map Prod.snd, ?_, ?_, ?_⟩
  · rw [hplan, eq_of_plan? hplan]
  · exact (ClauseGraph.isGrouping_components hagree).perm
      (perm_sortGroups_partGroups clauses selected)
  · exact pairwise_sortGroups hagree selected

/-- Clauses with a loop, both orders of two synonyms, a repeated clause, a synonym of its own and
a clause about none, twice. -/
def knottedClauses : List Clause :=
  [⟨.next, ⟨.stmtSynonym, "a"⟩, ⟨.stmtSynonym, "b"⟩, ""⟩,
   ⟨.parent, ⟨.number, "1"⟩, ⟨.wildcard, "_"⟩, ""⟩,
   ⟨.followsStar, ⟨.stmtSynonym, "b"⟩, ⟨.stmtSynonym, "a"⟩, ""⟩,
   ⟨.modifies, ⟨.procSynonym, "p"⟩, ⟨.name, "x"⟩, ""⟩,
   ⟨.affects, ⟨.stmtSynonym, "b"⟩, ⟨.stmtSynonym, "b"⟩, ""⟩,
   ⟨.next, ⟨.stmtSynonym, "a"⟩, ⟨.stmtSynonym, "b"⟩, ""⟩,
   ⟨.parent, ⟨.number, "1"⟩, ⟨.wildcard, "_"⟩, ""⟩]

theorem isGrouping_plan_knottedClauses :
    (∀ c ∈ knottedClauses, c.IsWritten) ∧
      ∃ groups, plan? knottedClauses ["p"] =
          some ([[⟨.parent, ⟨.number, "1"⟩, ⟨.wildcard, "_"⟩, ""⟩],
            [⟨.parent, ⟨.number, "1"⟩, ⟨.wildcard, "_"⟩, ""⟩]] ++ groups) ∧
        IsGrouping knottedClauses groups ∧ groups.Pairwise (GroupLe ["p"]) := by
  have ha : Argument.IsWritten ⟨.stmtSynonym, "a"⟩ := .synonym rfl ⟨'a', [], by decide⟩
  have hb : Argument.IsWritten ⟨.stmtSynonym, "b"⟩ := .synonym rfl ⟨'b', [], by decide⟩
  have hp : Argument.IsWritten ⟨.procSynonym, "p"⟩ := .synonym rfl ⟨'p', [], by decide⟩
  have hx : Argument.IsWritten ⟨.name, "x"⟩ := .name ⟨'x', [], by decide⟩
  have hone : Argument.IsWritten ⟨.number, "1"⟩ := .number (by decide)
  have hwritten : ∀ c ∈ knottedClauses, c.IsWritten := by
    simp only [knottedClauses, List.forall_mem_cons]
    exact ⟨⟨ha, hb⟩, ⟨hone, .wildcard⟩, ⟨hb, ha⟩, ⟨hp, hx⟩, ⟨hb, hb⟩, ⟨ha, hb⟩, ⟨hone, .wildcard⟩,
      List.forall_mem_nil _⟩
  exact ⟨hwritten, isGrouping_plan hwritten ["p"]⟩

end ProgramQuery
