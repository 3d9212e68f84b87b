import Mathlib.Logic.Function.Basic
import ProgramQuery.Query.Evaluation

/-!
# When an assignment satisfies a query

An assignment gives every synonym of a query an entity of the kind it is declared for. A clause
holds under it if the relation of the clause relates what its arguments stand for, where an
underscore stands for some value. An equation holds if both sides have the same value.

Assignments are also looked at two synonyms at a time. A family of values is consistent if each of
its values goes together with a value for every other synonym, as far as the clauses about these
two synonyms say.

## Main definitions

- `Clause.Holds`: the clause is true under an assignment.
- `Query.Satisfies`: the assignment makes all clauses of the query true.
- `Query.IsConsistent`: every value of the family can be extended to any second synonym.
- `Query.IsJoined`: the synonyms that the rows of an answer are joined from.
- `Query.SatisfiesPairwise`: the assignment makes the clauses about joined synonyms true, and the
  others as far as two synonyms at a time show.
- `Query.IsForest`: the synonyms that are not joined hang on the joined ones without a cycle.

## Main statements

- `Query.SatisfiesPairwise.exists_satisfies`: in a forest, two synonyms at a time are enough.
-/

namespace ProgramQuery

/-- The values that an argument can stand for under an assignment. -/
def Argument.Denotes (v : String → String) (a : Argument) (value : String) : Prop :=
  match a.role with
  | .synonym => value = v a.value
  | .literal => value = a.value
  | .wildcard => True
  | .invalid => False

instance (v : String → String) (a : Argument) (value : String) : Decidable (a.Denotes v value) :=
  decidable_of_iff
    ((a.role = .synonym → value = v a.value) ∧ (a.role = .literal → value = a.value) ∧
      a.role ≠ .invalid)
    (by unfold Argument.Denotes; cases a.role <;> simp)

namespace Clause

/-- Whether the clause relates two values: by its relation, or by equal attributes. -/
def Relates (facts : Facts) (c : Clause) (left right : String) : Prop :=
  match Connection.ofClause? facts c with
  | some connection => right ∈ connection.rightsOf facts left
  | none => ∃ name, c.left.kind.attribute? facts left = some name ∧
      c.right.kind.attribute? facts right = some name

instance (facts : Facts) (c : Clause) (left right : String) :
    Decidable (c.Relates facts left right) :=
  match h : Connection.ofClause? facts c with
  | some connection =>
    decidable_of_iff (right ∈ connection.rightsOf facts left) (by rw [Relates, h])
  | none =>
    decidable_of_iff (∃ name ∈ c.left.kind.attribute? facts left,
      c.right.kind.attribute? facts right = some name) (by rw [Relates, h]; rfl)

/-- Whether the clause is true under an assignment. -/
def Holds (facts : Facts) (c : Clause) (v : String → String) : Prop :=
  ∃ left right, c.left.Denotes v left ∧ c.right.Denotes v right ∧ c.Relates facts left right

variable {facts : Facts} {c : Clause} {v w : String → String}

theorem mem_synonyms {x : String} :
    x ∈ c.synonyms ↔ c.left.role = .synonym ∧ c.left.value = x ∨
      c.right.role = .synonym ∧ c.right.value = x := by
  simp only [synonyms, List.mem_map, List.mem_filter, List.mem_cons, List.not_mem_nil, or_false,
    decide_eq_true_eq]
  constructor
  · rintro ⟨a, ⟨rfl | rfl, hrole⟩, rfl⟩
    · exact .inl ⟨hrole, rfl⟩
    · exact .inr ⟨hrole, rfl⟩
  · rintro (⟨hrole, rfl⟩ | ⟨hrole, rfl⟩)
    · exact ⟨c.left, ⟨.inl rfl, hrole⟩, rfl⟩
    · exact ⟨c.right, ⟨.inr rfl, hrole⟩, rfl⟩

/-- Only the values of its own synonyms matter to a clause. -/
theorem Holds.congr (h : c.Holds facts v) (hvw : ∀ x ∈ c.synonyms, v x = w x) :
    c.Holds facts w := by
  have hdenotes : ∀ a : Argument, (a.role = .synonym → v a.value = w a.value) →
      ∀ value, a.Denotes v value → a.Denotes w value := by
    intro a ha value hvalue
    unfold Argument.Denotes at hvalue ⊢
    split at hvalue
    · rename_i hrole
      rw [← ha hrole]
      exact hvalue
    · exact hvalue
    · trivial
    · exact hvalue
  obtain ⟨left, right, hleft, hright, hrelates⟩ := h
  refine ⟨left, right, hdenotes _ (fun hrole => ?_) _ hleft,
    hdenotes _ (fun hrole => ?_) _ hright, hrelates⟩
  · exact hvw _ (mem_synonyms.mpr (.inl ⟨hrole, rfl⟩))
  · exact hvw _ (mem_synonyms.mpr (.inr ⟨hrole, rfl⟩))

/-- A clause is about at most two synonyms. -/
theorem exists_synonyms (c : Clause) : c.synonyms = [] ∨
    ∃ x ∈ c.synonyms, ∃ y ∈ c.synonyms, ∀ z ∈ c.synonyms, z = x ∨ z = y := by
  by_cases hl : c.left.role = .synonym <;> by_cases hr : c.right.role = .synonym <;>
    simp [synonyms, hl, hr]

end Clause

namespace Query

/-- The synonyms that occur in what the query selects or in its clauses. -/
def synonyms (q : Query) : List String :=
  q.selected ++ q.clauses.flatMap Clause.synonyms

theorem mem_synonyms_of_mem_clause {q : Query} {c : Clause} {x : String} (hc : c ∈ q.clauses)
    (hx : x ∈ c.synonyms) : x ∈ q.synonyms :=
  List.mem_append_right _ (List.mem_flatMap.mpr ⟨c, hc, hx⟩)

/-- The assignment gives the synonyms entities of their kinds, and makes all clauses true. -/
structure Satisfies (facts : Facts) (q : Query) (v : String → String) : Prop where
  mem_domain : ∀ x ∈ q.synonyms, v x ∈ initialDomain facts q.declarations x
  holds : ∀ c ∈ q.clauses, c.Holds facts v

/-- Every value that the family has for a synonym goes together with one for any second synonym, so
that all clauses about no other synonyms than these two hold. -/
structure IsConsistent (facts : Facts) (q : Query) (F : String → String → Prop) : Prop where
  nonempty : ∀ x ∈ q.synonyms, ∃ value, F x value
  mem_domain : ∀ x ∈ q.synonyms, ∀ value, F x value →
    value ∈ initialDomain facts q.declarations x
  ground : ∀ c ∈ q.clauses, c.synonyms = [] → ∀ v, c.Holds facts v
  extend : ∀ x ∈ q.synonyms, ∀ y ∈ q.synonyms, ∀ value, F x value →
    ∃ v : String → String, v x = value ∧ F y (v y) ∧
      ∀ c ∈ q.clauses, (∀ z ∈ c.synonyms, z = x ∨ z = y) → c.Holds facts v

/-- The values of a satisfying assignment are consistent. -/
theorem Satisfies.isConsistent {facts : Facts} {q : Query} {v : String → String}
    (h : q.Satisfies facts v) : q.IsConsistent facts fun x value => value = v x where
  nonempty := fun x _ => ⟨v x, rfl⟩
  mem_domain := fun x hx value hvalue => hvalue ▸ h.mem_domain x hx
  ground := fun c hc hnone w => (h.holds c hc).congr fun x hx => by rw [hnone] at hx; cases hx
  extend := fun x _ y _ value hvalue => ⟨v, hvalue.symm, rfl, fun c hc _ => h.holds c hc⟩

/-- The synonyms that the rows of an answer are joined from: the selected ones and, unless a single
element is selected, all that a chain of clauses leads to from them. -/
inductive IsJoined (q : Query) : String → Prop where
  | selected {x : String} (h : x ∈ q.selected) : IsJoined q x
  | clause {x y : String} {c : Clause} (hseveral : q.elements.length ≠ 1) (hx : IsJoined q x)
      (hc : c ∈ q.clauses) (hmem : x ∈ c.synonyms) (hy : y ∈ c.synonyms) : IsJoined q y

theorem IsJoined.mem_synonyms {q : Query} {x : String} (h : q.IsJoined x) : x ∈ q.synonyms := by
  cases h with
  | selected h => exact List.mem_append_left _ h
  | clause _ _ hc _ hy => exact mem_synonyms_of_mem_clause hc hy

/-- The assignment makes the clauses about joined synonyms true, and its values for these belong to
a consistent family. The values of all other synonyms are only looked at two at a time. -/
structure SatisfiesPairwise (facts : Facts) (q : Query) (v : String → String) : Prop where
  family : ∃ F, q.IsConsistent facts F ∧ ∀ x, q.IsJoined x → F x (v x)
  holds : ∀ c ∈ q.clauses, (∀ x ∈ c.synonyms, q.IsJoined x) → c.Holds facts v

theorem Satisfies.satisfiesPairwise {facts : Facts} {q : Query} {v : String → String}
    (h : q.Satisfies facts v) : q.SatisfiesPairwise facts v :=
  ⟨⟨_, h.isConsistent, fun _ _ => rfl⟩, fun c hc _ => h.holds c hc⟩

/-! ## Forests -/

/-- Each synonym of the list shares clauses with at most one synonym that is joined or comes after
it in the list. -/
def Attaches (q : Query) : List String → Prop
  | [] => True
  | x :: rest => q.Attaches rest ∧ ∃ parent, ∀ c ∈ q.clauses, x ∈ c.synonyms →
      ∀ y ∈ c.synonyms, y ≠ x → q.IsJoined y ∨ y ∈ rest → y = parent

/-- The synonyms that are not joined can be attached one after another, so that no clauses close a
cycle. -/
def IsForest (q : Query) : Prop :=
  ∃ order : List String, order.Nodup ∧
    (∀ x, x ∈ order ↔ x ∈ q.synonyms ∧ ¬q.IsJoined x) ∧ q.Attaches order

/-- A synonym that shares clauses with at most one of those that have a value gets a value. -/
theorem IsConsistent.exists_value {facts : Facts} {q : Query} {F : String → String → Prop}
    (h : q.IsConsistent facts F) {placed : String → Prop} {x parent : String}
    {v : String → String} (hx : x ∈ q.synonyms) (hv : ∀ y, placed y → F y (v y))
    (hparent : ∀ c ∈ q.clauses, x ∈ c.synonyms → ∀ y ∈ c.synonyms, y ≠ x → placed y →
      y = parent) :
    ∃ value, F x value ∧ ∀ c ∈ q.clauses, x ∈ c.synonyms →
      (∀ y ∈ c.synonyms, y = x ∨ placed y) →
      c.Holds facts (Function.update v x value) := by
  by_cases hshares : ∃ c ∈ q.clauses, x ∈ c.synonyms ∧ ∃ y ∈ c.synonyms, y ≠ x ∧ placed y
  · obtain ⟨d, hd, hxd, y, hyd, hyx, hplaced⟩ := hshares
    obtain rfl := hparent d hd hxd y hyd hyx hplaced
    -- the parent has a value already, and the family extends it to the new synonym
    obtain ⟨w, hwy, hwx, hholds⟩ :=
      h.extend y (mem_synonyms_of_mem_clause hd hyd) x hx (v y) (hv y hplaced)
    refine ⟨w x, hwx, fun c hc hxc hall => ?_⟩
    have honly : ∀ z ∈ c.synonyms, z = y ∨ z = x := by
      intro z hz
      by_cases hzx : z = x
      · exact .inr hzx
      · exact .inl (hparent c hc hxc z hz hzx ((hall z hz).resolve_left hzx))
    refine (hholds c hc honly).congr fun z hz => ?_
    by_cases hzx : z = x
    · rw [hzx, Function.update_self]
    · rw [Function.update_of_ne hzx, (honly z hz).resolve_right hzx, hwy]
  · obtain ⟨value, hvalue⟩ := h.nonempty x hx
    obtain ⟨w, hwx, -, hholds⟩ := h.extend x hx x hx value hvalue
    refine ⟨value, hvalue, fun c hc hxc hall => ?_⟩
    have honly : ∀ z ∈ c.synonyms, z = x := by
      intro z hz
      refine (hall z hz).elim id fun hplaced => Classical.byContradiction fun hzx => ?_
      exact hshares ⟨c, hc, hxc, z, hz, hzx, hplaced⟩
    refine (hholds c hc fun z hz => .inl (honly z hz)).congr fun z hz => ?_
    rw [honly z hz, Function.update_self, hwx]

/-- Along an order in which synonyms attach, the joined values are extended to all of them. -/
theorem IsConsistent.exists_of_attaches {facts : Facts} {q : Query} {F : String → String → Prop}
    (h : q.IsConsistent facts F) {v : String → String} (hv : ∀ x, q.IsJoined x → F x (v x))
    (hholds : ∀ c ∈ q.clauses, (∀ x ∈ c.synonyms, q.IsJoined x) → c.Holds facts v)
    {order : List String} (hnodup : order.Nodup)
    (hmem : ∀ x ∈ order, x ∈ q.synonyms ∧ ¬q.IsJoined x) (hattaches : q.Attaches order) :
    ∃ w : String → String, (∀ x, q.IsJoined x → w x = v x) ∧
      (∀ x, q.IsJoined x ∨ x ∈ order → F x (w x)) ∧
      ∀ c ∈ q.clauses, (∀ x ∈ c.synonyms, q.IsJoined x ∨ x ∈ order) → c.Holds facts w := by
  induction order with
  | nil =>
    refine ⟨v, fun _ _ => rfl, fun x hx => ?_, fun c hc hall => ?_⟩
    · exact hv x (hx.resolve_right List.not_mem_nil)
    · exact hholds c hc fun x hx => (hall x hx).resolve_right List.not_mem_nil
  | cons x rest ih =>
    obtain ⟨hrest, parent, hparent⟩ := hattaches
    obtain ⟨hx, hnodup⟩ := List.nodup_cons.mp hnodup
    obtain ⟨hmemx, hnotx⟩ := hmem x List.mem_cons_self
    obtain ⟨w, hsame, hfamily, hclauses⟩ :=
      ih hnodup (fun y hy => hmem y (List.mem_cons_of_mem x hy)) hrest
    obtain ⟨value, hvalue, hnew⟩ :=
      h.exists_value hmemx hfamily hparent
    have hne : ∀ y, q.IsJoined y ∨ y ∈ rest → y ≠ x := by
      rintro y (hy | hy) rfl
      · exact hnotx hy
      · exact hx hy
    refine ⟨Function.update w x value, fun y hy => ?_, fun y hy => ?_, fun c hc hall => ?_⟩
    · rw [Function.update_of_ne (hne y (.inl hy)), hsame y hy]
    · by_cases hyx : y = x
      · rw [hyx, Function.update_self]
        exact hvalue
      · rw [Function.update_of_ne hyx]
        exact hfamily y (hy.imp_right fun hmem => (List.mem_cons.mp hmem).resolve_left hyx)
    · -- only the clauses about the new synonym say something new
      by_cases hxc : x ∈ c.synonyms
      · refine hnew c hc hxc fun y hy => ?_
        rcases hall y hy with hjoined | hmem
        · exact .inr (.inl hjoined)
        · exact (List.mem_cons.mp hmem).imp_right .inr
      · have hold : ∀ y ∈ c.synonyms, q.IsJoined y ∨ y ∈ rest := by
          intro y hy
          refine (hall y hy).imp_right fun hmem => (List.mem_cons.mp hmem).resolve_left ?_
          rintro rfl
          exact hxc hy
        refine (hclauses c hc hold).congr fun y hy => ?_
        rw [Function.update_of_ne (hne y (hold y hy))]

/-- In a forest, looking at two synonyms at a time is enough. -/
theorem SatisfiesPairwise.exists_satisfies {facts : Facts} {q : Query} {v : String → String}
    (h : q.SatisfiesPairwise facts v) (hforest : q.IsForest) :
    ∃ w, q.Satisfies facts w ∧ ∀ x ∈ q.selected, w x = v x := by
  obtain ⟨F, hF, hv⟩ := h.family
  obtain ⟨order, hnodup, hmem, hattaches⟩ := hforest
  obtain ⟨w, hsame, hfamily, hclauses⟩ :=
    hF.exists_of_attaches hv h.holds hnodup (fun x hx => (hmem x).mp hx) hattaches
  have hplaced : ∀ x ∈ q.synonyms, q.IsJoined x ∨ x ∈ order := by
    intro x hx
    by_cases hjoined : q.IsJoined x
    · exact .inl hjoined
    · exact .inr ((hmem x).mpr ⟨hx, hjoined⟩)
  refine ⟨w, ⟨fun x hx => ?_, fun c hc => ?_⟩, fun x hx => hsame x (.selected hx)⟩
  · exact hF.mem_domain x hx (w x) (hfamily x (hplaced x hx))
  · exact hclauses c hc fun x hx => hplaced x (mem_synonyms_of_mem_clause hc hx)

end Query

end ProgramQuery
