import Mathlib.Logic.Relation
import ProgramQuery.Proofs.FactsWellFormed
import ProgramQuery.Query.Connection

/-!
# The views of a relation agree

A clause is applied through one of several views of its relation: the partners of a value to the
right or to the left, and the values that have a partner. Each view is found in its own way, by
texts that stand for statements and for names. Over well-formed facts they all show one and the
same set of pairs.

## Main definitions

- `FinRel.Links`: elements that one pair, or a chain of pairs, leads from and to.
- `IsValue`: a text that is the only one for what it denotes.
- `Connection.Joins`: the pairs of values that a relation consists of.

## Main statements

- `FinRel.mem_reach`, `FinRel.mem_coreach`: both searches find the chains of pairs.
- `Connection.mem_leftsOf`, `Connection.mem_lefts`, `Connection.mem_rights`: the views are those of
  the pairs.
- `Connection.mem_rightsOf_of_joins`, `Connection.exists_joins_of_mem_rightsOf`: so is the view that
  says when a clause holds.
- `Connection.views_agree`: over the facts of a program all four views agree.
-/

namespace ProgramQuery

/-! ## Chains of pairs -/

namespace FinRel

variable {α : Type} [Ord α] [Std.TransOrd α] [Std.LawfulEqOrd α] [DecidableEq α]

/-- One pair leads from the first element to the second, or a chain of pairs does if `starred`. -/
def Links (r : FinRel α α) (starred : Bool) (a b : α) : Prop :=
  if starred then Relation.TransGen (fun a b => (a, b) ∈ r.pairs) a b else (a, b) ∈ r.pairs

/-- The search forwards finds the ends of chains. -/
theorem mem_reach {r : FinRel α α} {a b : α} :
    b ∈ r.reach a ↔ Relation.TransGen (fun a b => (a, b) ∈ r.pairs) a b := by
  rw [reach, mem_ascending, mem_closure]
  constructor
  · intro h
    induction h with
    | seed here start => exact .single (mem_rights.mp start)
    | next _ here edge ih => exact .tail ih (mem_rights.mp edge)
  · intro h
    induction h with
    | single hab => exact .seed (mem_range.mpr ⟨_, hab⟩) (mem_rights.mpr hab)
    | tail _ hbc ih => exact .next ih (mem_range.mpr ⟨_, hbc⟩) (mem_rights.mpr hbc)

/-- The search backwards finds the starts of chains. -/
theorem mem_coreach {r : FinRel α α} {a b : α} :
    a ∈ r.coreach b ↔ Relation.TransGen (fun a b => (a, b) ∈ r.pairs) a b := by
  rw [coreach, mem_ascending, mem_closure]
  constructor
  · intro h
    induction h with
    | seed here start => exact .single (mem_lefts.mp start)
    | next _ here edge ih => exact .head (mem_lefts.mp edge) ih
  · intro h
    induction h using Relation.TransGen.head_induction_on with
    | single hab => exact .seed (mem_domain.mpr ⟨_, hab⟩) (mem_lefts.mpr hab)
    | head hab _ ih => exact .next ih (mem_domain.mpr ⟨_, hab⟩) (mem_lefts.mpr hab)

theorem mem_after {r : FinRel α α} {starred : Bool} {a b : α} :
    b ∈ r.after a starred ↔ r.Links starred a b := by
  cases starred with
  | false => exact mem_image
  | true => exact mem_reach

theorem mem_before {r : FinRel α α} {starred : Bool} {a b : α} :
    a ∈ r.before b starred ↔ r.Links starred a b := by
  cases starred with
  | false => exact mem_preimage
  | true => exact mem_coreach

omit [Std.TransOrd α] [Std.LawfulEqOrd α] [DecidableEq α] in
theorem IsBetween.of_links {r : FinRel α α} {P : α → Prop} (h : r.IsBetween P P) {starred : Bool}
    {a b : α} (hab : r.Links starred a b) : P a ∧ P b := by
  cases starred with
  | false => exact h a b hab
  | true =>
    replace hab : Relation.TransGen (fun a b => (a, b) ∈ r.pairs) a b := hab
    induction hab with
    | single hab => exact h _ _ hab
    | tail _ hbc ih => exact ⟨ih.1, (h _ _ hbc).2⟩

omit [DecidableEq α] in
theorem mem_domain_iff_links {r : FinRel α α} (starred : Bool) {a : α} :
    a ∈ r.domain ↔ ∃ b, r.Links starred a b := by
  rw [mem_domain]
  cases starred with
  | false => rfl
  | true =>
    constructor
    · rintro ⟨b, hab⟩
      exact ⟨b, .single hab⟩
    · rintro ⟨b, hab⟩
      have hchain : Relation.TransGen (fun a b => (a, b) ∈ r.pairs) a b := hab
      obtain ⟨c, hac, -⟩ := Relation.TransGen.head'_iff.mp hchain
      exact ⟨c, hac⟩

omit [DecidableEq α] in
theorem mem_range_iff_links {r : FinRel α α} (starred : Bool) {b : α} :
    b ∈ r.range ↔ ∃ a, r.Links starred a b := by
  rw [mem_range]
  cases starred with
  | false => rfl
  | true =>
    constructor
    · rintro ⟨a, hab⟩
      exact ⟨a, .single hab⟩
    · rintro ⟨a, hab⟩
      have hchain : Relation.TransGen (fun a b => (a, b) ∈ r.pairs) a b := hab
      obtain ⟨c, -, hcb⟩ := Relation.TransGen.tail'_iff.mp hchain
      exact ⟨c, hcb⟩

end FinRel

/-! ## Values -/

/-- A text that is no underscore, and the only numeral for its number if it is a numeral. -/
structure IsValue (s : String) : Prop where
  ne_wildcard : s ≠ wildcard
  toString_eq : ∀ n, numeral? s = some n → toString n = s

theorem IsName.isValue {s : String} (h : IsName s) : IsValue s :=
  ⟨ne_wildcard_of_isName h, fun n hn => by rw [numeral?_of_isName h] at hn; cases hn⟩

theorem IsNumber.isValue {s : String} (h : IsNumber s) : IsValue s := by
  refine ⟨?_, fun n hn => toString_of_numeral? h hn⟩
  rintro rfl
  exact absurd h.all_isDigit (by decide)

theorem isValue_toString {n : Nat} (h : n < numeralBound) : IsValue (toString n) := by
  refine ⟨fun heq => ?_, fun m hm => ?_⟩
  · have hnone : numeral? wildcard = none := by decide
    rw [← heq, numeral?_toString h] at hnone
    cases hnone
  · rw [numeral?_toString h] at hm
    rw [Option.some.inj hm]

theorem mem_numberTexts {numbers : List Nat} {s : String} :
    s ∈ numberTexts numbers ↔ ∃ n ∈ numbers, s = toString n := by
  simp only [numberTexts, mem_ascending, List.mem_map, eq_comm]

theorem Facts.IsStatement.lt {facts : Facts} (hf : facts.IsWellFormed) {s : Nat}
    (h : facts.IsStatement s) : s < numeralBound :=
  Nat.lt_of_le_of_lt (Facts.isStatement_iff.mp h).2 hf.size_lt

/-! ## Patterns -/

section Patterns

variable {facts : Facts} (hf : facts.IsWellFormed)

include hf

theorem Facts.mem_modifies_of_mem_assignsMatching {target pattern : String} {asPart : Bool}
    {s : Nat} (htarget : target ≠ wildcard)
    (h : s ∈ facts.assignsMatching target pattern asPart) :
    (s, target) ∈ facts.modifies.pairs := by
  unfold assignsMatching at h
  split at h
  · split at h
    · rw [assignsTo, if_neg htarget] at h
      exact FinRel.mem_preimage.mp (List.mem_filter.mp h).1
    · cases h
  · split at h
    · cases h
    · obtain ⟨o, ho, rfl⟩ := List.mem_map.mp (mem_ascending.mp h)
      obtain ⟨ho, hmatches⟩ := List.mem_filter.mp ho
      have hmatches := (of_decide_eq_true hmatches).1
      exact hmatches.resolve_left htarget ▸ hf.occurrences _ o ho

/-- An underscore for the target admits the assignments to all variables. -/
theorem Facts.mem_assignsMatching_wildcard {pattern : String} {asPart : Bool} {s : Nat} :
    s ∈ facts.assignsMatching wildcard pattern asPart ↔
      ∃ target, (s, target) ∈ facts.modifies.pairs ∧
        s ∈ facts.assignsMatching target pattern asPart := by
  have hname : ∀ {target}, (s, target) ∈ facts.modifies.pairs → target ≠ wildcard :=
    fun htarget => (hf.modifies _ _ htarget).2.isValue.ne_wildcard
  unfold assignsMatching
  split
  · cases asPart with
    | false => simp
    | true =>
      simp only [if_true, assignsTo]
      constructor
      · intro h
        have hkind := of_decide_eq_true (List.mem_filter.mp h).2
        obtain ⟨target, htarget⟩ := hf.exists_target s hkind
        refine ⟨target, htarget, ?_⟩
        rw [if_neg (hname htarget)]
        exact List.mem_filter.mpr ⟨FinRel.mem_preimage.mpr htarget, decide_eq_true hkind⟩
      · rintro ⟨target, htarget, h⟩
        rw [if_neg (hname htarget)] at h
        have hkind := of_decide_eq_true (List.mem_filter.mp h).2
        exact List.mem_filter.mpr ⟨Facts.isStatement_of_kindOf? hkind, decide_eq_true hkind⟩
  · split
    · simp
    · rename_i text htext
      simp only [mem_ascending, List.mem_map, List.mem_filter, decide_eq_true_eq, true_or,
        true_and]
      constructor
      · rintro ⟨o, ⟨ho, hwhole⟩, rfl⟩
        exact ⟨o.target, hf.occurrences _ o ho, o, ⟨ho, .inr rfl, hwhole⟩, rfl⟩
      · rintro ⟨target, -, o, ⟨ho, -, hwhole⟩, rfl⟩
        exact ⟨o, ⟨ho, hwhole⟩, rfl⟩

theorem Facts.mem_conditionsMatching_wildcard {kind : NodeKind} {s : Nat} :
    s ∈ facts.conditionsMatching kind wildcard ↔
      ∃ name, (s, name) ∈ facts.conditions.pairs ∧ s ∈ facts.conditionsMatching kind name := by
  simp only [conditionsMatching, if_true, List.mem_filter, decide_eq_true_eq, FinRel.mem_domain]
  constructor
  · rintro ⟨⟨name, hname⟩, hkind⟩
    refine ⟨name, hname, ?_, hkind⟩
    rw [if_neg (hf.conditions _ _ hname).2.isValue.ne_wildcard]
    exact FinRel.mem_preimage.mpr hname
  · rintro ⟨name, hname, -, hkind⟩
    exact ⟨⟨name, hname⟩, hkind⟩

end Patterns

/-! ## The pairs of a relation -/

namespace Connection

/-- The relation has pairs of statements and of names, each at its place. -/
def IsWellFormed (facts : Facts) : Connection → Prop
  | statements r _ => r.IsBetween facts.IsStatement facts.IsStatement
  | procedures r _ => r.IsBetween IsName IsName
  | accesses ofStatement ofProcedure =>
    ofStatement.IsBetween facts.IsStatement IsName ∧ ofProcedure.IsBetween IsName IsName
  | assignments _ _ => True
  | conditions _ => True

theorem isWellFormed_of_ofClause? {facts : Facts} (hf : facts.IsWellFormed) {c : Clause}
    {connection : Connection} (h : ofClause? facts c = some connection) :
    connection.IsWellFormed facts := by
  unfold ofClause? at h
  split at h
  case h_1 | h_2 => exact Option.some.inj h ▸ hf.follows
  case h_3 | h_4 => exact Option.some.inj h ▸ hf.parent
  case h_5 | h_6 => exact Option.some.inj h ▸ hf.next
  case h_7 | h_8 => exact Option.some.inj h ▸ hf.affects
  case h_9 | h_10 => exact Option.some.inj h ▸ hf.calls
  case h_11 => exact Option.some.inj h ▸ ⟨hf.uses, hf.procedureUses⟩
  case h_12 => exact Option.some.inj h ▸ ⟨hf.modifies, hf.procedureModifies⟩
  case h_18 => cases h
  all_goals exact Option.some.inj h ▸ trivial

/-- The pairs of values that a relation consists of. -/
def Joins (facts : Facts) : Connection → String → String → Prop
  | statements r starred, left, right =>
    ∃ s t, left = toString s ∧ right = toString t ∧ r.Links starred s t
  | procedures r starred, left, right => r.Links starred left right
  | accesses ofStatement ofProcedure, left, right =>
    (∃ s, left = toString s ∧ (s, right) ∈ ofStatement.pairs) ∨ (left, right) ∈ ofProcedure.pairs
  | assignments expression asPart, left, right =>
    ∃ s, left = toString s ∧ (s, right) ∈ facts.modifies.pairs ∧
      s ∈ facts.assignsMatching right expression asPart
  | conditions kind, left, right =>
    ∃ s, left = toString s ∧ (s, right) ∈ facts.conditions.pairs ∧
      s ∈ facts.conditionsMatching kind right

section Views

variable {facts : Facts} (hf : facts.IsWellFormed) {connection : Connection}
  (hc : connection.IsWellFormed facts)

include hf hc

/-- The values to the left of a value are its partners in the pairs. -/
theorem mem_leftsOf {left right : String} (hright : IsValue right) :
    left ∈ connection.leftsOf facts right ↔ connection.Joins facts left right := by
  -- a text denotes a statement if it is a numeral, and a name otherwise; a value of the other sort
  -- has no partners on either side
  cases connection with
  | statements r starred =>
    simp only [leftsOf, Joins]
    cases hnumeral : numeral? right with
    | none =>
      constructor
      · intro h
        cases h
      · rintro ⟨s, t, -, rfl, hlinks⟩
        rw [numeral?_toString ((hc.of_links hlinks).2.lt hf)] at hnumeral
        cases hnumeral
    | some n =>
      rw [mem_numberTexts]
      constructor
      · rintro ⟨s, hs, rfl⟩
        exact ⟨s, n, rfl, (hright.toString_eq n hnumeral).symm, FinRel.mem_before.mp hs⟩
      · rintro ⟨s, t, rfl, rfl, hlinks⟩
        rw [numeral?_toString ((hc.of_links hlinks).2.lt hf)] at hnumeral
        exact ⟨s, FinRel.mem_before.mpr (Option.some.inj hnumeral ▸ hlinks), rfl⟩
  | procedures r starred =>
    simp only [leftsOf, Joins]
    cases hnumeral : numeral? right with
    | none => exact FinRel.mem_before
    | some n =>
      constructor
      · intro h
        cases h
      · intro hlinks
        rw [numeral?_of_isName (hc.of_links hlinks).2] at hnumeral
        cases hnumeral
  | accesses ofStatement ofProcedure =>
    simp only [leftsOf, Joins]
    cases hnumeral : numeral? right with
    | none =>
      simp only [mem_ascending, List.mem_append, List.mem_map, FinRel.mem_preimage]
      constructor
      · rintro (⟨s, hs, rfl⟩ | h)
        · exact .inl ⟨s, rfl, hs⟩
        · exact .inr h
      · rintro (⟨s, rfl, hs⟩ | h)
        · exact .inl ⟨s, hs, rfl⟩
        · exact .inr h
    | some n =>
      constructor
      · intro h
        cases h
      · have hno : ¬IsName right := by
          intro h
          rw [numeral?_of_isName h] at hnumeral
          cases hnumeral
        rintro (⟨s, -, hs⟩ | h)
        · exact absurd (hc.1 _ _ hs).2 hno
        · exact absurd (hc.2 _ _ h).2 hno
  | assignments expression asPart =>
    simp only [leftsOf, Joins, mem_numberTexts]
    constructor
    · rintro ⟨s, hs, rfl⟩
      exact ⟨s, rfl, facts.mem_modifies_of_mem_assignsMatching hf hright.ne_wildcard hs, hs⟩
    · rintro ⟨s, rfl, -, hs⟩
      exact ⟨s, hs, rfl⟩
  | conditions kind =>
    simp only [leftsOf, Joins, mem_numberTexts]
    constructor
    · rintro ⟨s, hs, rfl⟩
      refine ⟨s, rfl, ?_, hs⟩
      rw [Facts.conditionsMatching, if_neg hright.ne_wildcard] at hs
      exact FinRel.mem_preimage.mp (List.mem_filter.mp hs).1
    · rintro ⟨s, rfl, -, hs⟩
      exact ⟨s, hs, rfl⟩

/-- All partners are among the values to the right of a value. -/
theorem mem_rightsOf_of_joins {left right : String} (h : connection.Joins facts left right) :
    right ∈ connection.rightsOf facts left := by
  cases connection with
  | statements r starred =>
    obtain ⟨s, t, rfl, rfl, hlinks⟩ := h
    simp only [rightsOf, numeral?_toString ((hc.of_links hlinks).1.lt hf)]
    exact mem_numberTexts.mpr ⟨t, FinRel.mem_after.mpr hlinks, rfl⟩
  | procedures r starred =>
    simp only [rightsOf, numeral?_of_isName (hc.of_links h).1]
    exact FinRel.mem_after.mpr h
  | accesses ofStatement ofProcedure =>
    rcases h with ⟨s, rfl, hs⟩ | h
    · simp only [rightsOf, numeral?_toString ((hc.1 _ _ hs).1.lt hf)]
      exact FinRel.mem_image.mpr hs
    · simp only [rightsOf, numeral?_of_isName (hc.2 _ _ h).1]
      exact FinRel.mem_image.mpr h
  | assignments expression asPart =>
    obtain ⟨s, rfl, hs, hmatches⟩ := h
    simp only [rightsOf, numeral?_toString ((hf.modifies _ _ hs).1.lt hf)]
    refine List.mem_filter.mpr ⟨FinRel.mem_image.mpr hs, decide_eq_true ?_⟩
    exact mem_numberTexts.mpr ⟨s, hmatches, rfl⟩
  | conditions kind =>
    obtain ⟨s, rfl, hs, hmatches⟩ := h
    simp only [rightsOf, numeral?_toString ((hf.conditions _ _ hs).1.lt hf)]
    refine List.mem_filter.mpr ⟨FinRel.mem_image.mpr hs, decide_eq_true ?_⟩
    exact mem_numberTexts.mpr ⟨s, hmatches, rfl⟩

/-- The values to the right of a text are partners of what it denotes. -/
theorem exists_joins_of_mem_rightsOf {left right : String}
    (h : right ∈ connection.rightsOf facts left) :
    ∃ value, connection.Joins facts value right ∧ (IsValue left → value = left) := by
  cases connection with
  | statements r starred =>
    simp only [rightsOf] at h
    cases hnumeral : numeral? left with
    | none => rw [hnumeral] at h; cases h
    | some s =>
      rw [hnumeral] at h
      obtain ⟨t, ht, rfl⟩ := mem_numberTexts.mp h
      exact ⟨toString s, ⟨s, t, rfl, rfl, FinRel.mem_after.mp ht⟩,
        fun hleft => hleft.toString_eq s hnumeral⟩
  | procedures r starred =>
    simp only [rightsOf] at h
    cases hnumeral : numeral? left with
    | none =>
      rw [hnumeral] at h
      exact ⟨left, FinRel.mem_after.mp h, fun _ => rfl⟩
    | some s => rw [hnumeral] at h; cases h
  | accesses ofStatement ofProcedure =>
    simp only [rightsOf] at h
    cases hnumeral : numeral? left with
    | none =>
      rw [hnumeral] at h
      exact ⟨left, .inr (FinRel.mem_image.mp h), fun _ => rfl⟩
    | some s =>
      rw [hnumeral] at h
      exact ⟨toString s, .inl ⟨s, rfl, FinRel.mem_image.mp h⟩,
        fun hleft => hleft.toString_eq s hnumeral⟩
  | assignments expression asPart =>
    simp only [rightsOf] at h
    cases hnumeral : numeral? left with
    | none => rw [hnumeral] at h; cases h
    | some s =>
      rw [hnumeral] at h
      obtain ⟨himage, hmatches⟩ := List.mem_filter.mp h
      have hname := (hf.modifies _ _ (FinRel.mem_image.mp himage)).2
      exact ⟨left, (mem_leftsOf hf hc hname.isValue).mp (of_decide_eq_true hmatches), fun _ => rfl⟩
  | conditions kind =>
    simp only [rightsOf] at h
    cases hnumeral : numeral? left with
    | none => rw [hnumeral] at h; cases h
    | some s =>
      rw [hnumeral] at h
      obtain ⟨himage, hmatches⟩ := List.mem_filter.mp h
      have hname := (hf.conditions _ _ (FinRel.mem_image.mp himage)).2
      exact ⟨left, (mem_leftsOf hf hc hname.isValue).mp (of_decide_eq_true hmatches), fun _ => rfl⟩

/-- The values with a partner to their right are those of the pairs. -/
theorem mem_lefts {left : String} :
    left ∈ connection.lefts facts ↔ ∃ right, connection.Joins facts left right := by
  cases connection with
  | statements r starred =>
    simp only [lefts, Joins, mem_numberTexts, FinRel.mem_domain_iff_links starred]
    constructor
    · rintro ⟨s, ⟨t, hlinks⟩, rfl⟩
      exact ⟨_, s, t, rfl, rfl, hlinks⟩
    · rintro ⟨_, s, t, rfl, -, hlinks⟩
      exact ⟨s, ⟨t, hlinks⟩, rfl⟩
  | procedures r starred => exact FinRel.mem_domain_iff_links starred
  | accesses ofStatement ofProcedure =>
    simp only [lefts, Joins, mem_ascending, List.mem_append, List.mem_map, FinRel.mem_domain]
    constructor
    · rintro (⟨s, ⟨name, hs⟩, rfl⟩ | ⟨name, h⟩)
      · exact ⟨name, .inl ⟨s, rfl, hs⟩⟩
      · exact ⟨name, .inr h⟩
    · rintro ⟨name, ⟨s, rfl, hs⟩ | h⟩
      · exact .inl ⟨s, ⟨name, hs⟩, rfl⟩
      · exact .inr ⟨name, h⟩
  | assignments expression asPart =>
    simp only [lefts, leftsOf, Joins, mem_numberTexts, facts.mem_assignsMatching_wildcard hf]
    constructor
    · rintro ⟨s, ⟨target, htarget, hs⟩, rfl⟩
      exact ⟨target, s, rfl, htarget, hs⟩
    · rintro ⟨target, s, rfl, htarget, hs⟩
      exact ⟨s, ⟨target, htarget, hs⟩, rfl⟩
  | conditions kind =>
    simp only [lefts, leftsOf, Joins, mem_numberTexts, facts.mem_conditionsMatching_wildcard hf]
    constructor
    · rintro ⟨s, ⟨name, hname, hs⟩, rfl⟩
      exact ⟨name, s, rfl, hname, hs⟩
    · rintro ⟨name, s, rfl, hname, hs⟩
      exact ⟨s, ⟨name, hname, hs⟩, rfl⟩

/-- The values with a partner to their left are those of the pairs. What only procedures access is
not among them. -/
theorem mem_rights (haccess : ∀ a b, connection ≠ accesses a b) {right : String} :
    right ∈ connection.rights facts ↔ ∃ left, connection.Joins facts left right := by
  -- where the range is not kept, the partners of all left values are collected
  have hpartners : right ∈ (connection.lefts facts).flatMap (connection.rightsOf facts) ↔
      ∃ left, connection.Joins facts left right := by
    rw [List.mem_flatMap]
    constructor
    · rintro ⟨left, -, h⟩
      obtain ⟨value, hvalue, -⟩ := exists_joins_of_mem_rightsOf hf hc h
      exact ⟨value, hvalue⟩
    · rintro ⟨left, h⟩
      exact ⟨left, (mem_lefts hf hc).mpr ⟨right, h⟩, mem_rightsOf_of_joins hf hc h⟩
  cases connection with
  | statements r starred =>
    simp only [rights, Joins, mem_numberTexts, FinRel.mem_range_iff_links starred]
    constructor
    · rintro ⟨t, ⟨s, hlinks⟩, rfl⟩
      exact ⟨_, s, t, rfl, rfl, hlinks⟩
    · rintro ⟨_, s, t, -, rfl, hlinks⟩
      exact ⟨t, ⟨s, hlinks⟩, rfl⟩
  | procedures r starred => exact FinRel.mem_range_iff_links starred
  | accesses ofStatement ofProcedure => exact absurd rfl (haccess _ _)
  | assignments expression asPart => exact mem_ascending.trans hpartners
  | conditions kind => exact mem_ascending.trans hpartners

/-- Only names and numbers are related. -/
theorem isName_or_isNumber_of_joins {left right : String} (h : connection.Joins facts left right) :
    (IsName left ∨ IsNumber left) ∧ (IsName right ∨ IsNumber right) := by
  cases connection with
  | statements r starred =>
    obtain ⟨s, t, rfl, rfl, -⟩ := h
    exact ⟨.inr (isNumber_toString s), .inr (isNumber_toString t)⟩
  | procedures r starred => exact ⟨.inl (hc.of_links h).1, .inl (hc.of_links h).2⟩
  | accesses ofStatement ofProcedure =>
    rcases h with ⟨s, rfl, hs⟩ | h
    · exact ⟨.inr (isNumber_toString s), .inl (hc.1 _ _ hs).2⟩
    · exact ⟨.inl (hc.2 _ _ h).1, .inl (hc.2 _ _ h).2⟩
  | assignments expression asPart =>
    obtain ⟨s, rfl, hs, -⟩ := h
    exact ⟨.inr (isNumber_toString s), .inl (hf.modifies _ _ hs).2⟩
  | conditions kind =>
    obtain ⟨s, rfl, hs, -⟩ := h
    exact ⟨.inr (isNumber_toString s), .inl (hf.conditions _ _ hs).2⟩

/-- The values to the right of a value are its partners in the pairs. -/
theorem mem_rightsOf {left right : String} (hleft : IsValue left) :
    right ∈ connection.rightsOf facts left ↔ connection.Joins facts left right := by
  constructor
  · intro h
    obtain ⟨value, hvalue, heq⟩ := exists_joins_of_mem_rightsOf hf hc h
    exact heq hleft ▸ hvalue
  · exact mem_rightsOf_of_joins hf hc

end Views

theorem exists_access_of_ofClause? {facts : Facts} {c : Clause} {ofStatement : FinRel Nat String}
    {ofProcedure : FinRel String String}
    (h : ofClause? facts c = some (accesses ofStatement ofProcedure)) :
    ∃ access, ofStatement = facts.statementAccesses access ∧
      ofProcedure = facts.procedureAccesses access := by
  unfold ofClause? at h
  split at h
  case h_11 => exact ⟨.uses, by cases h; exact ⟨rfl, rfl⟩⟩
  case h_12 => exact ⟨.modifies, by cases h; exact ⟨rfl, rfl⟩⟩
  all_goals cases h

/-- Of a program, the values with a partner to their left are those of the pairs for all relations.
What a procedure accesses is not missing, since one of its statements accesses it. -/
theorem mem_rights_of_ofSource {text : String} {facts : Facts}
    (hlength : text.length < numeralBound) (hfacts : Facts.ofSource text = .ok facts) {c : Clause}
    {connection : Connection} (hconnection : ofClause? facts c = some connection)
    {right : String} :
    right ∈ connection.rights facts ↔ ∃ left, connection.Joins facts left right := by
  have hf := isWellFormed_of_ofSource hfacts hlength
  have hc := isWellFormed_of_ofClause? hf hconnection
  by_cases haccess : ∃ a b, connection = accesses a b
  · obtain ⟨_, _, rfl⟩ := haccess
    obtain ⟨access, rfl, rfl⟩ := exists_access_of_ofClause? hconnection
    simp only [rights, Joins, FinRel.mem_range]
    constructor
    · rintro ⟨s, hs⟩
      exact ⟨toString s, .inl ⟨s, rfl, hs⟩⟩
    · rintro ⟨left, ⟨s, -, hs⟩ | h⟩
      · exact ⟨s, hs⟩
      · exact exists_mem_statementAccesses hfacts h
  · exact mem_rights hf hc fun a b heq => haccess ⟨a, b, heq⟩

/-- The four views of the relation that a clause states agree. The partners to the right and to the
left are those of the same pairs, and the values that are listed as having a partner are the names
and numbers that have one. -/
theorem views_agree {text : String} {facts : Facts} (hlength : text.length < numeralBound)
    (hfacts : Facts.ofSource text = .ok facts) {c : Clause} (hkind : c.kind ≠ .equality) :
    ∃ connection, ofClause? facts c = some connection ∧
      (∀ l r, IsName l ∨ IsNumber l → IsName r ∨ IsNumber r →
        (r ∈ connection.rightsOf facts l ↔ l ∈ connection.leftsOf facts r)) ∧
      (∀ l, l ∈ connection.lefts facts ↔
        (IsName l ∨ IsNumber l) ∧ connection.rightsOf facts l ≠ []) ∧
      ∀ r, r ∈ connection.rights facts ↔
        (IsName r ∨ IsNumber r) ∧ connection.leftsOf facts r ≠ [] := by
  have hf := isWellFormed_of_ofSource hfacts hlength
  obtain ⟨connection, hconnection⟩ : ∃ connection, ofClause? facts c = some connection := by
    unfold ofClause?
    split
    case h_18 hequality => exact absurd hequality hkind
    all_goals exact ⟨_, rfl⟩
  have hc := isWellFormed_of_ofClause? hf hconnection
  have hvalue : ∀ {s}, IsName s ∨ IsNumber s → IsValue s :=
    fun h => h.elim IsName.isValue IsNumber.isValue
  refine ⟨connection, hconnection, fun l r hl hr => ?_, fun l => ?_, fun r => ?_⟩
  · rw [mem_rightsOf hf hc (hvalue hl), mem_leftsOf hf hc (hvalue hr)]
  · rw [mem_lefts hf hc]
    constructor
    · rintro ⟨r, h⟩
      have hl := (isName_or_isNumber_of_joins hf hc h).1
      exact ⟨hl, List.ne_nil_of_mem ((mem_rightsOf hf hc (hvalue hl)).mpr h)⟩
    · rintro ⟨hl, hne⟩
      obtain ⟨r, hr⟩ := List.exists_mem_of_ne_nil _ hne
      exact ⟨r, (mem_rightsOf hf hc (hvalue hl)).mp hr⟩
  · rw [mem_rights_of_ofSource hlength hfacts hconnection]
    constructor
    · rintro ⟨l, h⟩
      have hr := (isName_or_isNumber_of_joins hf hc h).2
      exact ⟨hr, List.ne_nil_of_mem ((mem_leftsOf hf hc (hvalue hr)).mpr h)⟩
    · rintro ⟨hr, hne⟩
      obtain ⟨l, hl⟩ := List.exists_mem_of_ne_nil _ hne
      exact ⟨l, (mem_leftsOf hf hc (hvalue hr)).mp hl⟩

/-- A procedure that only calls another one. -/
def passesOn : String :=
  "procedure main \x7b call input; \x7d procedure input \x7b read y; \x7d"

/-- Whether something is modified. -/
def modifiesSome : Clause :=
  ⟨.modifies, ⟨.wildcard, "_"⟩, ⟨.wildcard, "_"⟩, ""⟩

/-- A procedure that modifies a variable through a call is found from that variable as well, and
both are among the values with a partner. -/
theorem views_agree_passesOn : ∃ facts connection, passesOn.length < numeralBound ∧
    Facts.ofSource passesOn = .ok facts ∧ modifiesSome.kind ≠ .equality ∧
      ofClause? facts modifiesSome = some connection ∧
      connection.rightsOf facts "main" = ["y"] ∧ "main" ∈ connection.leftsOf facts "y" ∧
      "main" ∈ connection.lefts facts ∧ "y" ∈ connection.rights facts := by
  have hlength : passesOn.length < numeralBound := by decide +kernel
  have hkind : modifiesSome.kind ≠ .equality := by decide
  have hrun : (do
      let facts ← (Facts.ofSource passesOn).toOption
      let connection ← ofClause? facts modifiesSome
      return connection.rightsOf facts "main") = some ["y"] := by
    decide +kernel
  obtain ⟨facts, hfacts, hrun⟩ := Option.bind_eq_some_iff.mp hrun
  obtain ⟨connection, hconnection, hrun⟩ := Option.bind_eq_some_iff.mp hrun
  have hrights : connection.rightsOf facts "main" = ["y"] := Option.some.inj hrun
  have hfacts := eq_ok_of_toOption hfacts
  have hmain : IsName "main" := ⟨'m', ['a', 'i', 'n'], by decide, by decide, by decide⟩
  have hy : IsName "y" := ⟨'y', [], by decide, by decide, by decide⟩
  obtain ⟨other, hother, hleftsOf, hlefts, hrightsEnd⟩ := views_agree hlength hfacts hkind
  obtain rfl := Option.some.inj (hconnection.symm.trans hother)
  have hleft : "main" ∈ connection.leftsOf facts "y" := by
    rw [← hleftsOf "main" "y" (.inl hmain) (.inl hy), hrights]
    exact List.mem_cons_self
  refine ⟨facts, connection, hlength, hfacts, hkind, hconnection, hrights, hleft, ?_, ?_⟩
  · exact (hlefts "main").mpr ⟨.inl hmain, by simp [hrights]⟩
  · exact (hrightsEnd "y").mpr ⟨.inl hy, List.ne_nil_of_mem hleft⟩

end Connection

end ProgramQuery
