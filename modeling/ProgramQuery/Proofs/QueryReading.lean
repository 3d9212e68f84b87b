import Mathlib.Data.List.TakeDrop
import ProgramQuery.Proofs.QueryGrammar

/-!
# Queries are read by their grammar

Clauses are read as the grammar derives them, and so are whole queries. A reference is read without
regard to what it is needed for, and then checked, while the grammar has references of several
sorts: `orAny_statementRef_iff` and its kin say that this comes to the same.

## Main definitions

- `QueryGrammar.Reference`: all references.

## Main statements

- `QueryGrammar.relation_iff`: a relation is one between references that it accepts.
- `ofTextD_eq_iff_selectClause`: the texts that are read as queries are those of the grammar.
-/

namespace ProgramQuery

namespace QueryGrammar

open Grammar (Repeated IsSound IsComplete anything isWord_iff)

/-! ## Reading references and relations -/

/-- `reference = synonym | "_" | integer | '"' name '"'`, whatever it is needed for. -/
inductive Reference (declared : Declarations) : List Token → Argument → Prop where
  | wildcard {t : Token} (ht : t.kind = .underscore) : Reference declared [t] ⟨.wildcard, "_"⟩
  | number {ts : List Token} {a : Argument} (h : Number ts a) : Reference declared ts a
  | name {ts : List Token} {a : Argument} (h : QuotedName ts a) : Reference declared ts a
  | synonym {t : Token} {kind : EntityKind} (ht : t.kind = .name)
      (hdeclared : (t.text, kind) ∈ declared) :
      Reference declared [t] ⟨kind.argumentKind, t.text⟩

theorem argumentKind_eq_stmtSynonym_iff (kind : EntityKind) :
    kind.argumentKind = .stmtSynonym ↔ kind ∈ statementKinds := by
  cases kind <;> decide

theorem argumentKind_ne (kind : EntityKind) :
    kind.argumentKind ∉ [ArgumentKind.name, .number, .wildcard] := by
  cases kind <;> decide

section References

variable {declared : Declarations} {ts : List Token} {a : Argument}

theorem orAny_statementRef_iff : OrAny (StatementRef declared) ts a ↔
    Reference declared ts a ∧ a.isStatementRef = true := by
  constructor
  · rintro (⟨⟨ht, hdeclared, hkind⟩ | ⟨⟨ht⟩⟩⟩ | ht)
    · have hsort := (argumentKind_eq_stmtSynonym_iff _).mpr hkind
      exact ⟨hsort ▸ .synonym ht hdeclared, rfl⟩
    · exact ⟨.number (.intro ht), rfl⟩
    · exact ⟨.wildcard ht, rfl⟩
  · rintro ⟨h, hstatement⟩
    cases h with
    | wildcard ht => exact .wildcard ht
    | number h => exact .reference (.number h)
    | name h =>
      obtain ⟨-, -, -⟩ := h
      cases hstatement
    | @synonym t kind ht hdeclared =>
      have hne := argumentKind_ne kind
      simp only [Argument.isStatementRef, List.mem_cons, List.not_mem_nil, or_false,
        decide_eq_true_eq, not_or] at hstatement hne
      have hsort := hstatement.resolve_right (not_or.mpr ⟨hne.2.1, hne.2.2⟩)
      rw [hsort]
      exact .reference (.synonym (.intro ht hdeclared
        ((argumentKind_eq_stmtSynonym_iff kind).mp hsort)))

theorem orAny_namedRef_iff {kind : EntityKind} {sort : ArgumentKind}
    (hsort : ∀ kind', EntityKind.argumentKind kind' = sort ↔ kind' = kind) :
    OrAny (NamedRef declared kind sort) ts a ↔
      Reference declared ts a ∧ a.kind ∈ [sort, .name, .wildcard] := by
  constructor
  · rintro (⟨⟨ht, hdeclared, hkind⟩ | ⟨⟨hopening, ht, hclosing⟩⟩⟩ | ht)
    · have hsort := (hsort _).mpr (List.mem_singleton.mp hkind)
      exact ⟨hsort ▸ .synonym ht hdeclared, by simp⟩
    · exact ⟨.name (.intro hopening ht hclosing), by simp⟩
    · exact ⟨.wildcard ht, by simp⟩
  · rintro ⟨h, hmem⟩
    cases h with
    | wildcard ht => exact .wildcard ht
    | number h =>
      have hne := argumentKind_ne kind
      obtain ⟨-⟩ := h
      rw [(hsort kind).mpr rfl] at hne
      simp only [List.mem_cons, reduceCtorEq, List.not_mem_nil, or_false] at hmem
      simp [← hmem] at hne
    | name h => exact .reference (.name h)
    | @synonym t kind' ht hdeclared =>
      have hne := argumentKind_ne kind'
      simp only [List.mem_cons, List.not_mem_nil, or_false, not_or] at hmem hne
      have hkind := hmem.resolve_right (not_or.mpr ⟨hne.1, hne.2.2⟩)
      rw [hkind]
      exact .reference (.synonym (.intro ht hdeclared
        (List.mem_singleton.mpr ((hsort kind').mp hkind))))

theorem orAny_procedureRef_iff : OrAny (ProcedureRef declared) ts a ↔
    Reference declared ts a ∧ a.isProcedureRef = true := by
  rw [orAny_namedRef_iff (fun kind => by cases kind <;> decide), Argument.isProcedureRef,
    decide_eq_true_eq]

theorem orAny_variableRef_iff : OrAny (VariableRef declared) ts a ↔
    Reference declared ts a ∧ a.isVariableRef = true := by
  rw [orAny_namedRef_iff (fun kind => by cases kind <;> decide), Argument.isVariableRef,
    decide_eq_true_eq]

/-- Without an underscore there is a value or a synonym. -/
theorem statementRef_or_procedureRef_iff :
    StatementRef declared ts a ∨ ProcedureRef declared ts a ↔ Reference declared ts a ∧
      a.kind ≠ .wildcard ∧ (a.isStatementRef = true ∨ a.isProcedureRef = true) := by
  constructor
  · rintro (h | h)
    · obtain ⟨hreference, ha⟩ := orAny_statementRef_iff.mp (.reference h)
      refine ⟨hreference, ?_, .inl ha⟩
      rcases h with ⟨-, -, -⟩ | ⟨⟨-⟩⟩ <;> simp
    · obtain ⟨hreference, ha⟩ := orAny_procedureRef_iff.mp (.reference h)
      refine ⟨hreference, ?_, .inr ha⟩
      rcases h with ⟨-, -, -⟩ | ⟨⟨-, -, -⟩⟩ <;> simp
  · rintro ⟨hreference, hne, ha⟩
    have hvalue : ∀ {reference : List Token → Argument → Prop}, OrAny reference ts a →
        reference ts a := by
      rintro reference (h | -)
      · exact h
      · exact absurd rfl hne
    exact ha.imp (fun ha => hvalue (orAny_statementRef_iff.mpr ⟨hreference, ha⟩))
      (fun ha => hvalue (orAny_procedureRef_iff.mpr ⟨hreference, ha⟩))

variable (hnodup : (declared.map Prod.fst).Nodup)

include hnodup

theorem isSound_readReference : IsSound (Reference declared) (readReference declared) := by
  intro ts a rest h
  cases ts with
  | nil => cases h
  | cons t ts =>
    rw [readReference] at h
    split at h
    · next hkind =>
      obtain ⟨rfl, rfl⟩ := Prod.mk.inj (Except.ok.inj h)
      exact ⟨[t], rfl, .wildcard hkind⟩
    · next hkind =>
      obtain ⟨rfl, rfl⟩ := Prod.mk.inj (Except.ok.inj h)
      exact ⟨[t], rfl, .number (.intro hkind)⟩
    · next hopening =>
      obtain ⟨⟨name, ts₁⟩, hname, h⟩ := exists_of_bind_eq_ok h
      obtain ⟨⟨closing, ts₂⟩, hclosing, h⟩ := exists_of_bind_eq_ok h
      obtain ⟨rfl, rfl⟩ := Prod.mk.inj (Except.ok.inj h)
      obtain ⟨hts, hkind⟩ := of_expectKind hname
      obtain ⟨hts₁, hkind'⟩ := of_expectKind hclosing
      exact ⟨[t, name, closing], by simp [hts, hts₁], .name (.intro hopening hkind hkind')⟩
    · next hkind =>
      obtain ⟨kind, hentity, h⟩ := exists_of_bind_eq_ok h
      obtain ⟨rfl, rfl⟩ := Prod.mk.inj (Except.ok.inj h)
      exact ⟨[t], rfl, .synonym hkind ((entityOf_eq_ok_iff hnodup).mp hentity)⟩
    · cases h

theorem isComplete_readReference (bound : Nat) :
    IsComplete (Reference declared) anything bound (readReference declared) := by
  intro ts a h _ rest _
  cases h with
  | wildcard ht => simp [readReference, ht]
  | number h =>
    obtain ⟨ht⟩ := h
    simp [readReference, ht]
  | name h =>
    obtain ⟨hopening, ht, hclosing⟩ := h
    simp only [List.cons_append, List.nil_append, readReference, hopening, expectKind_of_kind ht,
      ok_bind, expectKind_of_kind hclosing]
    rfl
  | synonym ht hdeclared =>
    simp only [List.singleton_append, readReference, ht,
      (entityOf_eq_ok_iff hnodup).mpr hdeclared, ok_bind]
    rfl

end References

/-- All relations. -/
def relations : List (String × Bool × ClauseKind) :=
  statementRelations ++ procedureRelations ++ variableRelations

theorem ofRelation?_eq_some_iff {name : String} {starred : Bool} {kind : ClauseKind} :
    ClauseKind.ofRelation? name starred = some kind ↔ (name, starred, kind) ∈ relations := by
  constructor
  · intro h
    unfold ClauseKind.ofRelation? at h
    split at h <;> cases h <;> decide
  · intro h
    have hall : ∀ entry ∈ relations,
        ClauseKind.ofRelation? entry.1 entry.2.1 = some entry.2.2 := by
      decide
    exact hall _ h

theorem accepts_of_mem_statementRelations {text : String} {starred : Bool} {kind : ClauseKind}
    (h : (text, starred, kind) ∈ statementRelations) (a b : Argument) :
    kind.accepts a b = (a.isStatementRef && b.isStatementRef) := by
  simp only [statementRelations, List.mem_cons, Prod.mk.injEq, List.not_mem_nil, or_false] at h
  rcases h with h | h | h | h | h | h | h | h <;> obtain ⟨-, -, rfl⟩ := h <;> rfl

theorem accepts_of_mem_procedureRelations {text : String} {starred : Bool} {kind : ClauseKind}
    (h : (text, starred, kind) ∈ procedureRelations) (a b : Argument) :
    kind.accepts a b = (a.isProcedureRef && b.isProcedureRef) := by
  simp only [procedureRelations, List.mem_cons, Prod.mk.injEq, List.not_mem_nil, or_false] at h
  rcases h with h | h <;> obtain ⟨-, -, rfl⟩ := h <;> rfl

theorem accepts_of_mem_variableRelations {text : String} {starred : Bool} {kind : ClauseKind}
    (h : (text, starred, kind) ∈ variableRelations) (a b : Argument) :
    kind.accepts a b = (a.kind ≠ .wildcard && (a.isStatementRef || a.isProcedureRef) &&
      b.isVariableRef) := by
  simp only [variableRelations, List.mem_cons, Prod.mk.injEq, List.not_mem_nil, or_false] at h
  rcases h with h | h <;> obtain ⟨-, -, rfl⟩ := h <;> rfl

theorem RelationName.exists_mem {table : List (String × Bool × ClauseKind)} {ts : List Token}
    {kind : ClauseKind} (h : RelationName table ts kind) :
    ∃ text starred, (text, starred, kind) ∈ table := by
  cases h with
  | plain hmem => exact ⟨_, _, hmem⟩
  | starred hmem => exact ⟨_, _, hmem⟩

section Relations

variable {declared : Declarations} {ts : List Token} {c : Clause}

theorem relates_append {table table' : List (String × Bool × ClauseKind)}
    {left right : List Token → Argument → Prop} :
    Relates (table ++ table') left right ts c ↔
      Relates table left right ts c ∨ Relates table' left right ts c := by
  have hname {us : List Token} {kind : ClauseKind} : RelationName (table ++ table') us kind ↔
      RelationName table us kind ∨ RelationName table' us kind := by
    constructor
    · rintro (⟨hmem, hword⟩ | ⟨hmem, hword, hstar⟩)
      · exact (List.mem_append.mp hmem).imp (.plain · hword) (.plain · hword)
      · exact (List.mem_append.mp hmem).imp (.starred · hword hstar) (.starred · hword hstar)
    · rintro ((⟨hmem, hword⟩ | ⟨hmem, hword, hstar⟩) | (⟨hmem, hword⟩ | ⟨hmem, hword, hstar⟩))
      · exact .plain (List.mem_append_left _ hmem) hword
      · exact .starred (List.mem_append_left _ hmem) hword hstar
      · exact .plain (List.mem_append_right _ hmem) hword
      · exact .starred (List.mem_append_right _ hmem) hword hstar
  constructor
  · rintro ⟨h, hopening, hleft, hcomma, hright, hclosing⟩
    exact (hname.mp h).imp (.intro · hopening hleft hcomma hright hclosing)
      (.intro · hopening hleft hcomma hright hclosing)
  · rintro (⟨h, hopening, hleft, hcomma, hright, hclosing⟩ |
      ⟨h, hopening, hleft, hcomma, hright, hclosing⟩)
    · exact .intro (hname.mpr (.inl h)) hopening hleft hcomma hright hclosing
    · exact .intro (hname.mpr (.inr h)) hopening hleft hcomma hright hclosing

/-- The arguments that some relations take are the references that they accept. -/
theorem relates_iff {table : List (String × Bool × ClauseKind)}
    {left right : List Token → Argument → Prop}
    (h : ∀ {text starred kind}, (text, starred, kind) ∈ table → ∀ {us vs a b},
      left us a ∧ right vs b ↔
        (Reference declared us a ∧ Reference declared vs b) ∧ kind.accepts a b = true) :
    Relates table left right ts c ↔
      Relates table (Reference declared) (Reference declared) ts c ∧
        c.kind.accepts c.left c.right = true := by
  constructor
  · rintro ⟨hname, hopening, hleft, hcomma, hright, hclosing⟩
    obtain ⟨text, starred, hmem⟩ := hname.exists_mem
    obtain ⟨⟨hleft, hright⟩, haccepts⟩ := (h hmem).mp ⟨hleft, hright⟩
    exact ⟨.intro hname hopening hleft hcomma hright hclosing, haccepts⟩
  · rintro ⟨⟨hname, hopening, hleft, hcomma, hright, hclosing⟩, haccepts⟩
    obtain ⟨text, starred, hmem⟩ := hname.exists_mem
    obtain ⟨hleft, hright⟩ := (h hmem).mpr ⟨⟨hleft, hright⟩, haccepts⟩
    exact .intro hname hopening hleft hcomma hright hclosing

/-- A relation is one of all relations, between references that it accepts. -/
theorem relation_iff : Relation declared ts c ↔
    Relates relations (Reference declared) (Reference declared) ts c ∧
      c.kind.accepts c.left c.right = true := by
  have hstatements : Relates statementRelations (OrAny (StatementRef declared))
      (OrAny (StatementRef declared)) ts c ↔
        Relates statementRelations (Reference declared) (Reference declared) ts c ∧
          c.kind.accepts c.left c.right = true := by
    refine relates_iff fun hmem us vs a b => ?_
    rw [orAny_statementRef_iff, orAny_statementRef_iff, accepts_of_mem_statementRelations hmem,
      Bool.and_eq_true, and_and_and_comm]
  have hprocedures : Relates procedureRelations (OrAny (ProcedureRef declared))
      (OrAny (ProcedureRef declared)) ts c ↔
        Relates procedureRelations (Reference declared) (Reference declared) ts c ∧
          c.kind.accepts c.left c.right = true := by
    refine relates_iff fun hmem us vs a b => ?_
    rw [orAny_procedureRef_iff, orAny_procedureRef_iff, accepts_of_mem_procedureRelations hmem,
      Bool.and_eq_true, and_and_and_comm]
  have hvariables : Relates variableRelations
      (fun us a => StatementRef declared us a ∨ ProcedureRef declared us a)
      (OrAny (VariableRef declared)) ts c ↔
        Relates variableRelations (Reference declared) (Reference declared) ts c ∧
          c.kind.accepts c.left c.right = true := by
    refine relates_iff fun hmem us vs a b => ?_
    simp only [statementRef_or_procedureRef_iff, orAny_variableRef_iff,
      accepts_of_mem_variableRelations hmem, Bool.and_eq_true, Bool.or_eq_true, decide_eq_true_eq]
    rw [and_and_and_comm]
  rw [Relation, hstatements, hprocedures, hvariables, ← or_and_right, ← or_and_right, relations,
    relates_append, relates_append, or_assoc]

/-- No relation is a pattern with an expression. -/
theorem ne_assign_of_relation (h : Relation declared ts c) :
    c.kind ≠ .assignExact ∧ c.kind ≠ .assignPart := by
  have hkinds : ∀ entry ∈ relations,
      entry.2.2 ≠ .assignExact ∧ entry.2.2 ≠ .assignPart := by decide
  obtain ⟨hname, -⟩ := (relation_iff.mp h).1
  obtain ⟨text, starred, hmem⟩ := hname.exists_mem
  exact hkinds _ hmem

variable (hnodup : (declared.map Prod.fst).Nodup)

include hnodup

theorem isSound_readRelation : IsSound (Relation declared) (readRelation declared) := by
  intro ts c rest h
  obtain ⟨⟨name, ts₁⟩, hname, h⟩ := exists_of_bind_eq_ok h
  obtain ⟨hts, hkind⟩ := of_expectKind hname
  dsimp only at h
  split at h
  · cases h
  next kind hrelation =>
  have hrelation := ofRelation?_eq_some_iff.mp hrelation
  have hword : name.isWord name.text = true := isWord_iff.mpr ⟨hkind, rfl⟩
  obtain ⟨used, hts₁, hused⟩ : ∃ used,
      name :: ts₁ = used ++ (if startsWith .times ts₁ = true then ts₁.tail else ts₁) ∧
        RelationName relations used kind := by
    by_cases hstar : startsWith .times ts₁ = true
    · rw [hstar] at hrelation
      obtain ⟨star, hts₁, hkind'⟩ := exists_of_startsWith hstar
      exact ⟨[name, star], by rw [if_pos hstar, hts₁]; rfl, .starred hrelation hword hkind'⟩
    · rw [Bool.eq_false_iff.mpr hstar] at hrelation
      exact ⟨[name], by rw [if_neg hstar]; rfl, .plain hrelation hword⟩
  obtain ⟨⟨opening, ts₂⟩, hopening, h⟩ := exists_of_bind_eq_ok h
  obtain ⟨⟨left, ts₃⟩, hleft, h⟩ := exists_of_bind_eq_ok h
  obtain ⟨⟨comma, ts₄⟩, hcomma, h⟩ := exists_of_bind_eq_ok h
  obtain ⟨⟨right, ts₅⟩, hright, h⟩ := exists_of_bind_eq_ok h
  obtain ⟨⟨closing, ts₆⟩, hclosing, h⟩ := exists_of_bind_eq_ok h
  dsimp only at h
  split at h
  · next haccepts =>
    obtain ⟨rfl, rfl⟩ := Prod.mk.inj (Except.ok.inj h)
    obtain ⟨hts₂, hopening⟩ := of_expectKind hopening
    obtain ⟨us, hts₃, hleft⟩ := isSound_readReference hnodup hleft
    obtain ⟨hts₄, hcomma⟩ := of_expectKind hcomma
    obtain ⟨vs, hts₅, hright⟩ := isSound_readReference hnodup hright
    obtain ⟨hts₆, hclosing⟩ := of_expectKind hclosing
    dsimp only at hts₃ hts₄ hts₅ hts₆
    refine ⟨used ++ opening :: us ++ comma :: vs ++ [closing], ?_, ?_⟩
    · rw [hts, hts₁, hts₂, hts₃, hts₄, hts₅, hts₆]
      simp
    · exact relation_iff.mpr ⟨.intro hused hopening hleft hcomma hright hclosing, haccepts⟩
  · cases h

theorem isComplete_readRelation (bound : Nat) :
    IsComplete (Relation declared) anything bound (readRelation declared) := by
  intro ts c h _ rest _
  obtain ⟨hrelates, haccepts⟩ := relation_iff.mp h
  obtain @⟨ts, us, vs, opening, comma, closing, kind, a, b, hname, hopening, hleft, hcomma, hright,
    hclosing⟩ := hrelates
  have hleft' : readReference declared (us ++ comma :: (vs ++ closing :: rest)) =
      .ok (a, comma :: (vs ++ closing :: rest)) :=
    isComplete_readReference hnodup _ hleft (Nat.le_refl _) trivial
  have hright' : readReference declared (vs ++ closing :: rest) = .ok (b, closing :: rest) :=
    isComplete_readReference hnodup _ hright (Nat.le_refl _) trivial
  simp only [List.append_assoc, List.cons_append, List.nil_append]
  cases hname with
  | plain hmem hword =>
    obtain ⟨hkind, rfl⟩ := isWord_iff.mp hword
    have hno : startsWith .times (opening :: (us ++ comma :: (vs ++ closing :: rest))) = false := by
      simp [startsWith, hopening]
    simp only [List.singleton_append, readRelation, expectKind_of_kind hkind, ok_bind, hno,
      Bool.false_eq_true, if_false, ofRelation?_eq_some_iff.mpr hmem, expectKind_of_kind hopening,
      hleft', expectKind_of_kind hcomma, hright', expectKind_of_kind hclosing, haccepts, if_true]
    rfl
  | @starred t star text kind hmem hword hstar =>
    obtain ⟨hkind, rfl⟩ := isWord_iff.mp hword
    have hstarts : startsWith .times
        (star :: opening :: (us ++ comma :: (vs ++ closing :: rest))) = true :=
      decide_eq_true hstar
    simp only [List.cons_append, List.nil_append, readRelation, expectKind_of_kind hkind, ok_bind,
      hstarts, if_true, List.tail_cons, ofRelation?_eq_some_iff.mpr hmem,
      expectKind_of_kind hopening, hleft', expectKind_of_kind hcomma, hright',
      expectKind_of_kind hclosing, haccepts]
    rfl

end Relations

/-! ## Reading patterns -/

theorem span_quoted {ts rest : List Token} {closing : Token}
    (hinner : ∀ t ∈ ts, t.kind ≠ .doubleQuote) (hclosing : closing.kind = .doubleQuote) :
    (ts ++ closing :: rest).span (fun t => t.kind ≠ .doubleQuote) = (ts, closing :: rest) := by
  have hpos : ∀ t ∈ ts, decide (t.kind ≠ .doubleQuote) = true :=
    fun t ht => decide_eq_true (hinner t ht)
  rw [List.span_eq_takeWhile_dropWhile, takeWhile_append_cons hpos (by simp [hclosing]),
    List.dropWhile_append_of_pos hpos, List.dropWhile_cons_of_neg (by simp [hclosing])]

theorem isSound_readQuoted : IsSound Quoted readQuoted := by
  intro ts text rest h
  obtain ⟨⟨opening, ts₁⟩, hopening, h⟩ := exists_of_bind_eq_ok h
  obtain ⟨hts, hkind⟩ := of_expectKind hopening
  dsimp only at h
  rw [List.span_eq_takeWhile_dropWhile] at h
  obtain ⟨⟨closing, ts₂⟩, hclosing, h⟩ := exists_of_bind_eq_ok h
  dsimp only at h
  split at h
  · cases h
  next hne =>
  obtain ⟨rfl, rfl⟩ := Prod.mk.inj (Except.ok.inj h)
  obtain ⟨hdrop, hkind'⟩ := of_expectKind hclosing
  dsimp only at hdrop
  refine ⟨_, ?_, .intro hkind (by simpa using hne) (fun t ht => ?_) hkind'⟩
  · rw [List.cons_append, List.cons_append, List.append_assoc, List.singleton_append, ← hdrop,
      List.takeWhile_append_dropWhile, hts]
  · simpa using List.all_eq_true.mp List.all_takeWhile t ht

theorem isComplete_readQuoted (bound : Nat) : IsComplete Quoted anything bound readQuoted := by
  intro ts text h _ rest _
  obtain @⟨opening, closing, ts, hopening, hne, hinner, hclosing⟩ := h
  have hempty : ¬ts.isEmpty = true := by simp [hne]
  simp only [List.cons_append, List.append_assoc, List.nil_append, readQuoted,
    expectKind_of_kind hopening, ok_bind, span_quoted hinner hclosing,
    expectKind_of_kind hclosing, if_neg hempty]
  rfl

/-- What comes after an underscore that is a shape of its own. -/
def NoQuote (ts : List Token) : Prop :=
  startsWith .doubleQuote ts = false

theorem isSound_readShape : IsSound Shape readShape := by
  intro ts shape rest h
  unfold readShape at h
  split at h
  · next hsign =>
    obtain ⟨sign, hts, hsign⟩ := exists_of_startsWith hsign
    split at h
    · obtain ⟨⟨text, ts₁⟩, htext, h⟩ := exists_of_bind_eq_ok h
      obtain ⟨⟨sign', ts₂⟩, hsign', h⟩ := exists_of_bind_eq_ok h
      obtain ⟨rfl, rfl⟩ := Prod.mk.inj (Except.ok.inj h)
      obtain ⟨used, htail, hused⟩ := isSound_readQuoted htext
      obtain ⟨hts₁, hkind⟩ := of_expectKind hsign'
      refine ⟨sign :: used ++ [sign'], ?_, .part hsign hused hkind⟩
      rw [hts, htail, hts₁]
      simp
    · obtain ⟨rfl, rfl⟩ := Prod.mk.inj (Except.ok.inj h)
      exact ⟨[sign], hts, .any hsign⟩
  · obtain ⟨⟨text, ts₁⟩, htext, h⟩ := exists_of_bind_eq_ok h
    obtain ⟨rfl, rfl⟩ := Prod.mk.inj (Except.ok.inj h)
    obtain ⟨used, hts, hused⟩ := isSound_readQuoted htext
    exact ⟨used, hts, .exact hused⟩

theorem startsWith_of_quoted {ts rest : List Token} {text : String} (h : Quoted ts text) :
    startsWith .doubleQuote (ts ++ rest) = true ∧ startsWith .underscore (ts ++ rest) = false := by
  obtain ⟨hopening, -, -, -⟩ := h
  simp [startsWith, hopening]

theorem isComplete_readShape (bound : Nat) : IsComplete Shape NoQuote bound readShape := by
  intro ts shape h _ rest hrest
  cases h with
  | @any t ht =>
    have hsign : startsWith .underscore (t :: rest) = true := decide_eq_true ht
    have hquote : startsWith .doubleQuote rest = false := hrest
    simp only [List.singleton_append, readShape, hsign, if_true, List.tail_cons, hquote,
      Bool.false_eq_true, if_false]
    rfl
  | @part t u ts text ht hquoted hu =>
    have hsign : startsWith .underscore (t :: (ts ++ u :: rest)) = true := decide_eq_true ht
    have hquote : startsWith .doubleQuote (ts ++ u :: rest) = true :=
      (startsWith_of_quoted hquoted).1
    have hread : readQuoted (ts ++ u :: rest) = .ok (text, u :: rest) :=
      isComplete_readQuoted _ hquoted (Nat.le_refl _) trivial
    simp only [List.cons_append, List.append_assoc, List.nil_append, readShape, hsign, if_true,
      List.tail_cons, hquote, hread, ok_bind, expectKind_of_kind hu]
    rfl
  | @exact ts text hquoted =>
    have hsign : startsWith .underscore (ts ++ rest) = false := (startsWith_of_quoted hquoted).2
    have hread : readQuoted (ts ++ rest) = .ok (text, rest) :=
      isComplete_readQuoted _ hquoted (Nat.le_refl _) trivial
    simp only [readShape, hsign, Bool.false_eq_true, if_false, hread, ok_bind]
    rfl

theorem of_readPatternEnd {kind : EntityKind} {synonym : String} {target : Argument}
    {ts rest : List Token} {c : Clause}
    (h : readPatternEnd kind synonym target ts = .ok (c, rest)) :
    ∃ used shape text, ts = used ++ rest ∧ PatternEnd kind used (shape, text) ∧
      c = ⟨shape, ⟨.stmtSynonym, synonym⟩, target, text⟩ := by
  unfold readPatternEnd at h
  dsimp only at h
  split at h
  · obtain ⟨⟨⟨shape, text⟩, ts₁⟩, hshape, h⟩ := exists_of_bind_eq_ok h
    obtain ⟨rfl, rfl⟩ := Prod.mk.inj (Except.ok.inj h)
    obtain ⟨used, hts, hused⟩ := isSound_readShape hshape
    exact ⟨used, shape, text, hts, .assign hused, rfl⟩
  · obtain ⟨⟨sign, ts₁⟩, hsign, h⟩ := exists_of_bind_eq_ok h
    obtain ⟨rfl, rfl⟩ := Prod.mk.inj (Except.ok.inj h)
    obtain ⟨hts, hkind⟩ := of_expectKind hsign
    exact ⟨[sign], _, _, hts, .whileLoop hkind, rfl⟩
  · obtain ⟨⟨sign, ts₁⟩, hsign, h⟩ := exists_of_bind_eq_ok h
    obtain ⟨⟨comma, ts₂⟩, hcomma, h⟩ := exists_of_bind_eq_ok h
    obtain ⟨⟨sign', ts₃⟩, hsign', h⟩ := exists_of_bind_eq_ok h
    obtain ⟨rfl, rfl⟩ := Prod.mk.inj (Except.ok.inj h)
    obtain ⟨hts, hkind⟩ := of_expectKind hsign
    obtain ⟨hts₁, hkind'⟩ := of_expectKind hcomma
    obtain ⟨hts₂, hkind''⟩ := of_expectKind hsign'
    dsimp only at hts₁ hts₂
    exact ⟨[sign, comma, sign'], _, _, by simp [hts, hts₁, hts₂],
      .ifElse hkind hkind' hkind'', rfl⟩
  · cases h

theorem readPatternEnd_eq {kind : EntityKind} {synonym text : String} {target : Argument}
    {ts rest : List Token} {shape : ClauseKind} (h : PatternEnd kind ts (shape, text))
    (hrest : NoQuote rest) : readPatternEnd kind synonym target (ts ++ rest) =
      .ok (⟨shape, ⟨.stmtSynonym, synonym⟩, target, text⟩, rest) := by
  cases h with
  | assign hshape =>
    simp only [readPatternEnd, isComplete_readShape _ hshape (Nat.le_refl _) hrest, ok_bind]
    rfl
  | whileLoop ht =>
    simp only [List.singleton_append, readPatternEnd, expectKind_of_kind ht, ok_bind]
    rfl
  | ifElse ht hcomma hu =>
    simp only [List.cons_append, List.nil_append, readPatternEnd, expectKind_of_kind ht, ok_bind,
      expectKind_of_kind hcomma, expectKind_of_kind hu]
    rfl

section Patterns

variable {declared : Declarations} (hnodup : (declared.map Prod.fst).Nodup)

include hnodup

theorem isSound_readPattern : IsSound (Pattern declared) (readPattern declared) := by
  intro ts c rest h
  obtain ⟨⟨synonym, ts₁⟩, hsynonym, h⟩ := exists_of_bind_eq_ok h
  obtain ⟨kind, hentity, h⟩ := exists_of_bind_eq_ok h
  obtain ⟨⟨opening, ts₂⟩, hopening, h⟩ := exists_of_bind_eq_ok h
  obtain ⟨⟨target, ts₃⟩, htarget, h⟩ := exists_of_bind_eq_ok h
  dsimp only at h
  split at h
  · cases h
  next hvariable =>
  obtain ⟨⟨comma, ts₄⟩, hcomma, h⟩ := exists_of_bind_eq_ok h
  obtain ⟨⟨clause, ts₅⟩, hclause, h⟩ := exists_of_bind_eq_ok h
  obtain ⟨⟨closing, ts₆⟩, hclosing, h⟩ := exists_of_bind_eq_ok h
  obtain ⟨rfl, rfl⟩ := Prod.mk.inj (Except.ok.inj h)
  obtain ⟨hts, hkind⟩ := of_expectKind hsynonym
  obtain ⟨hts₁, hopening⟩ := of_expectKind hopening
  obtain ⟨us, hts₂, hreference⟩ := isSound_readReference hnodup htarget
  obtain ⟨hts₃, hcomma⟩ := of_expectKind hcomma
  obtain ⟨vs, shape, text, hts₄, hend, rfl⟩ := of_readPatternEnd hclause
  obtain ⟨hts₅, hclosing⟩ := of_expectKind hclosing
  dsimp only at hts₁ hts₂ hts₃ hts₄ hts₅
  refine ⟨synonym :: opening :: us ++ comma :: vs ++ [closing], ?_, ?_⟩
  · rw [hts, hts₁, hts₂, hts₃, hts₄, hts₅]
    simp
  · exact .intro hkind ((entityOf_eq_ok_iff hnodup).mp hentity) hopening
      (orAny_variableRef_iff.mpr ⟨hreference, by simpa using hvariable⟩) hcomma hend hclosing

theorem isComplete_readPattern (bound : Nat) :
    IsComplete (Pattern declared) anything bound (readPattern declared) := by
  intro ts c h _ rest _
  obtain @⟨t, opening, comma, closing, us, vs, kind, target, shape, text, ht, hdeclared, hopening,
    htarget, hcomma, hend, hclosing⟩ := h
  obtain ⟨hreference, hvariable⟩ := orAny_variableRef_iff.mp htarget
  have htarget' : readReference declared (us ++ comma :: (vs ++ closing :: rest)) =
      .ok (target, comma :: (vs ++ closing :: rest)) :=
    isComplete_readReference hnodup _ hreference (Nat.le_refl _) trivial
  have hend' : readPatternEnd kind t.text target (vs ++ closing :: rest) =
      .ok (⟨shape, ⟨.stmtSynonym, t.text⟩, target, text⟩, closing :: rest) :=
    readPatternEnd_eq hend (by simp [NoQuote, startsWith, hclosing])
  simp only [List.cons_append, List.append_assoc, List.nil_append, readPattern,
    expectKind_of_kind ht, ok_bind, (entityOf_eq_ok_iff hnodup).mpr hdeclared,
    expectKind_of_kind hopening, htarget', hvariable, expectKind_of_kind hcomma, hend',
    expectKind_of_kind hclosing]
  rfl

end Patterns

/-! ## Reading equations -/

theorem readOperand_of_readReference {declared : Declarations} {ts rest : List Token}
    {a : Argument} (h : readReference declared ts = .ok (a, rest))
    (hname : startsWith .name ts = false) (hliteral : a.role = .literal) :
    readOperand declared ts = .ok (a, rest) := by
  simp only [readOperand, hname, Bool.false_eq_true, if_false, h, ok_bind, hliteral, if_true]
  rfl

section Equations

variable {declared : Declarations} (hnodup : (declared.map Prod.fst).Nodup)

include hnodup

theorem isSound_readOperand : IsSoundOnLexical (Operand declared) (readOperand declared) := by
  intro ts a rest h hts
  unfold readOperand at h
  split at h
  · obtain ⟨⟨t, ts₁⟩, ht, h⟩ := exists_of_bind_eq_ok h
    obtain ⟨kind, hentity, h⟩ := exists_of_bind_eq_ok h
    obtain ⟨hts₁, hkind⟩ := of_expectKind ht
    dsimp only at h
    split at h
    · next hdot =>
      obtain ⟨⟨attr, ts₂⟩, hattr, h⟩ := exists_of_bind_eq_ok h
      obtain ⟨rfl, rfl⟩ := Prod.mk.inj (Except.ok.inj h)
      obtain ⟨used, hused, href⟩ := attributeRef_of_readAttribute hnodup hkind hentity hdot hattr
        (fun u hu => hts u (hts₁ ▸ List.mem_cons_of_mem t hu))
      exact ⟨used, hts₁.trans hused, .attr href⟩
    · split at h
      · next hline =>
        obtain ⟨rfl, rfl⟩ := Prod.mk.inj (Except.ok.inj h)
        have hdeclared := (entityOf_eq_ok_iff hnodup).mp hentity
        exact ⟨[t], hts₁, .line (.intro hkind hdeclared (List.mem_singleton.mpr hline))⟩
      · cases h
  · obtain ⟨⟨argument, ts₁⟩, hargument, h⟩ := exists_of_bind_eq_ok h
    obtain ⟨used, hts₁, hused⟩ := isSound_readReference hnodup hargument
    dsimp only at h
    split at h
    · next hliteral =>
      obtain ⟨rfl, rfl⟩ := Prod.mk.inj (Except.ok.inj h)
      refine ⟨used, hts₁, ?_⟩
      cases hused with
      | wildcard => cases hliteral
      | number h => exact .number h
      | name h => exact .name h
      | @synonym t kind =>
        cases kind <;> cases hliteral
    · cases h

theorem isComplete_readOperand (bound : Nat) :
    IsComplete (Operand declared) NoDot bound (readOperand declared) := by
  intro ts a h _ rest hrest
  cases h with
  | name h =>
    have hread : readReference declared (ts ++ rest) = .ok (a, rest) :=
      isComplete_readReference hnodup _ (.name h) (Nat.le_refl _) trivial
    obtain ⟨hopening, -, -⟩ := h
    exact readOperand_of_readReference hread (by simp [startsWith, hopening]) rfl
  | number h =>
    have hread : readReference declared (ts ++ rest) = .ok (a, rest) :=
      isComplete_readReference hnodup _ (.number h) (Nat.le_refl _) trivial
    obtain ⟨ht⟩ := h
    exact readOperand_of_readReference hread (by simp [startsWith, ht]) rfl
  | attr h =>
    obtain @⟨t, dot, ts, kind, name, attr, ht, hdeclared, hdot, hname, hattr⟩ := h
    have hstarts : startsWith .name (t :: dot :: (ts ++ rest)) = true := decide_eq_true ht
    have hstarts' : startsWith .dot (dot :: (ts ++ rest)) = true := decide_eq_true hdot
    simp only [List.cons_append, readOperand, hstarts, if_true, expectKind_of_kind ht, ok_bind,
      (entityOf_eq_ok_iff hnodup).mpr hdeclared, hstarts', List.tail_cons,
      readAttribute_eq hname hattr]
    rfl
  | line h =>
    obtain @⟨t, kind, ht, hdeclared, hkind⟩ := h
    have hstarts : startsWith .name (t :: rest) = true := decide_eq_true ht
    have hdot : startsWith .dot rest = false := hrest
    simp only [List.singleton_append, readOperand, hstarts, if_true, expectKind_of_kind ht,
      ok_bind, (entityOf_eq_ok_iff hnodup).mpr hdeclared, hdot, Bool.false_eq_true, if_false,
      List.mem_singleton.mp hkind]
    rfl

theorem isSound_readEquation : IsSoundOnLexical (Equation declared) (readEquation declared) := by
  intro ts c rest h hts
  obtain ⟨⟨left, ts₁⟩, hleft, h⟩ := exists_of_bind_eq_ok h
  obtain ⟨⟨sign, ts₂⟩, hsign, h⟩ := exists_of_bind_eq_ok h
  obtain ⟨⟨right, ts₃⟩, hright, h⟩ := exists_of_bind_eq_ok h
  obtain ⟨rfl, rfl⟩ := Prod.mk.inj (Except.ok.inj h)
  obtain ⟨used, hts₁, hused⟩ := isSound_readOperand hnodup hleft hts
  obtain ⟨hts₂, hkind⟩ := of_expectKind hsign
  have hts₂' : ts = (used ++ [sign]) ++ ts₂ := by simp [hts₁, hts₂]
  obtain ⟨used', hts₃, hused'⟩ :=
    isSound_readOperand hnodup hright (isLexical_of_append hts₂' hts)
  exact ⟨used ++ sign :: used', by simp [hts₂', hts₃], .intro hused hkind hused'⟩

theorem isComplete_readEquation (bound : Nat) :
    IsComplete (Equation declared) NoDot bound (readEquation declared) := by
  intro ts c h _ rest hrest
  obtain @⟨ts, us, sign, a, b, hleft, hsign, hright⟩ := h
  have hdot : NoDot (sign :: (us ++ rest)) := by simp [NoDot, startsWith, hsign]
  have hleft' := isComplete_readOperand hnodup _ hleft (Nat.le_refl _) hdot
  have hright' := isComplete_readOperand hnodup _ hright (Nat.le_refl _) hrest
  simp only [List.append_assoc, List.cons_append, readEquation, hleft', ok_bind,
    expectKind_of_kind hsign, hright']
  rfl

end Equations

/-! ## Reading clauses -/

section Conjunctions

variable {derived : List Token → Clause → Prop} {clause : QueryReader Clause}

theorem isSound_readConjunction (hclause : IsSoundOnLexical derived clause) (bound : Nat) :
    IsSoundOnLexical (Separated IsAnd derived) (readConjunction clause bound) := by
  induction bound with
  | zero =>
    intro ts cs rest h hts
    obtain ⟨⟨first, ts₁⟩, hfirst, h⟩ := exists_of_bind_eq_ok h
    obtain ⟨rfl, rfl⟩ := Prod.mk.inj (Except.ok.inj h)
    obtain ⟨used, hts₁, hused⟩ := hclause hfirst hts
    exact ⟨used, hts₁, .one hused⟩
  | succ bound ih =>
    intro ts cs rest h hts
    rw [readConjunction] at h
    obtain ⟨⟨first, ts₁⟩, hfirst, h⟩ := exists_of_bind_eq_ok h
    obtain ⟨used, hts₁, hused⟩ := hclause hfirst hts
    dsimp only at h
    split at h
    · next hand =>
      obtain ⟨⟨others, ts₂⟩, hothers, h⟩ := exists_of_bind_eq_ok h
      obtain ⟨rfl, rfl⟩ := Prod.mk.inj (Except.ok.inj h)
      obtain ⟨word, hts₂, hword⟩ := exists_of_startsWithWord hand
      obtain ⟨more, htail, hmore⟩ := ih hothers (isLexical_tail (isLexical_of_append hts₁ hts))
      refine ⟨used ++ word :: more, ?_, .more hused hword hmore⟩
      rw [hts₁, hts₂, htail]
      simp
    · obtain ⟨rfl, rfl⟩ := Prod.mk.inj (Except.ok.inj h)
      exact ⟨used, hts₁, .one hused⟩

/-- What comes after clauses of a sort. -/
def EndsClauses (ts : List Token) : Prop :=
  NoDot ts ∧ startsWithWord "and" ts = false

theorem isComplete_noDot (h : ∀ bound, IsComplete derived anything bound clause) (bound : Nat) :
    IsComplete derived NoDot bound clause :=
  fun _ _ hc hlength _ _ => h bound hc hlength trivial

theorem isComplete_readConjunction (hclause : ∀ bound, IsComplete derived NoDot bound clause)
    (bound : Nat) :
    IsComplete (Separated IsAnd derived) EndsClauses bound (readConjunction clause bound) := by
  intro ts cs h hlength rest hrest
  induction h generalizing bound with
  | @one ts c hc =>
    have hread := hclause _ hc (Nat.le_refl _) hrest.1
    cases bound with
    | zero => rw [readConjunction, hread]; rfl
    | succ bound =>
      rw [readConjunction, hread]
      simp only [ok_bind, hrest.2]
      rfl
  | @more ts us word c cs hc hword hcs ih =>
    simp only [List.length_append, List.length_cons] at hlength
    obtain ⟨bound, rfl⟩ : ∃ b, bound = b + 1 := ⟨bound - 1, by omega⟩
    have hdot : NoDot (word :: (us ++ rest)) := by
      simp [NoDot, startsWith, (isWord_iff.mp hword).1]
    have hread := hclause _ hc (Nat.le_refl _) hdot
    have hand : startsWithWord "and" (word :: (us ++ rest)) = true := hword
    have hothers := ih bound (by omega)
    rw [List.append_assoc, List.cons_append, readConjunction, hread]
    simp only [ok_bind, hand, if_true, List.tail_cons, hothers]
    rfl

end Conjunctions

section Whole

variable {declared : Declarations} (hnodup : (declared.map Prod.fst).Nodup)

theorem endsClauses_of_repeated {ts : List Token} {css : List (List Clause)}
    (h : Repeated (Clauses declared) ts css) : EndsClauses ts := by
  have hword : ∀ {t : Token} {ts : List Token} {word : String}, word ≠ "and" →
      t.isWord word = true → EndsClauses (t :: ts) := by
    intro t ts word hne ht
    obtain ⟨hkind, rfl⟩ := isWord_iff.mp ht
    simp [EndsClauses, NoDot, startsWith, startsWithWord, Token.isWord, hkind, hne]
  cases h with
  | nil => exact ⟨rfl, rfl⟩
  | cons hclauses =>
    rcases hclauses with ⟨hsuch, -, -⟩ | ⟨hpattern, -⟩ | ⟨hwith, -⟩
    · exact hword (by decide) hsuch
    · exact hword (by decide) hpattern
    · exact hword (by decide) hwith

/-- Whatever sort of clauses comes first, the rest is read in the same way. -/
theorem exists_of_readConjunction {derived : List Token → Clause → Prop}
    {clause : QueryReader Clause} (hclause : IsSoundOnLexical derived clause) {bound : Nat}
    {ts : List Token} {cs : List Clause} (hts : ∀ t ∈ ts, t.IsLexical) (hbound : ts.length ≤ bound)
    (hclauses : ∀ {rest : List Token} {others : List Clause},
      readClauses declared bound rest = .ok others → rest.length ≤ bound →
        (∀ t ∈ rest, t.IsLexical) →
          ∃ css, Repeated (Clauses declared) rest css ∧ others = css.flatten)
    (h : (readConjunction clause bound ts >>= fun read =>
      readClauses declared bound read.2 >>= fun others => .ok (read.1 ++ others)) = .ok cs) :
    ∃ used rest first css, ts = used ++ rest ∧ Separated IsAnd derived used first ∧
      Repeated (Clauses declared) rest css ∧ cs = first ++ css.flatten := by
  obtain ⟨⟨first, rest⟩, hfirst, h⟩ := exists_of_bind_eq_ok h
  obtain ⟨others, hothers, h⟩ := exists_of_bind_eq_ok h
  obtain rfl := Except.ok.inj h
  obtain ⟨used, heq, hused⟩ := isSound_readConjunction hclause bound hfirst hts
  have hrest : rest.length ≤ bound := by
    rw [heq, List.length_append] at hbound
    omega
  obtain ⟨css, hcss, rfl⟩ := hclauses hothers hrest (isLexical_of_append heq hts)
  exact ⟨used, rest, first, css, heq, hused, hcss, rfl⟩

include hnodup

theorem of_readClauses {bound : Nat} {ts : List Token} {cs : List Clause}
    (h : readClauses declared bound ts = .ok cs) (hbound : ts.length ≤ bound)
    (hts : ∀ t ∈ ts, t.IsLexical) :
    ∃ css, Repeated (Clauses declared) ts css ∧ cs = css.flatten := by
  induction bound generalizing ts cs with
  | zero =>
    obtain rfl := List.eq_nil_of_length_eq_zero (Nat.le_zero.mp hbound)
    obtain rfl := Except.ok.inj h
    exact ⟨[], .nil, rfl⟩
  | succ bound ih =>
    cases ts with
    | nil =>
      obtain rfl := Except.ok.inj h
      exact ⟨[], .nil, rfl⟩
    | cons t ts =>
      have hts₁ := isLexical_tail hts
      rw [List.length_cons, Nat.succ_le_succ_iff] at hbound
      rw [readClauses] at h
      split at h
      · next hsuch =>
        obtain ⟨⟨_, ts₂⟩, hthat, h⟩ := exists_of_bind_eq_ok h
        obtain ⟨that, hts₂, hthat⟩ := of_expectWord hthat
        have hlength : ts₂.length ≤ bound := by
          rw [hts₂, List.length_cons] at hbound
          omega
        have hlexical : ∀ t ∈ ts₂, t.IsLexical := by
          rw [hts₂] at hts₁
          exact isLexical_tail hts₁
        obtain ⟨used, rest, first, css, hused, hfirst, hcss, hcs⟩ := exists_of_readConjunction
          (isSoundOnLexical_of_isSound (isSound_readRelation hnodup)) hlexical hlength ih h
        rw [hts₂, hused]
        exact ⟨first :: css, .cons (.relations hsuch hthat hfirst) hcss, hcs⟩
      · split at h
        · next hpattern =>
          obtain ⟨used, rest, first, css, rfl, hused, hcss, rfl⟩ := exists_of_readConjunction
            (isSoundOnLexical_of_isSound (isSound_readPattern hnodup)) hts₁ hbound ih h
          exact ⟨first :: css, .cons (.patterns hpattern hused) hcss, rfl⟩
        · split at h
          · next hwith =>
            obtain ⟨used, rest, first, css, rfl, hused, hcss, rfl⟩ := exists_of_readConjunction
              (isSound_readEquation hnodup) hts₁ hbound ih h
            exact ⟨first :: css, .cons (.equations hwith hused) hcss, rfl⟩
          · cases h

theorem readClauses_eq {ts : List Token} {css : List (List Clause)}
    (h : Repeated (Clauses declared) ts css) {bound : Nat} (hbound : ts.length ≤ bound) :
    readClauses declared bound ts = .ok css.flatten := by
  induction h generalizing bound with
  | nil =>
    cases bound <;> rfl
  | @cons ts us cs css hcs hcss ih =>
    have hend : EndsClauses us := endsClauses_of_repeated hcss
    rw [List.length_append] at hbound
    cases hcs with
    | @relations such that ts _ hsuch hthat hclauses =>
      simp only [List.length_cons] at hbound
      obtain ⟨bound, rfl⟩ : ∃ b, bound = b + 1 := ⟨bound - 1, by omega⟩
      have hread : readConjunction (readRelation declared) bound (ts ++ us) = .ok (cs, us) :=
        isComplete_readConjunction (isComplete_noDot (isComplete_readRelation hnodup)) bound
          hclauses (by omega) hend
      have hrest := @ih bound (by omega)
      rw [List.cons_append, readClauses]
      simp only [hsuch, if_true, List.cons_append, expectWord_of_isWord hthat, ok_bind, hread,
        hrest]
      rfl
    | @patterns word ts _ hword hclauses =>
      simp only [List.length_cons] at hbound
      obtain ⟨bound, rfl⟩ : ∃ b, bound = b + 1 := ⟨bound - 1, by omega⟩
      have hread : readConjunction (readPattern declared) bound (ts ++ us) = .ok (cs, us) :=
        isComplete_readConjunction (isComplete_noDot (isComplete_readPattern hnodup)) bound
          hclauses (by omega) hend
      have hrest := @ih bound (by omega)
      have hsuch : word.isWord "such" = false := by
        simp [Token.isWord, (isWord_iff.mp hword).2]
      rw [List.cons_append, readClauses]
      simp only [hsuch, Bool.false_eq_true, if_false, hword, if_true, ok_bind, hread, hrest]
      rfl
    | @equations word ts _ hword hclauses =>
      simp only [List.length_cons] at hbound
      obtain ⟨bound, rfl⟩ : ∃ b, bound = b + 1 := ⟨bound - 1, by omega⟩
      have hread : readConjunction (readEquation declared) bound (ts ++ us) = .ok (cs, us) :=
        isComplete_readConjunction (isComplete_readEquation hnodup) bound hclauses (by omega) hend
      have hrest := @ih bound (by omega)
      have hsuch : word.isWord "such" = false := by
        simp [Token.isWord, (isWord_iff.mp hword).2]
      have hpattern : word.isWord "pattern" = false := by
        simp [Token.isWord, (isWord_iff.mp hword).2]
      rw [List.cons_append, readClauses]
      simp only [hsuch, hpattern, Bool.false_eq_true, if_false, hword, if_true, ok_bind, hread,
        hrest]
      rfl

end Whole

theorem selectClause_of_parseQuery {ts : List Token} {q : Query} (h : parseQuery ts = .ok q)
    (hts : ∀ t ∈ ts, t.IsLexical) : SelectClause ts q := by
  obtain ⟨⟨declared, ts₁⟩, hdeclared, h⟩ := exists_of_bind_eq_ok h
  obtain ⟨⟨_, ts₂⟩, hselect, h⟩ := exists_of_bind_eq_ok h
  obtain ⟨⟨elements, ts₃⟩, helements, h⟩ := exists_of_bind_eq_ok h
  obtain ⟨clauses, hclauses, h⟩ := exists_of_bind_eq_ok h
  obtain rfl := Except.ok.inj h
  obtain ⟨used, ds, hused, hds, rfl, hnodup⟩ :=
    of_readDeclarations hdeclared List.nodup_nil hts
  obtain ⟨word, hts₁, hword⟩ := of_expectWord hselect
  have hts₂ : ts = (used ++ [word]) ++ ts₂ := by simp [hused, hts₁]
  obtain ⟨us, hus, hresult⟩ :=
    isSound_readResult hnodup _ helements (isLexical_of_append hts₂ hts)
  have hts₃ : ts = (used ++ word :: us) ++ ts₃ := by simp [hts₂, hus]
  have hlength : ts₃.length ≤ ts.length := by
    rw [hts₃, List.length_append]
    omega
  obtain ⟨css, hcss, rfl⟩ :=
    of_readClauses hnodup hclauses hlength (isLexical_of_append hts₃ hts)
  rw [hts₃]
  exact .intro hds hnodup hword hresult hcss

theorem parseQuery_eq {ts : List Token} {q : Query} (h : SelectClause ts q) :
    parseQuery ts = .ok q := by
  obtain @⟨ts, us, vs, word, ds, elements, clauses, hds, hnodup, hword, hresult, hclauses⟩ := h
  rw [List.append_assoc, List.cons_append, parseQuery]
  have hlength : (ts ++ word :: (us ++ vs)).length = ts.length + us.length + vs.length + 1 := by
    simp only [List.length_append, List.length_cons]
    omega
  generalize (ts ++ word :: (us ++ vs)).length = bound at hlength ⊢
  have hdeclared : readDeclarations bound [] (ts ++ word :: (us ++ vs)) =
      .ok (ds.flatten, word :: (us ++ vs)) :=
    readDeclarations_eq hds hword (by omega) hnodup
  have helements : readResult ds.flatten bound (us ++ vs) = .ok (elements, vs) :=
    isComplete_readResult hnodup bound hresult (by omega) (endsClauses_of_repeated hclauses).1
  have hclauses' : readClauses ds.flatten bound vs = .ok clauses.flatten :=
    readClauses_eq hnodup hclauses (by omega)
  simp only [hdeclared, ok_bind, expectWord_of_isWord hword, helements, hclauses']
  rfl

/-- Every query selects something. -/
theorem Result.ne_nil {declared : Declarations} {ts : List Token} {es : List Element}
    (h : Result declared ts es) : es ≠ [] := by
  cases h with
  | boolean | single => simp
  | tuple _ helements => cases helements <;> simp

/-! ## How many clauses there are -/

theorem length_le_of_separated {α : Type} {separator : Token → Prop} {item : List Token → α → Prop}
    {ts : List Token} {as : List α} (h : Separated separator item ts as) :
    as.length ≤ ts.length + 1 := by
  induction h with
  | one => simp
  | more _ _ _ ih =>
    simp only [List.length_cons, List.length_append]
    omega

theorem length_le_of_clauses {declared : Declarations} {ts : List Token} {cs : List Clause}
    (h : Clauses declared ts cs) : cs.length ≤ ts.length := by
  cases h with
  | relations _ _ h => exact Nat.le_succ_of_le (length_le_of_separated h)
  | patterns _ h => exact length_le_of_separated h
  | equations _ h => exact length_le_of_separated h

theorem length_flatten_le_of_repeated {declared : Declarations} {ts : List Token}
    {css : List (List Clause)} (h : Repeated (Clauses declared) ts css) :
    css.flatten.length ≤ ts.length := by
  induction h with
  | nil => simp
  | cons hcs _ ih =>
    rw [List.flatten_cons, List.length_append, List.length_append]
    exact Nat.add_le_add (length_le_of_clauses hcs) ih

end QueryGrammar

/-- A text is the query that the grammar derives from its tokens. -/
theorem ofText_eq_ok_iff {text : String} {q : Query} : Query.ofText text = .ok q ↔
    ∃ ts, tokenize text = .ok ts ∧ QueryGrammar.SelectClause ts q := by
  constructor
  · intro h
    obtain ⟨ts, hts, hparse⟩ := exists_of_bind_eq_ok h
    have hts := eq_ok_of_mapError hts
    exact ⟨ts, hts, QueryGrammar.selectClause_of_parseQuery hparse (isLexical_of_tokenize hts)⟩
  · rintro ⟨ts, hts, hselect⟩
    rw [Query.ofText, hts]
    exact QueryGrammar.parseQuery_eq hselect

/-- A query has no more clauses than its text has characters. -/
theorem length_clauses_le_of_ofText {text : String} {q : Query} (h : Query.ofText text = .ok q) :
    q.clauses.length ≤ text.length := by
  obtain ⟨ts, hts, hselect⟩ := ofText_eq_ok_iff.mp h
  have hlength := length_le_of_tokenize hts
  obtain ⟨-, -, -, -, hclauses⟩ := hselect
  refine Nat.le_trans (QueryGrammar.length_flatten_le_of_repeated hclauses)
    (Nat.le_trans ?_ hlength)
  rw [List.length_append]
  exact Nat.le_add_left _ _

/-- The texts that are read as queries are those whose tokens the grammar derives, and what is read
is the query of the derivation. -/
theorem ofTextD_eq_iff_selectClause (text : String) (q : Query) :
    Query.ofTextD text = q ∧ q ≠ {} ↔
      ∃ ts, tokenize text = .ok ts ∧ QueryGrammar.SelectClause ts q := by
  rw [← ofText_eq_ok_iff]
  constructor
  · rintro ⟨hq, hne⟩
    unfold Query.ofTextD at hq
    cases hread : Query.ofText text with
    | error e =>
      rw [hread] at hq
      exact absurd hq.symm hne
    | ok q' =>
      rw [hread] at hq
      exact congrArg Except.ok hq
  · intro hread
    refine ⟨by rw [Query.ofTextD, hread]; rfl, ?_⟩
    obtain ⟨ts, -, -, -, -, hresult, -⟩ := ofText_eq_ok_iff.mp hread
    exact fun heq => hresult.ne_nil (congrArg Query.elements heq)

/-- Words of the grammar can be synonyms. -/
example : (Query.ofTextD
    "stmt Select, such; assign and; Select Select such that Follows(Select, such) and Next(and, 3)")
      = ⟨[("Select", .stmt), ("such", .stmt), ("and", .assign)], [⟨.plain, "Select"⟩],
        [⟨.follows, ⟨.stmtSynonym, "Select"⟩, ⟨.stmtSynonym, "such"⟩, ""⟩,
          ⟨.next, ⟨.stmtSynonym, "and"⟩, ⟨.number, "3"⟩, ""⟩]⟩ := by
  decide +kernel

end ProgramQuery
