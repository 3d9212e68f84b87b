import ProgramQuery.Proofs.QueryTyping
import ProgramQuery.Proofs.Satisfaction
import ProgramQuery.Proofs.Views

/-!
# What applying a clause does

There is a way to apply a clause for every sort of clause and of arguments. All of them come to one
of four things: a clause about no synonym is checked, one about a single synonym narrows it to the
values under which the clause holds, one about two synonyms constrains them to the pairs under which
it holds, and a clause that cannot hold is refused.

## Main definitions

- `Candidates.IsWithin`: all candidates are entities of the declared kinds.
- `Clause.Acts`: what can become of candidates when a clause is applied.

## Main statements

- `exists_attribute?`: the entities of a synonym have the attributes that a query may ask for.
- `acts_apply`: applying a clause of a query that has been read does one of these things.
-/

namespace ProgramQuery

/-! ## Entities and their attributes -/

section Entities

variable {facts : Facts} (hf : facts.IsWellFormed)

include hf

theorem mem_numberTexts_of_kindOf? {kind : NodeKind} {value : String}
    (h : value ∈ numberTexts (facts.statementsOfKind kind)) :
    ∃ s, value = toString s ∧ s < numeralBound ∧ facts.kindOf? s = some kind := by
  obtain ⟨s, hs, rfl⟩ := mem_numberTexts.mp h
  have hkind := of_decide_eq_true (List.mem_filter.mp hs).2
  exact ⟨s, rfl, (Facts.isStatement_of_kindOf? hkind).lt hf, hkind⟩

theorem exists_of_isStatement {kind : EntityKind} (hkind : kind.isStatement = true)
    {value : String} (h : value ∈ facts.entities kind) :
    ∃ s, value = toString s ∧ s < numeralBound := by
  have hofKind : ∀ kind, value ∈ numberTexts (facts.statementsOfKind kind) →
      ∃ s, value = toString s ∧ s < numeralBound := by
    intro kind h
    obtain ⟨s, rfl, hlt, -⟩ := mem_numberTexts_of_kindOf? hf h
    exact ⟨s, rfl, hlt⟩
  have hall : value ∈ numberTexts facts.statements →
      ∃ s, value = toString s ∧ s < numeralBound := by
    intro h
    obtain ⟨s, hs, rfl⟩ := mem_numberTexts.mp h
    exact ⟨s, rfl, Facts.IsStatement.lt hf hs⟩
  cases kind with
  | variableName | constant | procedure => cases hkind
  | stmt | progLine => exact hall h
  | read | print | call | whileLoop | ifElse | assign => exact hofKind _ h

theorem isValue_of_mem_entities {kind : EntityKind} {value : String}
    (h : value ∈ facts.entities kind) : IsValue value := by
  cases kind with
  | variableName => exact (hf.variableNames value h).isValue
  | constant => exact (hf.constants value h).isValue
  | procedure => exact (hf.procedures value h).isValue
  | _ =>
    obtain ⟨s, rfl, hlt⟩ := exists_of_isStatement hf rfl h
    exact isValue_toString hlt

theorem isValue_of_mem_initialDomain {declared : Declarations} {x value : String}
    (h : value ∈ initialDomain facts declared x) : IsValue value := by
  unfold initialDomain at h
  split at h
  · cases h
  · exact isValue_of_mem_entities hf h

theorem exists_operandOf? {kind : NodeKind} (hkind : kind ∈ [NodeKind.call, .read, .print])
    {value : String} (h : value ∈ numberTexts (facts.statementsOfKind kind)) :
    ∃ name, operandOf? facts kind value = some name ∧ IsName name := by
  obtain ⟨s, rfl, hlt, hs⟩ := mem_numberTexts_of_kindOf? hf h
  obtain ⟨name, hname⟩ := hf.exists_operand s kind hkind hs
  have hmem : name ∈ facts.operands.image s := FinRel.mem_image.mpr hname
  rw [operandOf?, numeral?_toString hlt, Option.bind_some, Facts.operandAt?, if_pos hs]
  obtain ⟨first, rest, himage⟩ := List.exists_cons_of_ne_nil (List.ne_nil_of_mem hmem)
  refine ⟨first, by rw [himage]; rfl, ?_⟩
  have hfirst : first ∈ facts.operands.image s := himage ▸ List.mem_cons_self
  exact (hf.operands _ _ (FinRel.mem_image.mp hfirst)).2

/-- An entity has every attribute that entities of its kind have. It is a name exactly if an
equation takes it for one. -/
theorem exists_attribute? {kind : EntityKind} {sort : ArgumentKind} {value : String}
    (hfits : kind.fits sort = true) (h : value ∈ facts.entities kind) :
    ∃ name, sort.attribute? facts value = some name ∧
      ∀ b, sort.isNameValued? = some b → (b = true ↔ IsName name) := by
  have hname : ∀ name, IsName name → ∀ b, some true = some b → (b = true ↔ IsName name) := by
    rintro name hname b hb
    obtain rfl := Option.some.inj hb
    exact ⟨fun _ => hname, fun _ => rfl⟩
  have hnumber : ∀ name, ¬IsName name → ∀ b, some false = some b → (b = true ↔ IsName name) := by
    rintro name hname b hb
    obtain rfl := Option.some.inj hb
    exact ⟨fun h => absurd h (by decide), fun h => absurd h hname⟩
  cases sort with
  | stmtSynonym =>
    obtain ⟨s, rfl, hlt⟩ := exists_of_isStatement hf hfits h
    refine ⟨toString s, rfl, hnumber _ fun hs => ?_⟩
    have hnumeral := numeral?_toString hlt
    rw [numeral?_of_isName hs] at hnumeral
    cases hnumeral
  | varSynonym =>
    obtain rfl : kind = .variableName := by cases kind <;> first | rfl | cases hfits
    exact ⟨value, rfl, hname _ (hf.variableNames value h)⟩
  | procSynonym =>
    obtain rfl : kind = .procedure := by cases kind <;> first | rfl | cases hfits
    exact ⟨value, rfl, hname _ (hf.procedures value h)⟩
  | constSynonym =>
    obtain rfl : kind = .constant := by cases kind <;> first | rfl | cases hfits
    exact ⟨value, rfl, hnumber _ fun hs => not_isNumber_of_isName hs (hf.constants value h)⟩
  | readVariable =>
    obtain rfl : kind = .read := by cases kind <;> first | rfl | cases hfits
    obtain ⟨name, heq, hisName⟩ := exists_operandOf? hf (by simp) h
    exact ⟨name, heq, hname _ hisName⟩
  | printVariable =>
    obtain rfl : kind = .print := by cases kind <;> first | rfl | cases hfits
    obtain ⟨name, heq, hisName⟩ := exists_operandOf? hf (by simp) h
    exact ⟨name, heq, hname _ hisName⟩
  | calledProcedure =>
    obtain rfl : kind = .call := by cases kind <;> first | rfl | cases hfits
    obtain ⟨name, heq, hisName⟩ := exists_operandOf? hf (by simp) h
    exact ⟨name, heq, hname _ hisName⟩
  | name | number | wildcard | invalid => cases kind <;> cases hfits

end Entities

/-! ## Arguments under an assignment -/

namespace Argument

variable {a : Argument} {v : String → String} {value : String} {declared : Declarations}

theorem denotes_of_synonym (h : a.role = .synonym) : a.Denotes v value ↔ value = v a.value := by
  simp [Denotes, h]

theorem denotes_of_literal (h : a.role = .literal) : a.Denotes v value ↔ value = a.value := by
  simp [Denotes, h]

theorem denotes_of_wildcard (h : a.role = .wildcard) : a.Denotes v value ↔ True := by
  simp [Denotes, h]

/-- An equation compares a value in quotes or a number as it is. -/
theorem attribute?_of_literal {facts : Facts} (h : a.role = .literal) :
    a.kind.attribute? facts a.value = some a.value := by
  unfold role at h
  cases hk : a.kind <;> rw [hk] at h <;> first | rfl | cases h

theorem IsTyped.role_cases (h : a.IsTyped declared) :
    a.role = .synonym ∨ a.role = .literal ∧ IsValue a.value ∨ a.role = .wildcard := by
  cases h with
  | synonym _ _ hfits => exact .inl (EntityKind.role_of_fits hfits)
  | name hname => exact .inr (.inl ⟨rfl, hname.isValue⟩)
  | number hnumber => exact .inr (.inl ⟨rfl, hnumber.isValue⟩)
  | wildcard => exact .inr (.inr rfl)

/-- What an argument that is no underscore stands for has the attribute that it asks for. -/
theorem IsTyped.exists_attribute? {facts : Facts} (hf : facts.IsWellFormed)
    (h : a.IsTyped declared) (hwildcard : a.role ≠ .wildcard)
    (hdomain : a.role = .synonym → v a.value ∈ initialDomain facts declared a.value)
    (hvalue : a.Denotes v value) : ∃ name b, a.kind.attribute? facts value = some name ∧
      a.kind.isNameValued? = some b ∧ (b = true ↔ IsName name) := by
  cases h with
  | @synonym kind sort x hdeclared hname hfits =>
    have hrole : (Argument.mk sort x).role = .synonym := EntityKind.role_of_fits hfits
    have hmem := hdomain hrole
    rw [initialDomain, hdeclared] at hmem
    rw [(denotes_of_synonym hrole).mp hvalue]
    obtain ⟨name, hattribute, hvalued⟩ := ProgramQuery.exists_attribute? hf hfits hmem
    have hsome : ∃ b, sort.isNameValued? = some b := by
      cases sort with
      | name | number | wildcard | invalid => cases hrole
      | _ => exact ⟨_, rfl⟩
    obtain ⟨b, hb⟩ := hsome
    exact ⟨name, b, hattribute, hb, hvalued b hb⟩
  | name hname =>
    obtain rfl := (denotes_of_literal rfl).mp hvalue
    exact ⟨value, true, rfl, rfl, ⟨fun _ => hname, fun _ => rfl⟩⟩
  | number hnumber =>
    obtain rfl := (denotes_of_literal rfl).mp hvalue
    refine ⟨value, false, rfl, rfl, ⟨fun h => absurd h (by decide), fun h => ?_⟩⟩
    exact absurd hnumber (not_isNumber_of_isName h)
  | wildcard => exact absurd rfl hwildcard

end Argument

/-! ## What applying a clause can do -/

/-- All candidates are entities of the kinds that the synonyms are declared for. -/
def Candidates.IsWithin (facts : Facts) (declared : Declarations) (s : Candidates) : Prop :=
  ∀ x, ∀ value ∈ s.domains.get x, value ∈ initialDomain facts declared x

/-- What can become of some candidates when a clause is applied, and they are settled in some
way. -/
inductive Clause.Acts (facts : Facts) (settle : Candidates → Option Candidates) (c : Clause)
    (s : Candidates) : Option Candidates → Prop where
  /-- A clause about no synonym holds. -/
  | ground (hnone : c.synonyms = []) (hholds : ∀ v, c.Holds facts v) :
      Acts facts settle c s (some s)
  /-- No candidates make the clause hold. -/
  | refused (hfails : ∀ v : String → String, (∀ x ∈ c.synonyms, v x ∈ s.domains.get x) →
      ¬c.Holds facts v) : Acts facts settle c s none
  /-- A synonym keeps the candidates that make the clause hold. -/
  | single {x : String} {allowed : List String} (hsynonyms : ∀ z, z ∈ c.synonyms ↔ z = x)
      (hallowed : ∀ v : String → String, v x ∈ s.domains.get x →
        (v x ∈ allowed ↔ c.Holds facts v)) : Acts facts settle c s (s.narrow x allowed settle)
  /-- Two synonyms keep the pairs of candidates that make the clause hold. -/
  | pair {x y : String} {pairs : List (String × String)} (hne : x ≠ y)
      (hsynonyms : ∀ z, z ∈ c.synonyms ↔ z = x ∨ z = y)
      (hpairs : ∀ v : String → String, v x ∈ s.domains.get x → v y ∈ s.domains.get y →
        ((v x, v y) ∈ pairs ↔ c.Holds facts v)) :
      Acts facts settle c s (s.constrain x y pairs settle)

namespace Clause

theorem mem_synonyms_of_left {c : Clause} (hl : c.left.role = .synonym)
    (hr : c.right.role ≠ .synonym) (z : String) : z ∈ c.synonyms ↔ z = c.left.value := by
  simp [mem_synonyms, hl, hr, eq_comm]

theorem mem_synonyms_of_right {c : Clause} (hl : c.left.role ≠ .synonym)
    (hr : c.right.role = .synonym) (z : String) : z ∈ c.synonyms ↔ z = c.right.value := by
  simp [mem_synonyms, hl, hr, eq_comm]

theorem mem_synonyms_of_both {c : Clause} (hl : c.left.role = .synonym)
    (hr : c.right.role = .synonym) (z : String) :
    z ∈ c.synonyms ↔ z = c.left.value ∨ z = c.right.value := by
  simp [mem_synonyms, hl, hr, eq_comm]

theorem synonyms_eq_nil {c : Clause} (hl : c.left.role ≠ .synonym)
    (hr : c.right.role ≠ .synonym) : c.synonyms = [] := by
  simp [synonyms, hl, hr]

variable {facts : Facts} {settle : Candidates → Option Candidates} {c : Clause} {s : Candidates}

theorem acts_check {holds : Bool} (hnone : c.synonyms = [])
    (hholds : ∀ v, holds = true ↔ c.Holds facts v) : c.Acts facts settle s (s.check holds) := by
  rw [Candidates.check]
  split
  · rename_i htrue
    exact .ground hnone fun v => (hholds v).mp htrue
  · rename_i hfalse
    exact .refused fun v _ hv => hfalse ((hholds v).mpr hv)

/-- Keeping the candidates that pass a test which says whether the clause holds. -/
theorem acts_retain {x : String} {test : String → Bool} (hsynonyms : ∀ z, z ∈ c.synonyms ↔ z = x)
    (htest : ∀ v : String → String, v x ∈ s.domains.get x →
      (test (v x) = true ↔ c.Holds facts v)) : c.Acts facts settle s (s.retain x test settle) := by
  refine .single hsynonyms fun v hv => ?_
  rw [List.mem_filter, ← htest v hv]
  exact and_iff_right hv

/-! ### Relations -/

section Relation

variable (hf : facts.IsWellFormed) {declared : Declarations} (ht : c.IsTyped declared)
  (hs : s.IsWithin facts declared) {connection : Connection}
  (hconnection : Connection.ofClause? facts c = some connection)

include hconnection in
theorem holds_iff_rightsOf {v : String → String} : c.Holds facts v ↔
    ∃ left right, c.left.Denotes v left ∧ c.right.Denotes v right ∧
      right ∈ connection.rightsOf facts left := by
  simp only [Holds, Relates, hconnection]

include ht hconnection in
/-- A relation that is asked about any left value has its pairs from one source. -/
theorem ne_accesses_of_wildcard (hl : c.left.role = .wildcard) (a : FinRel Nat String)
    (b : FinRel String String) : connection ≠ .accesses a b := by
  rintro rfl
  refine ht.left_ne_wildcard ?_ hl
  unfold Connection.ofClause? at hconnection
  split at hconnection <;> simp_all

include hf ht hs hconnection in
theorem acts_applyConnection :
    c.Acts facts settle s
      (Candidates.applyConnection facts connection c.left c.right s settle) := by
  have hc := Connection.isWellFormed_of_ofClause? hf hconnection
  have hholds := fun v => @holds_iff_rightsOf facts c connection hconnection v
  have hvalue : ∀ {x value}, value ∈ s.domains.get x → IsValue value :=
    fun h => isValue_of_mem_initialDomain hf (hs _ _ h)
  -- For values, what stands to the right is what the pairs say.
  have hrights : ∀ {left right}, IsValue left →
      (right ∈ connection.rightsOf facts left ↔ connection.Joins facts left right) := by
    intro left right hleft
    constructor
    · intro h
      obtain ⟨value, hjoins, heq⟩ := Connection.exists_joins_of_mem_rightsOf hf hc h
      exact heq hleft ▸ hjoins
    · exact Connection.mem_rightsOf_of_joins hf hc
  have hsome : ∀ {right}, (∃ left, right ∈ connection.rightsOf facts left) ↔
      ∃ left, connection.Joins facts left right := by
    intro right
    constructor
    · rintro ⟨left, h⟩
      obtain ⟨value, hjoins, -⟩ := Connection.exists_joins_of_mem_rightsOf hf hc h
      exact ⟨value, hjoins⟩
    · rintro ⟨left, h⟩
      exact ⟨left, Connection.mem_rightsOf_of_joins hf hc h⟩
  have hnonempty : ∀ values : List String, (!values.isEmpty) = true ↔ ∃ value, value ∈ values := by
    intro values
    cases values <;> simp
  unfold Candidates.applyConnection
  rcases ht.left.role_cases with hl | ⟨hl, hlv⟩ | hl <;>
    rcases ht.right.role_cases with hr | ⟨hr, hrv⟩ | hr <;> simp only [hl, hr]
  · -- two synonyms
    rw [Candidates.applyPair]
    split
    · rename_i heq
      refine acts_retain (fun z => ?_) fun v hv => ?_
      · rw [mem_synonyms_of_both hl hr, heq, or_self]
      · simp [hholds, Argument.denotes_of_synonym hl, Argument.denotes_of_synonym hr, heq]
    · rename_i hne
      refine .pair hne (mem_synonyms_of_both hl hr) fun v hv hw => ?_
      simp [hholds, Argument.denotes_of_synonym hl, Argument.denotes_of_synonym hr,
        keepBy_eq_filter, hv, hw]
  · refine .single (mem_synonyms_of_left hl (by simp [hr])) fun v hv => ?_
    simp [hholds, Argument.denotes_of_synonym hl, Argument.denotes_of_literal hr,
      Connection.mem_leftsOf hf hc hrv, hrights (hvalue hv)]
  · refine .single (mem_synonyms_of_left hl (by simp [hr])) fun v hv => ?_
    simp [hholds, Argument.denotes_of_synonym hl, Argument.denotes_of_wildcard hr,
      Connection.mem_lefts hf hc, hrights (hvalue hv)]
  · refine .single (mem_synonyms_of_right (by simp [hl]) hr) fun v hv => ?_
    simp [hholds, Argument.denotes_of_literal hl, Argument.denotes_of_synonym hr]
  · refine acts_check (synonyms_eq_nil (by simp [hl]) (by simp [hr])) fun v => ?_
    simp [hholds, Argument.denotes_of_literal hl, Argument.denotes_of_literal hr]
  · refine acts_check (synonyms_eq_nil (by simp [hl]) (by simp [hr])) fun v => ?_
    rw [hnonempty, hholds]
    simp [Argument.denotes_of_literal hl, Argument.denotes_of_wildcard hr]
  · refine .single (mem_synonyms_of_right (by simp [hl]) hr) fun v hv => ?_
    rw [Connection.mem_rights hf hc (ne_accesses_of_wildcard ht hconnection hl), ← hsome, hholds]
    simp [Argument.denotes_of_wildcard hl, Argument.denotes_of_synonym hr]
  · refine acts_check (synonyms_eq_nil (by simp [hl]) (by simp [hr])) fun v => ?_
    rw [hnonempty, exists_congr fun left => Connection.mem_leftsOf hf hc hrv, ← hsome, hholds]
    simp [Argument.denotes_of_wildcard hl, Argument.denotes_of_literal hr]
  · refine acts_check (synonyms_eq_nil (by simp [hl]) (by simp [hr])) fun v => ?_
    rw [hnonempty, hholds]
    simp only [Argument.denotes_of_wildcard hl, Argument.denotes_of_wildcard hr, true_and,
      Connection.mem_lefts hf hc]
    exact exists_comm.trans ((exists_congr fun right => hsome.symm).trans exists_comm)

end Relation

/-! ### Equations -/

section Equation

variable (hf : facts.IsWellFormed) {declared : Declarations} (ht : c.IsTyped declared)
  (hs : s.IsWithin facts declared) (hkind : c.kind = .equality)

include hkind in
theorem holds_iff_attribute? {v : String → String} : c.Holds facts v ↔
    ∃ left right, c.left.Denotes v left ∧ c.right.Denotes v right ∧
      ∃ name, c.left.kind.attribute? facts left = some name ∧
        c.right.kind.attribute? facts right = some name := by
  simp only [Holds, Relates, Connection.ofClause?, hkind]

include hs in
theorem mem_initialDomain_of_synonym {a : Argument} {v : String → String}
    (ha : a.role = .synonym → a.value ∈ c.synonyms)
    (hv : ∀ x ∈ c.synonyms, v x ∈ s.domains.get x) :
    a.role = .synonym → v a.value ∈ initialDomain facts declared a.value :=
  fun hrole => hs _ _ (hv _ (ha hrole))

include hf ht hs hkind in
/-- An equation between a name and a number never holds. -/
theorem not_holds_of_isNameValued? {v : String → String}
    (hv : ∀ x ∈ c.synonyms, v x ∈ s.domains.get x)
    (hsorts : ¬(c.left.kind.isNameValued?.isSome ∧
      c.left.kind.isNameValued? = c.right.kind.isNameValued?)) : ¬c.Holds facts v := by
  intro h
  obtain ⟨left, right, hleft, hright, name, hl, hr⟩ := (holds_iff_attribute? hkind).mp h
  obtain ⟨hlw, hrw⟩ := ht.ne_wildcard hkind
  obtain ⟨name', b, hl', hb, hname⟩ := ht.left.exists_attribute? hf hlw
    (mem_initialDomain_of_synonym hs (fun h => mem_synonyms.mpr (.inl ⟨h, rfl⟩)) hv) hleft
  obtain ⟨name'', b', hr', hb', hname'⟩ := ht.right.exists_attribute? hf hrw
    (mem_initialDomain_of_synonym hs (fun h => mem_synonyms.mpr (.inr ⟨h, rfl⟩)) hv) hright
  obtain rfl := Option.some.inj (hl'.symm.trans hl)
  obtain rfl := Option.some.inj (hr'.symm.trans hr)
  have hsame : b = b' := Bool.eq_iff_iff.mpr (hname.trans hname'.symm)
  exact hsorts ⟨by rw [hb]; rfl, by rw [hb, hb', hsame]⟩

include hkind in
theorem holds_iff_of_synonym_literal (hl : c.left.role = .synonym) (hr : c.right.role = .literal)
    {v : String → String} : c.Holds facts v ↔
      c.left.kind.attribute? facts (v c.left.value) = some c.right.value := by
  simp [holds_iff_attribute? hkind, Argument.denotes_of_synonym hl,
    Argument.denotes_of_literal hr, Argument.attribute?_of_literal hr]

include hkind in
theorem holds_iff_of_literal_synonym (hl : c.left.role = .literal) (hr : c.right.role = .synonym)
    {v : String → String} : c.Holds facts v ↔
      c.right.kind.attribute? facts (v c.right.value) = some c.left.value := by
  simp [holds_iff_attribute? hkind, Argument.denotes_of_literal hl,
    Argument.denotes_of_synonym hr, Argument.attribute?_of_literal hl]

include hkind in
theorem holds_iff_of_synonyms (hl : c.left.role = .synonym) (hr : c.right.role = .synonym)
    {v : String → String} : c.Holds facts v ↔
      ∃ name, c.left.kind.attribute? facts (v c.left.value) = some name ∧
        c.right.kind.attribute? facts (v c.right.value) = some name := by
  simp [holds_iff_attribute? hkind, Argument.denotes_of_synonym hl, Argument.denotes_of_synonym hr]

include hf ht hs hkind in
theorem acts_applyEqualPair (hl : c.left.role = .synonym) (hr : c.right.role = .synonym) :
    c.Acts facts settle s (Candidates.applyEqualPair facts c.left c.right s settle) := by
  rw [Candidates.applyEqualPair]
  split
  · rename_i heq
    refine acts_retain (fun z => by rw [mem_synonyms_of_both hl hr, ← heq, or_self]) fun v hv => ?_
    rw [decide_eq_true_iff, holds_iff_of_synonyms hkind hl hr, ← heq]
    -- The attribute exists, so equal attributes are not both missing.
    obtain ⟨name, -, hname, -⟩ := ht.left.exists_attribute? hf (by simp [hl])
      (fun _ => hs _ _ hv) ((Argument.denotes_of_synonym hl).mpr rfl)
    rw [hname]
    simp [eq_comm]
  · rename_i hne
    refine .pair hne (mem_synonyms_of_both hl hr) fun v hv hw => ?_
    rw [holds_iff_of_synonyms hkind hl hr, List.mem_flatMap]
    constructor
    · rintro ⟨a, -, hpair⟩
      split at hpair
      · cases hpair
      · rename_i name hname
        obtain ⟨b, hb, heq⟩ := List.mem_map.mp hpair
        obtain ⟨rfl, rfl⟩ := Prod.mk.inj heq
        obtain ⟨b', -, hb'⟩ := List.mem_filterMap.mp (mem_getD_groupPairs.mp hb)
        obtain ⟨name', hname', heq'⟩ := Option.map_eq_some_iff.mp hb'
        obtain ⟨rfl, rfl⟩ := Prod.mk.inj heq'
        exact ⟨name', hname, hname'⟩
    · rintro ⟨name, hname, hname'⟩
      refine ⟨v c.left.value, hv, ?_⟩
      rw [hname]
      refine List.mem_map.mpr ⟨v c.right.value, mem_getD_groupPairs.mpr ?_, rfl⟩
      exact List.mem_filterMap.mpr ⟨v c.right.value, hw, by rw [hname']; rfl⟩

include hf ht hs hkind in
theorem acts_applyEquality :
    c.Acts facts settle s (Candidates.applyEquality facts c.left c.right s settle) := by
  obtain ⟨hlw, hrw⟩ := ht.ne_wildcard hkind
  rw [Candidates.applyEquality]
  split
  · rcases ht.left.role_cases with hl | ⟨hl, -⟩ | hl <;>
      rcases ht.right.role_cases with hr | ⟨hr, -⟩ | hr <;>
      first | exact absurd hl hlw | exact absurd hr hrw | simp only [hl, hr]
    · exact acts_applyEqualPair hf ht hs hkind hl hr
    · refine acts_retain (mem_synonyms_of_left hl (by simp [hr])) fun v _ => ?_
      rw [decide_eq_true_iff, holds_iff_of_synonym_literal hkind hl hr]
    · refine acts_retain (mem_synonyms_of_right (by simp [hl]) hr) fun v _ => ?_
      rw [decide_eq_true_iff, holds_iff_of_literal_synonym hkind hl hr]
    · refine acts_check (synonyms_eq_nil (by simp [hl]) (by simp [hr])) fun v => ?_
      simp [holds_iff_attribute? hkind, Argument.denotes_of_literal hl,
        Argument.denotes_of_literal hr, Argument.attribute?_of_literal hl,
        Argument.attribute?_of_literal hr, eq_comm]
  · rename_i hsorts
    exact .refused fun v hv => not_holds_of_isNameValued? hf ht hs hkind hv hsorts

end Equation

/-! ### All clauses -/

/-- A pattern with a text that is no expression matches nothing. -/
theorem not_holds_of_asksForNoExpression {declared : Declarations} (ht : c.IsTyped declared)
    (hasks : Candidates.asksForNoExpression c = true) (v : String → String) :
    ¬c.Holds facts v := by
  rw [Candidates.asksForNoExpression, Bool.and_eq_true, Bool.or_eq_true, decide_eq_true_iff,
    decide_eq_true_iff] at hasks
  obtain ⟨ch, hch, hblank⟩ := ht.not_blank hasks.1
  have hnone : ∀ target asPart, facts.assignsMatching target c.pattern asPart = [] := by
    intro target asPart
    rw [Facts.assignsMatching, if_neg (trimmed_ne_empty hch hblank)]
    split
    · rfl
    · rename_i text hok
      have hfalse : false = true := by rw [hok] at hasks; exact hasks.2
      cases hfalse
  have hconnection : ∃ asPart,
      Connection.ofClause? facts c = some (.assignments c.pattern asPart) :=
    hasks.1.elim (fun h => ⟨false, by simp only [Connection.ofClause?, h]⟩)
      (fun h => ⟨true, by simp only [Connection.ofClause?, h]⟩)
  obtain ⟨asPart, hconnection⟩ := hconnection
  intro h
  obtain ⟨left, right, -, -, hmem⟩ := (holds_iff_rightsOf hconnection).mp h
  simp only [Connection.rightsOf] at hmem
  cases hnumeral : numeral? left with
  | none => rw [hnumeral] at hmem; cases hmem
  | some s =>
    rw [hnumeral] at hmem
    have hleft := of_decide_eq_true (List.mem_filter.mp hmem).2
    simp only [Connection.leftsOf, hnone] at hleft
    obtain ⟨n, hn, -⟩ := mem_numberTexts.mp hleft
    cases hn

/-- Applying a clause of a query that has been read does one of the things that a clause can do. -/
theorem acts_apply (hf : facts.IsWellFormed) {declared : Declarations} (ht : c.IsTyped declared)
    (hs : s.IsWithin facts declared) :
    c.Acts facts settle s (Candidates.apply facts c s settle) := by
  rw [Candidates.apply]
  split
  · rename_i hkind
    exact acts_applyEquality hf ht hs hkind
  · rename_i hkind
    split
    · rename_i hasks
      exact .refused fun v _ => not_holds_of_asksForNoExpression ht hasks v
    · split
      · rename_i hnone
        unfold Connection.ofClause? at hnone
        split at hnone <;> contradiction
      · rename_i connection hconnection
        exact acts_applyConnection hf ht hs hconnection

end Clause

end ProgramQuery
