import ProgramQuery.Proofs.QueryReading

/-!
# What is known of a query that has been read

Every clause says which sorts of arguments it has on its two sides, and every sort of argument says
which entities its synonym may stand for. The grammar of queries keeps to that, rule by rule. An
underscore is such a sort, and it stands only where a clause can do without a value. The texts of
names and numbers are those of tokens, so they fit their sorts as well.

## Main definitions

- `EntityKind.fits`, `ClauseKind.sorts`, `ClauseKind.subject?`, `Attribute.belongsTo`: the types.
- `Query.IsWellTyped`: the query keeps to the types.
- `Clause.IsLexical`: the texts in the clause fit the sorts of its arguments.
- `Query.IsTyped`: both, as far as the evaluation of a query relies on them.

## Main statements

- `QueryGrammar.isWellTyped_selectClause`: what the grammar derives is well typed.
- `Clause.IsWellTyped.isTyped`: what else is needed are texts that fit.
- `isTyped_of_ofText`: a query that has been read is typed.
-/

namespace ProgramQuery

/-! ## Types -/

/-- Whether a synonym for entities of a kind can make an argument of the given sort. -/
def EntityKind.fits : EntityKind → ArgumentKind → Bool
  | kind, .stmtSynonym => kind.isStatement
  | .variableName, .varSynonym => true
  | .procedure, .procSynonym => true
  | .constant, .constSynonym => true
  | .read, .readVariable => true
  | .print, .printVariable => true
  | .call, .calledProcedure => true
  | _, _ => false

theorem EntityKind.role_of_fits {kind : EntityKind} {sort : ArgumentKind}
    (h : kind.fits sort = true) : sort.role = .synonym := by
  cases sort with
  | name | number | wildcard | invalid => cases kind <;> cases h
  | _ => rfl

theorem ArgumentKind.role_eq_wildcard_iff (sort : ArgumentKind) :
    sort.role = .wildcard ↔ sort = .wildcard := by
  cases sort <;> decide

theorem ArgumentKind.role_eq_invalid_iff (sort : ArgumentKind) :
    sort.role = .invalid ↔ sort = .invalid := by
  cases sort <;> decide

/-- Whether entities of a kind have the attribute. -/
def Attribute.belongsTo : Attribute → EntityKind → Bool
  | .procName, .procedure => true
  | .calledName, .call => true
  | .varName, .variableName => true
  | .readName, .read => true
  | .printedName, .print => true
  | .constValue, .constant => true
  | .stmtNumber, kind => kind.isStatement && kind ≠ .progLine
  | _, _ => false

/-- Whether entities of a kind can be asked for in this way. -/
def ElementKind.asksOf : ElementKind → EntityKind → Bool
  | .plain, _ => true
  | .attr a, kind => a.belongsTo kind
  | .boolean, _ => false

/-- Arguments that are statements. -/
def statementSorts : List ArgumentKind :=
  [.stmtSynonym, .number]

/-- Arguments that are procedures. -/
def procedureSorts : List ArgumentKind :=
  [.procSynonym, .name]

/-- Arguments that are variables. -/
def variableSorts : List ArgumentKind :=
  [.varSynonym, .name]

/-- Arguments that are values or attributes. -/
def operandSorts : List ArgumentKind :=
  [.stmtSynonym, .varSynonym, .procSynonym, .constSynonym, .readVariable, .printVariable,
    .calledProcedure, .name, .number]

/-- The arguments that a clause can have on its left and on its right. An underscore is among them
where the clause can do without a value. -/
def ClauseKind.sorts : ClauseKind → List ArgumentKind × List ArgumentKind
  | .follows | .followsStar | .parent | .parentStar | .next | .nextStar | .affects | .affectsStar =>
    (.wildcard :: statementSorts, .wildcard :: statementSorts)
  | .calls | .callsStar => (.wildcard :: procedureSorts, .wildcard :: procedureSorts)
  | .uses | .modifies => (statementSorts ++ procedureSorts, .wildcard :: variableSorts)
  | .assignExact | .assignPart | .assignAny | .ifPattern | .whilePattern =>
    ([.stmtSynonym], .wildcard :: variableSorts)
  | .equality => (operandSorts, operandSorts)

/-- The entities that a pattern is about. -/
def ClauseKind.subject? : ClauseKind → Option EntityKind
  | .assignExact | .assignPart | .assignAny => some .assign
  | .ifPattern => some .ifElse
  | .whilePattern => some .whileLoop
  | _ => none

/-- The argument is of one of the sorts, and its synonym is declared for entities that fit. -/
structure Argument.Suits (declared : Declarations) (sorts : List ArgumentKind) (a : Argument) :
    Prop where
  sort : a.kind ∈ sorts
  declared : a.role = .synonym →
    ∃ kind, declared.lookup a.value = some kind ∧ kind.fits a.kind = true

/-- Both arguments suit the clause, and the synonym of a pattern is declared for what the pattern is
about. -/
structure Clause.IsWellTyped (declared : Declarations) (c : Clause) : Prop where
  left : c.left.Suits declared c.kind.sorts.1
  right : c.right.Suits declared c.kind.sorts.2
  subject : ∀ kind, c.kind.subject? = some kind → declared.lookup c.left.value = some kind

/-- The query asks for a yes or no, or for declared synonyms in ways that fit their entities, and
all its clauses are well typed. -/
structure Query.IsWellTyped (q : Query) : Prop where
  elements : q.elements = [⟨.boolean, "BOOLEAN"⟩] ∨ q.elements ≠ [] ∧ ∀ e ∈ q.elements,
    ∃ kind, q.declarations.lookup e.synonym = some kind ∧ e.kind.asksOf kind = true
  clauses : ∀ c ∈ q.clauses, c.IsWellTyped q.declarations

theorem Attribute.fits_of_belongsTo {a : Attribute} {kind : EntityKind}
    (h : a.belongsTo kind = true) : kind.fits a.argumentKind = true := by
  cases a with
  | stmtNumber => exact (Bool.and_eq_true_iff.mp h).1
  | _ => cases kind <;> first | rfl | cases h

theorem Attribute.argumentKind_mem (a : Attribute) : a.argumentKind ∈ operandSorts := by
  cases a <;> decide

theorem Argument.Suits.mono {declared : Declarations} {sorts sorts' : List ArgumentKind}
    {a : Argument} (h : a.Suits declared sorts) (hsorts : ∀ sort ∈ sorts, sort ∈ sorts') :
    a.Suits declared sorts' :=
  ⟨hsorts _ h.sort, h.declared⟩

/-- No clause has a side for arguments that mean nothing. -/
theorem ClauseKind.invalid_not_mem_sorts (kind : ClauseKind) :
    .invalid ∉ kind.sorts.1 ∧ .invalid ∉ kind.sorts.2 := by
  cases kind <;> decide

/-! ## The types of what is derived -/

namespace QueryGrammar

open Grammar (forall_of_repeated)

theorem belongsTo_of_hasAttribute {kind : EntityKind} {name : String} {a : Attribute}
    (h : HasAttribute kind name a) : a.belongsTo kind = true := by
  cases h with
  | stmtNumber hkind => exact (isStatement_and_ne_progLine_iff kind).mpr hkind
  | _ => rfl

section Declared

variable {declared : Declarations} {sorts : List ArgumentKind} {ts : List Token} {a : Argument}

theorem suits_of_quotedName (h : QuotedName ts a) (hsort : .name ∈ sorts) :
    a.Suits declared sorts := by
  obtain ⟨-, -, -⟩ := h
  exact ⟨hsort, fun hrole => by cases hrole⟩

theorem suits_of_number (h : Number ts a) (hsort : .number ∈ sorts) : a.Suits declared sorts := by
  obtain ⟨-⟩ := h
  exact ⟨hsort, fun hrole => by cases hrole⟩

theorem suits_of_orAny {reference : List Token → Argument → Prop} (h : OrAny reference ts a)
    (hreference : ∀ us b, reference us b → b.Suits declared sorts) :
    a.Suits declared (.wildcard :: sorts) := by
  cases h with
  | reference h => exact (hreference _ _ h).mono fun sort hsort => List.mem_cons_of_mem _ hsort
  | wildcard => exact ⟨List.mem_cons_self, fun hrole => by cases hrole⟩

/-- A relation is well typed if its name stands for clauses with such arguments. -/
theorem isWellTyped_relates {relations : List (String × Bool × ClauseKind)}
    {left right : List Token → Argument → Prop} {lefts rights : List ArgumentKind} {c : Clause}
    (h : Relates relations left right ts c)
    (hrelations : ∀ entry ∈ relations,
      entry.2.2.sorts = (lefts, rights) ∧ entry.2.2.subject? = none)
    (hleft : ∀ us b, left us b → b.Suits declared lefts)
    (hright : ∀ us b, right us b → b.Suits declared rights) : c.IsWellTyped declared := by
  obtain @⟨ts, us, vs, opening, comma, closing, kind, a, b, hname, -, ha, -, hb, -⟩ := h
  obtain ⟨hsorts, hsubject⟩ : kind.sorts = (lefts, rights) ∧ kind.subject? = none := by
    cases hname with
    | plain hmem => exact hrelations _ hmem
    | starred hmem => exact hrelations _ hmem
  refine ⟨?_, ?_, fun kind hkind => ?_⟩
  · rw [hsorts]
    exact hleft us a ha
  · rw [hsorts]
    exact hright vs b hb
  · rw [hsubject] at hkind
    cases hkind

theorem of_patternEnd {kind : EntityKind} {shape : ClauseKind} {text : String}
    (h : PatternEnd kind ts (shape, text)) :
    shape.sorts = ([.stmtSynonym], .wildcard :: variableSorts) ∧ shape.subject? = some kind ∧
      kind.fits .stmtSynonym = true := by
  cases h with
  | assign hshape => cases hshape <;> exact ⟨rfl, rfl, rfl⟩
  | whileLoop => exact ⟨rfl, rfl, rfl⟩
  | ifElse => exact ⟨rfl, rfl, rfl⟩

variable (hnodup : (declared.map Prod.fst).Nodup)

include hnodup

theorem suits_of_synonymFor {kinds : List EntityKind} {sort : ArgumentKind}
    (h : SynonymFor declared kinds sort ts a) (hsort : sort ∈ sorts)
    (hfits : ∀ kind ∈ kinds, kind.fits sort = true) : a.Suits declared sorts := by
  obtain ⟨-, hdeclared, hkind⟩ := h
  exact ⟨hsort, fun _ => ⟨_, lookup_eq_of_mem hnodup hdeclared, hfits _ hkind⟩⟩

theorem suits_of_statementRef (h : StatementRef declared ts a) :
    a.Suits declared statementSorts := by
  cases h with
  | synonym h => exact suits_of_synonymFor hnodup h (by decide) (by decide)
  | number h => exact suits_of_number h (by decide)

theorem suits_of_procedureRef (h : ProcedureRef declared ts a) :
    a.Suits declared procedureSorts := by
  cases h with
  | synonym h => exact suits_of_synonymFor hnodup h (by decide) (by decide)
  | name h => exact suits_of_quotedName h (by decide)

theorem suits_of_variableRef (h : VariableRef declared ts a) : a.Suits declared variableSorts := by
  cases h with
  | synonym h => exact suits_of_synonymFor hnodup h (by decide) (by decide)
  | name h => exact suits_of_quotedName h (by decide)

theorem exists_of_attributeRef {x : String} {attr : Attribute}
    (h : AttributeRef declared ts (x, attr)) :
    ∃ kind, declared.lookup x = some kind ∧ attr.belongsTo kind = true := by
  obtain ⟨-, hdeclared, -, -, hattr⟩ := h
  exact ⟨_, lookup_eq_of_mem hnodup hdeclared, belongsTo_of_hasAttribute hattr⟩

theorem suits_of_operand (h : Operand declared ts a) : a.Suits declared operandSorts := by
  cases h with
  | name h => exact suits_of_quotedName h (by decide)
  | number h => exact suits_of_number h (by decide)
  | @attr x attr h =>
    obtain ⟨kind, hlookup, hbelongs⟩ := exists_of_attributeRef hnodup h
    exact ⟨attr.argumentKind_mem, fun _ => ⟨kind, hlookup, Attribute.fits_of_belongsTo hbelongs⟩⟩
  | line h => exact suits_of_synonymFor hnodup h (by decide) (by decide)

theorem isWellTyped_relation {c : Clause} (h : Relation declared ts c) :
    c.IsWellTyped declared := by
  have hstatement := fun us b => @suits_of_statementRef declared us b hnodup
  have hprocedure := fun us b => @suits_of_procedureRef declared us b hnodup
  have hvariable := fun us b => @suits_of_variableRef declared us b hnodup
  rcases h with h | h | h
  · exact isWellTyped_relates h (by decide) (fun us b hb => suits_of_orAny hb hstatement)
      fun us b hb => suits_of_orAny hb hstatement
  · exact isWellTyped_relates h (by decide) (fun us b hb => suits_of_orAny hb hprocedure)
      fun us b hb => suits_of_orAny hb hprocedure
  · have hsorts : ∀ entry ∈ variableRelations,
        entry.2.2.sorts = (statementSorts ++ procedureSorts, .wildcard :: variableSorts) ∧
          entry.2.2.subject? = none := by
      decide
    refine isWellTyped_relates h hsorts ?_ fun us b hb => suits_of_orAny hb hvariable
    rintro us b (hb | hb)
    · exact (hstatement us b hb).mono fun sort hsort => List.mem_append_left _ hsort
    · exact (hprocedure us b hb).mono fun sort hsort => List.mem_append_right _ hsort

theorem isWellTyped_pattern {c : Clause} (h : Pattern declared ts c) : c.IsWellTyped declared := by
  obtain @⟨t, _, _, _, us, vs, kind, target, shape, text, -, hdeclared, -, htarget, -, hend, -⟩ := h
  obtain ⟨hsorts, hsubject, hfits⟩ := of_patternEnd hend
  have hlookup := lookup_eq_of_mem hnodup hdeclared
  refine ⟨?_, ?_, fun kind' hkind => ?_⟩
  · rw [hsorts]
    exact ⟨List.mem_singleton_self _, fun _ => ⟨kind, hlookup, hfits⟩⟩
  · rw [hsorts]
    exact suits_of_orAny htarget fun us b => suits_of_variableRef hnodup
  · rw [hsubject] at hkind
    exact hkind ▸ hlookup

theorem isWellTyped_equation {c : Clause} (h : Equation declared ts c) :
    c.IsWellTyped declared := by
  obtain ⟨hleft, -, hright⟩ := h
  exact ⟨suits_of_operand hnodup hleft, suits_of_operand hnodup hright, fun kind hkind => by
    cases hkind⟩

theorem isWellTyped_clauses {cs : List Clause} (h : Clauses declared ts cs) :
    ∀ c ∈ cs, c.IsWellTyped declared := by
  cases h with
  | relations _ _ h => exact (forall_of_separated h fun _ _ _ => isWellTyped_relation hnodup).2
  | patterns _ h => exact (forall_of_separated h fun _ _ _ => isWellTyped_pattern hnodup).2
  | equations _ h => exact (forall_of_separated h fun _ _ _ => isWellTyped_equation hnodup).2

theorem exists_asksOf_of_selected {e : Element} (h : Selected declared ts e) :
    ∃ kind, declared.lookup e.synonym = some kind ∧ e.kind.asksOf kind = true := by
  cases h with
  | plain _ hdeclared => exact ⟨_, lookup_eq_of_mem hnodup hdeclared, rfl⟩
  | attr href => exact exists_of_attributeRef hnodup href

theorem asksOf_of_result {es : List Element} (h : Result declared ts es) :
    es = [⟨.boolean, "BOOLEAN"⟩] ∨ es ≠ [] ∧ ∀ e ∈ es,
      ∃ kind, declared.lookup e.synonym = some kind ∧ e.kind.asksOf kind = true := by
  cases h with
  | boolean => exact .inl rfl
  | single h =>
    exact .inr ⟨by simp, List.forall_mem_singleton.mpr (exists_asksOf_of_selected hnodup h)⟩
  | tuple _ h => exact .inr (forall_of_separated h fun _ _ _ => exists_asksOf_of_selected hnodup)

end Declared

/-- All queries of the grammar are well typed. -/
theorem isWellTyped_selectClause {ts : List Token} {q : Query} (h : SelectClause ts q) :
    q.IsWellTyped := by
  obtain @⟨_, _, vs, _, declared, elements, clauses, -, hnodup, -, hresult, hclauses⟩ := h
  refine ⟨asksOf_of_result hnodup hresult, fun c hc => ?_⟩
  obtain ⟨cs, hcs, hc⟩ := List.mem_flatten.mp hc
  exact forall_of_repeated hclauses (fun _ _ _ => isWellTyped_clauses hnodup) cs hcs c hc

end QueryGrammar

/-! ## Texts -/

/-- The text of the argument fits its sort. -/
structure Argument.IsLexical (a : Argument) : Prop where
  isName : a.role = .synonym ∨ a.kind = .name → IsName a.value
  isNumber : a.kind = .number → IsNumber a.value
  underscore : a.kind = .wildcard → a.value = "_"

/-- The texts of both arguments fit, and an expression to look for is not blank. -/
structure Clause.IsLexical (c : Clause) : Prop where
  left : c.left.IsLexical
  right : c.right.IsLexical
  not_blank : c.kind = .assignExact ∨ c.kind = .assignPart →
    ∃ ch ∈ c.pattern.toList, isBlank ch = false

theorem exists_not_blank_spacedText {ts : List Token} (hne : ts ≠ [])
    (hts : ∀ t ∈ ts, t.IsLexical) : ∃ c ∈ (spacedText ts).toList, isBlank c = false := by
  obtain ⟨t, rest, rfl⟩ := List.exists_cons_of_ne_nil hne
  obtain ⟨c, hc, hblank⟩ := (hts t List.mem_cons_self).not_blank
  refine ⟨c, ?_, hblank⟩
  cases rest with
  | nil => exact hc
  | cons u rest =>
    simp only [spacedText, String.toList_append, List.append_assoc]
    exact List.mem_append_left _ hc

namespace QueryGrammar

open Grammar (forall_of_repeated)

section Lexical

variable {declared : Declarations} {ts : List Token} {a : Argument}
  (hts : ∀ t ∈ ts, t.IsLexical)

include hts

theorem isLexical_of_quotedName (h : QuotedName ts a) : a.IsLexical := by
  obtain ⟨-, ht, -⟩ := h
  exact ⟨fun _ => (hts _ (by simp)).isName ht, by simp, by simp⟩

theorem isLexical_of_number (h : Number ts a) : a.IsLexical := by
  obtain ⟨ht⟩ := h
  exact ⟨by simp [Argument.role, ArgumentKind.role],
    fun _ => (hts _ List.mem_cons_self).isNumber ht, by simp⟩

/-- The text of a synonym is a name, whatever it is an argument for. -/
theorem isLexical_of_synonym {t : Token} (ht : t ∈ ts) (hname : t.kind = .name)
    {sort : ArgumentKind} (hsort : sort ∉ [ArgumentKind.name, .number, .wildcard]) :
    Argument.IsLexical ⟨sort, t.text⟩ := by
  simp only [List.mem_cons, List.not_mem_nil, or_false, not_or] at hsort
  exact ⟨fun _ => (hts t ht).isName hname, fun h => absurd h hsort.2.1,
    fun h => absurd h hsort.2.2⟩

theorem isLexical_of_reference (h : Reference declared ts a) : a.IsLexical := by
  cases h with
  | wildcard => exact ⟨by simp [Argument.role, ArgumentKind.role], by simp, fun _ => rfl⟩
  | number h => exact isLexical_of_number hts h
  | name h => exact isLexical_of_quotedName hts h
  | synonym ht => exact isLexical_of_synonym hts List.mem_cons_self ht (argumentKind_ne _)

theorem isLexical_of_operand (h : Operand declared ts a) : a.IsLexical := by
  cases h with
  | name h => exact isLexical_of_quotedName hts h
  | number h => exact isLexical_of_number hts h
  | @attr x attr h =>
    obtain ⟨ht, -, -, -, -⟩ := h
    exact isLexical_of_synonym hts List.mem_cons_self ht (by cases attr <;> decide)
  | line h =>
    obtain ⟨ht, -, -⟩ := h
    exact isLexical_of_synonym hts List.mem_cons_self ht (by decide)

variable {c : Clause}

theorem isLexical_relation (h : Relation declared ts c) : c.IsLexical := by
  have hkind := not_or.mpr (ne_assign_of_relation h)
  obtain ⟨⟨-, -, hleft, -, hright, -⟩, -⟩ := relation_iff.mp h
  exact ⟨isLexical_of_reference (fun t ht => hts t (by simp [ht])) hleft,
    isLexical_of_reference (fun t ht => hts t (by simp [ht])) hright,
    fun h => absurd h hkind⟩

theorem exists_not_blank_of_quoted {text : String} (h : Quoted ts text) :
    ∃ c ∈ text.toList, isBlank c = false := by
  obtain ⟨-, hne, -, -⟩ := h
  exact exists_not_blank_spacedText hne fun t ht => hts t (by simp [ht])

theorem exists_not_blank_of_patternEnd {kind : EntityKind} {shape : ClauseKind} {text : String}
    (h : PatternEnd kind ts (shape, text)) (hshape : shape = .assignExact ∨ shape = .assignPart) :
    ∃ c ∈ text.toList, isBlank c = false := by
  cases h with
  | assign h =>
    cases h with
    | any => rcases hshape with h | h <;> cases h
    | part _ h => exact exists_not_blank_of_quoted (fun t ht => hts t (by simp [ht])) h
    | exact h => exact exists_not_blank_of_quoted hts h
  | whileLoop => rcases hshape with h | h <;> cases h
  | ifElse => rcases hshape with h | h <;> cases h

theorem isLexical_pattern (h : Pattern declared ts c) : c.IsLexical := by
  obtain ⟨ht, -, -, htarget, -, hend, -⟩ := h
  exact ⟨isLexical_of_synonym hts List.mem_cons_self ht (by decide),
    isLexical_of_reference (fun t ht => hts t (by simp [ht])) (orAny_variableRef_iff.mp htarget).1,
    exists_not_blank_of_patternEnd (fun t ht => hts t (by simp [ht])) hend⟩

theorem isLexical_equation (h : Equation declared ts c) : c.IsLexical := by
  obtain ⟨hleft, -, hright⟩ := h
  exact ⟨isLexical_of_operand (fun t ht => hts t (by simp [ht])) hleft,
    isLexical_of_operand (fun t ht => hts t (by simp [ht])) hright, by simp⟩

theorem isLexical_clauses {cs : List Clause} (h : Clauses declared ts cs) :
    ∀ c ∈ cs, c.IsLexical := by
  cases h with
  | relations _ _ h =>
    refine (forall_of_separated h fun us c hus => isLexical_relation fun t ht => ?_).2
    exact hts t (by simp [hus ht])
  | patterns _ h =>
    refine (forall_of_separated h fun us c hus => isLexical_pattern fun t ht => ?_).2
    exact hts t (by simp [hus ht])
  | equations _ h =>
    refine (forall_of_separated h fun us c hus => isLexical_equation fun t ht => ?_).2
    exact hts t (by simp [hus ht])

end Lexical

/-- In what is derived from lexical tokens all texts fit. -/
theorem isLexical_selectClause {ts : List Token} {q : Query} (h : SelectClause ts q)
    (hts : ∀ t ∈ ts, t.IsLexical) : ∀ c ∈ q.clauses, c.IsLexical := by
  obtain ⟨-, -, -, -, hclauses⟩ := h
  intro c hc
  obtain ⟨cs, hcs, hc⟩ := List.mem_flatten.mp hc
  refine forall_of_repeated hclauses (fun us cs hus => isLexical_clauses fun t ht => ?_) cs hcs c hc
  exact hts t (by simp [hus ht])

end QueryGrammar

/-! ## What the evaluation relies on -/

/-- Arguments made of a declared synonym, a name, a number or an underscore. -/
inductive Argument.IsTyped (declared : Declarations) : Argument → Prop where
  | synonym {kind : EntityKind} {sort : ArgumentKind} {x : String}
      (hdeclared : declared.lookup x = some kind) (hname : IsName x)
      (hfits : kind.fits sort = true) : IsTyped declared ⟨sort, x⟩
  | name {s : String} (hname : IsName s) : IsTyped declared ⟨.name, s⟩
  | number {s : String} (hnumber : IsNumber s) : IsTyped declared ⟨.number, s⟩
  | wildcard : IsTyped declared ⟨.wildcard, "_"⟩

/-- Clauses with arguments of their own, and with values where they need them. -/
structure Clause.IsTyped (declared : Declarations) (c : Clause) : Prop where
  left : c.left.IsTyped declared
  right : c.right.IsTyped declared
  left_ne_wildcard : c.kind = .uses ∨ c.kind = .modifies → c.left.role ≠ .wildcard
  ne_wildcard : c.kind = .equality → c.left.role ≠ .wildcard ∧ c.right.role ≠ .wildcard
  not_blank : c.kind = .assignExact ∨ c.kind = .assignPart →
    ∃ ch ∈ c.pattern.toList, isBlank ch = false

/-- Elements that are entities of a declared synonym, or an attribute that those have. -/
def Element.IsTyped (declared : Declarations) (e : Element) : Prop :=
  ∃ kind, declared.lookup e.synonym = some kind ∧
    match e.kind with
    | .plain => True
    | .attr a => kind.fits a.argumentKind = true
    | .boolean => False

/-- Queries that select something and obey the static rules. -/
structure Query.IsTyped (q : Query) : Prop where
  elements : q.isBoolean = true ∨
    q.elements ≠ [] ∧ ∀ e ∈ q.elements, e.IsTyped q.declarations
  clauses : ∀ c ∈ q.clauses, c.IsTyped q.declarations

theorem Argument.Suits.isTyped {declared : Declarations} {sorts : List ArgumentKind} {a : Argument}
    (h : a.Suits declared sorts) (hsorts : .invalid ∉ sorts) (ha : a.IsLexical) :
    a.IsTyped declared := by
  obtain ⟨sort, value⟩ := a
  cases sort with
  | name => exact .name (ha.isName (.inr rfl))
  | number => exact .number (ha.isNumber rfl)
  | wildcard =>
    obtain rfl : value = "_" := ha.underscore rfl
    exact .wildcard
  | invalid => exact absurd h.sort hsorts
  | _ =>
    obtain ⟨kind, hlookup, hfits⟩ := h.declared rfl
    exact .synonym hlookup (ha.isName (.inl rfl)) hfits

theorem Argument.Suits.role_ne_wildcard {declared : Declarations} {sorts : List ArgumentKind}
    {a : Argument} (h : a.Suits declared sorts) (hsorts : .wildcard ∉ sorts) :
    a.role ≠ .wildcard := by
  have hkind : a.kind ≠ .wildcard := ne_of_mem_of_not_mem h.sort hsorts
  exact mt a.kind.role_eq_wildcard_iff.mp hkind

/-- A well-typed clause is typed, if its texts fit. -/
theorem Clause.IsWellTyped.isTyped {declared : Declarations} {c : Clause}
    (h : c.IsWellTyped declared) (hc : c.IsLexical) : c.IsTyped declared where
  left := h.left.isTyped c.kind.invalid_not_mem_sorts.1 hc.left
  right := h.right.isTyped c.kind.invalid_not_mem_sorts.2 hc.right
  left_ne_wildcard hkind := h.left.role_ne_wildcard (by
    rcases hkind with hkind | hkind <;> rw [hkind] <;> decide)
  ne_wildcard hkind := ⟨h.left.role_ne_wildcard (by rw [hkind]; decide),
    h.right.role_ne_wildcard (by rw [hkind]; decide)⟩
  not_blank := hc.not_blank

theorem Element.isTyped_of_asksOf {declared : Declarations} {e : Element} {kind : EntityKind}
    (hlookup : declared.lookup e.synonym = some kind) (h : e.kind.asksOf kind = true) :
    e.IsTyped declared := by
  refine ⟨kind, hlookup, ?_⟩
  cases hkind : e.kind with
  | plain => trivial
  | attr a =>
    rw [hkind] at h
    exact Attribute.fits_of_belongsTo h
  | boolean =>
    rw [hkind] at h
    cases h

theorem Query.IsWellTyped.isTyped {q : Query} (h : q.IsWellTyped)
    (hq : ∀ c ∈ q.clauses, c.IsLexical) : q.IsTyped where
  elements := by
    rcases h.elements with hboolean | ⟨hne, helements⟩
    · exact .inl (by rw [Query.isBoolean, hboolean]; rfl)
    · refine .inr ⟨hne, fun e he => ?_⟩
      obtain ⟨kind, hlookup, hasks⟩ := helements e he
      exact Element.isTyped_of_asksOf hlookup hasks
  clauses c hc := (h.clauses c hc).isTyped (hq c hc)

/-- A query that has been read from a text obeys the static rules. -/
theorem isTyped_of_ofText {text : String} {q : Query} (h : Query.ofText text = .ok q) :
    q.IsTyped := by
  obtain ⟨ts, hts, hselect⟩ := ofText_eq_ok_iff.mp h
  exact (QueryGrammar.isWellTyped_selectClause hselect).isTyped
    (QueryGrammar.isLexical_selectClause hselect (isLexical_of_tokenize hts))

end ProgramQuery
