import ProgramQuery.Proofs.ProgramGrammar
import ProgramQuery.Proofs.Tokenization
import ProgramQuery.Query.Parser

/-!
# The grammar of queries

The grammar of queries as a relation between lists of tokens and queries, with the static rules as
conditions on its derivations. No word is reserved: what a word means shows from its place, and
`BOOLEAN` is a result only where it is not a synonym. Between the quotes of a pattern any tokens may
stand, but at least one. Whether they form an expression shows when the query is answered.

Declarations and results are read here, and clauses and whole queries in
`ProgramQuery.Proofs.QueryReading`.

## Main definitions

- `QueryGrammar.SelectClause`: the grammar of queries, with the query that belongs to a derivation.
- `QueryGrammar.IsSoundOnLexical`: what is read from lexical tokens is derived.

## Main statements

- `QueryGrammar.of_readDeclarations`, `QueryGrammar.readDeclarations_eq`: declarations are read by
  the grammar.
- `QueryGrammar.isSound_readResult`, `QueryGrammar.isComplete_readResult`: so are results.
-/

namespace ProgramQuery

/-- An element of joined lists stands in one of them. -/
theorem exists_of_flatten_eq {α : Type} {lists : List (List α)} {before after : List α} {a : α}
    (h : lists.flatten = before ++ a :: after) :
    ∃ earlier l r later, lists = earlier ++ (l ++ a :: r) :: later ∧
      before = earlier.flatten ++ l := by
  rcases List.flatten_eq_append_iff.mp h with ⟨earlier, rest, rfl, rfl, hrest⟩ |
    ⟨earlier, l, b, r, later, rfl, rfl, hrest⟩
  · -- only empty lists are skipped
    obtain ⟨skipped, r, later, rfl, hskipped, -⟩ := List.flatten_eq_cons_iff.mp hrest.symm
    have hempty : skipped.flatten = [] := List.flatten_eq_nil_iff.mpr hskipped
    exact ⟨earlier ++ skipped, [], r, later, by simp, by simp [hempty]⟩
  · obtain ⟨rfl, -⟩ := List.cons.inj hrest
    exact ⟨earlier, l, r, later, rfl, rfl⟩

namespace QueryGrammar

open Grammar (Repeated IsSound IsComplete anything isWord_iff)

/-- `item { separator item }`. -/
inductive Separated {α : Type} (separator : Token → Prop) (item : List Token → α → Prop) :
    List Token → List α → Prop where
  | one {ts : List Token} {a : α} (hitem : item ts a) : Separated separator item ts [a]
  | more {ts us : List Token} {t : Token} {a : α} {as : List α} (hitem : item ts a)
      (hseparator : separator t) (hrest : Separated separator item us as) :
      Separated separator item (ts ++ t :: us) (a :: as)

/-- There is an item, and all have what each has that is derived from some of the tokens. -/
theorem forall_of_separated {α : Type} {separator : Token → Prop} {item : List Token → α → Prop}
    {ts : List Token} {as : List α} (h : Separated separator item ts as) {P : α → Prop}
    (hitem : ∀ us a, us ⊆ ts → item us a → P a) : as ≠ [] ∧ ∀ a ∈ as, P a := by
  induction h with
  | one ha => exact ⟨by simp, List.forall_mem_singleton.mpr (hitem _ _ (List.Subset.refl _) ha)⟩
  | more ha _ _ ih =>
    refine ⟨by simp, List.forall_mem_cons.mpr ⟨hitem _ _ (List.subset_append_left _ _) ha, ?_⟩⟩
    exact (ih fun us a hus => hitem us a (List.subset_append_of_subset_right _
      (List.subset_cons_of_subset _ hus))).2

/-- `","`. -/
def IsComma (t : Token) : Prop :=
  t.kind = .comma

/-- `"and"`. -/
def IsAnd (t : Token) : Prop :=
  t.isWord "and" = true

/-! ## Declarations -/

/-- The words that declare synonyms, and what they declare them for. -/
def entityWords : List (String × EntityKind) :=
  [("stmt", .stmt), ("read", .read), ("print", .print), ("call", .call), ("while", .whileLoop),
    ("if", .ifElse), ("assign", .assign), ("variable", .variableName), ("constant", .constant),
    ("procedure", .procedure)]

/-- `entity = "stmt" | "read" | "print" | "call" | "while" | "if" | "assign" | "variable"`
`| "constant" | "procedure" | "prog" "_" "line"`. -/
inductive DesignEntity : List Token → EntityKind → Prop where
  | word {t : Token} {text : String} {kind : EntityKind} (hmem : (text, kind) ∈ entityWords)
      (hword : t.isWord text = true) : DesignEntity [t] kind
  | progLine {t u v : Token} (ht : t.isWord "prog" = true) (hu : u.kind = .underscore)
      (hv : v.isWord "line" = true) : DesignEntity [t, u, v] .progLine

/-- `synonym = name`. -/
inductive Synonym : List Token → String → Prop where
  | intro {t : Token} (ht : t.kind = .name) : Synonym [t] t.text

/-- `declaration = entity synonym { "," synonym } ";"`. -/
inductive Declaration : List Token → Declarations → Prop where
  | intro {ts us : List Token} {semicolon : Token} {kind : EntityKind} {names : List String}
      (hentity : DesignEntity ts kind) (hnames : Separated IsComma Synonym us names)
      (hsemicolon : semicolon.kind = .semicolon) :
      Declaration (ts ++ us ++ [semicolon]) (names.map fun name => (name, kind))

/-! ## Attributes -/

/-- `attribute = "procName" | "varName" | "value" | "stmt" "#"`. -/
inductive AttributeName : List Token → String → Prop where
  | word {t : Token} {text : String} (hmem : text ∈ ["procName", "varName", "value"])
      (hword : t.isWord text = true) : AttributeName [t] text
  | number {t u : Token} (ht : t.isWord "stmt" = true) (hu : u.kind = .hash) :
      AttributeName [t, u] "stmt#"

/-- Which entities have an attribute of the given name, and which attribute that is. -/
inductive HasAttribute : EntityKind → String → Attribute → Prop where
  | procName : HasAttribute .procedure "procName" .procName
  | calledName : HasAttribute .call "procName" .calledName
  | varName : HasAttribute .variableName "varName" .varName
  | readName : HasAttribute .read "varName" .readName
  | printedName : HasAttribute .print "varName" .printedName
  | constValue : HasAttribute .constant "value" .constValue
  | stmtNumber {kind : EntityKind}
      (hkind : kind ∈ [EntityKind.stmt, .read, .print, .call, .whileLoop, .ifElse, .assign]) :
      HasAttribute kind "stmt#" .stmtNumber

section Declared

variable (declared : Declarations)

/-- `synonym "." attribute`, for an attribute that the entities of the synonym have. -/
inductive AttributeRef : List Token → String × Attribute → Prop where
  | intro {t dot : Token} {ts : List Token} {kind : EntityKind} {name : String} {attr : Attribute}
      (ht : t.kind = .name) (hdeclared : (t.text, kind) ∈ declared) (hdot : dot.kind = .dot)
      (hname : AttributeName ts name) (hattr : HasAttribute kind name attr) :
      AttributeRef (t :: dot :: ts) (t.text, attr)

/-! ## Results -/

/-- `element = synonym | synonym "." attribute`. -/
inductive Selected : List Token → Element → Prop where
  | plain {t : Token} {kind : EntityKind} (ht : t.kind = .name)
      (hdeclared : (t.text, kind) ∈ declared) : Selected [t] ⟨.plain, t.text⟩
  | attr {ts : List Token} {x : String} {attr : Attribute}
      (href : AttributeRef declared ts (x, attr)) : Selected ts ⟨.attr attr, x⟩

/-- `result = "BOOLEAN" | element | "<" element { "," element } ">"`. -/
inductive Result : List Token → List Element → Prop where
  | boolean {t : Token} (ht : t.isWord "BOOLEAN" = true)
      (hfree : ∀ kind, ("BOOLEAN", kind) ∉ declared) : Result [t] [⟨.boolean, "BOOLEAN"⟩]
  | single {ts : List Token} {e : Element} (helement : Selected declared ts e) : Result ts [e]
  | tuple {opening closing : Token} {ts : List Token} {es : List Element}
      (hopening : opening.kind = .lt) (helements : Separated IsComma (Selected declared) ts es)
      (hclosing : closing.kind = .gt) : Result (opening :: ts ++ [closing]) es

/-! ## References -/

/-- `'"' name '"'`. -/
inductive QuotedName : List Token → Argument → Prop where
  | intro {opening t closing : Token} (hopening : opening.kind = .doubleQuote)
      (ht : t.kind = .name) (hclosing : closing.kind = .doubleQuote) :
      QuotedName [opening, t, closing] ⟨.name, t.text⟩

/-- `integer`. -/
inductive Number : List Token → Argument → Prop where
  | intro {t : Token} (ht : t.kind = .integer) : Number [t] ⟨.number, t.text⟩

/-- A synonym for entities of some kinds, as an argument of the given sort. -/
inductive SynonymFor (kinds : List EntityKind) (sort : ArgumentKind) :
    List Token → Argument → Prop where
  | intro {t : Token} {kind : EntityKind} (ht : t.kind = .name)
      (hdeclared : (t.text, kind) ∈ declared) (hkind : kind ∈ kinds) :
      SynonymFor kinds sort [t] ⟨sort, t.text⟩

/-- The entities that are statements. -/
def statementKinds : List EntityKind :=
  [.stmt, .read, .print, .call, .whileLoop, .ifElse, .assign, .progLine]

/-- `statement = synonym | integer`. -/
inductive StatementRef : List Token → Argument → Prop where
  | synonym {ts : List Token} {a : Argument}
      (h : SynonymFor declared statementKinds .stmtSynonym ts a) : StatementRef ts a
  | number {ts : List Token} {a : Argument} (h : Number ts a) : StatementRef ts a

/-- `synonym | '"' name '"'`, for entities of one kind. -/
inductive NamedRef (kind : EntityKind) (sort : ArgumentKind) : List Token → Argument → Prop where
  | synonym {ts : List Token} {a : Argument} (h : SynonymFor declared [kind] sort ts a) :
      NamedRef kind sort ts a
  | name {ts : List Token} {a : Argument} (h : QuotedName ts a) : NamedRef kind sort ts a

/-- `procedure = synonym | '"' name '"'`. -/
abbrev ProcedureRef : List Token → Argument → Prop :=
  NamedRef declared .procedure .procSynonym

/-- `variable = synonym | '"' name '"'`. -/
abbrev VariableRef : List Token → Argument → Prop :=
  NamedRef declared .variableName .varSynonym

end Declared

/-- `reference | "_"`. -/
inductive OrAny (reference : List Token → Argument → Prop) : List Token → Argument → Prop where
  | reference {ts : List Token} {a : Argument} (h : reference ts a) : OrAny reference ts a
  | wildcard {t : Token} (ht : t.kind = .underscore) : OrAny reference [t] ⟨.wildcard, "_"⟩

/-! ## Relations -/

/-- The relations between statements, in the plain form and in the starred one. -/
def statementRelations : List (String × Bool × ClauseKind) :=
  [("Follows", false, .follows), ("Follows", true, .followsStar), ("Parent", false, .parent),
    ("Parent", true, .parentStar), ("Next", false, .next), ("Next", true, .nextStar),
    ("Affects", false, .affects), ("Affects", true, .affectsStar)]

/-- The relations between procedures, in the plain form and in the starred one. -/
def procedureRelations : List (String × Bool × ClauseKind) :=
  [("Calls", false, .calls), ("Calls", true, .callsStar)]

/-- The relations to variables. They have no starred form. -/
def variableRelations : List (String × Bool × ClauseKind) :=
  [("Uses", false, .uses), ("Modifies", false, .modifies)]

/-- `name [ "*" ]`, for the names of some relations. -/
inductive RelationName (relations : List (String × Bool × ClauseKind)) :
    List Token → ClauseKind → Prop where
  | plain {t : Token} {text : String} {kind : ClauseKind} (hmem : (text, false, kind) ∈ relations)
      (hword : t.isWord text = true) : RelationName relations [t] kind
  | starred {t star : Token} {text : String} {kind : ClauseKind}
      (hmem : (text, true, kind) ∈ relations) (hword : t.isWord text = true)
      (hstar : star.kind = .times) : RelationName relations [t, star] kind

/-- `relation "(" reference "," reference ")"`, for some relations and what they are about. -/
inductive Relates (relations : List (String × Bool × ClauseKind))
    (left right : List Token → Argument → Prop) : List Token → Clause → Prop where
  | intro {ts us vs : List Token} {opening comma closing : Token} {kind : ClauseKind}
      {a b : Argument} (hname : RelationName relations ts kind)
      (hopening : opening.kind = .lParen) (hleft : left us a) (hcomma : comma.kind = .comma)
      (hright : right vs b) (hclosing : closing.kind = .rParen) :
      Relates relations left right (ts ++ opening :: us ++ comma :: vs ++ [closing])
        { kind, left := a, right := b }

section Clauses

variable (declared : Declarations)

/-- A relation between statements, between procedures, or from one of either to a variable. The
last one needs to know on the left which of the two is meant. -/
def Relation (ts : List Token) (c : Clause) : Prop :=
  Relates statementRelations (OrAny (StatementRef declared)) (OrAny (StatementRef declared)) ts c ∨
    Relates procedureRelations (OrAny (ProcedureRef declared)) (OrAny (ProcedureRef declared))
      ts c ∨
    Relates variableRelations (fun us a => StatementRef declared us a ∨ ProcedureRef declared us a)
      (OrAny (VariableRef declared)) ts c

/-! ## Patterns -/

/-- `'"' token { token } '"'`, without a quote in between. -/
inductive Quoted : List Token → String → Prop where
  | intro {opening closing : Token} {ts : List Token} (hopening : opening.kind = .doubleQuote)
      (hne : ts ≠ []) (hinner : ∀ t ∈ ts, t.kind ≠ .doubleQuote)
      (hclosing : closing.kind = .doubleQuote) :
      Quoted (opening :: ts ++ [closing]) (spacedText ts)

/-- `shape = "_" | "_" quoted "_" | quoted`. -/
inductive Shape : List Token → ClauseKind × String → Prop where
  | any {t : Token} (ht : t.kind = .underscore) : Shape [t] (.assignAny, "")
  | part {t u : Token} {ts : List Token} {text : String} (ht : t.kind = .underscore)
      (hquoted : Quoted ts text) (hu : u.kind = .underscore) :
      Shape (t :: ts ++ [u]) (.assignPart, text)
  | exact {ts : List Token} {text : String} (hquoted : Quoted ts text) :
      Shape ts (.assignExact, text)

/-- What a pattern has after its first argument: a shape for assignments, one underscore for loops
and two for branchings. -/
inductive PatternEnd : EntityKind → List Token → ClauseKind × String → Prop where
  | assign {ts : List Token} {shape : ClauseKind × String} (hshape : Shape ts shape) :
      PatternEnd .assign ts shape
  | whileLoop {t : Token} (ht : t.kind = .underscore) :
      PatternEnd .whileLoop [t] (.whilePattern, "")
  | ifElse {t comma u : Token} (ht : t.kind = .underscore) (hcomma : comma.kind = .comma)
      (hu : u.kind = .underscore) : PatternEnd .ifElse [t, comma, u] (.ifPattern, "")

/-- `pattern = synonym "(" ( variable | "_" ) "," end ")"`. -/
inductive Pattern : List Token → Clause → Prop where
  | intro {t opening comma closing : Token} {ts us : List Token} {kind : EntityKind}
      {target : Argument} {shape : ClauseKind} {text : String} (ht : t.kind = .name)
      (hdeclared : (t.text, kind) ∈ declared) (hopening : opening.kind = .lParen)
      (htarget : OrAny (VariableRef declared) ts target) (hcomma : comma.kind = .comma)
      (hend : PatternEnd kind us (shape, text)) (hclosing : closing.kind = .rParen) :
      Pattern (t :: opening :: ts ++ comma :: us ++ [closing])
        ⟨shape, ⟨.stmtSynonym, t.text⟩, target, text⟩

/-! ## Equations -/

/-- `operand = '"' name '"' | integer | synonym "." attribute | synonym`, the last one for program
lines only. -/
inductive Operand : List Token → Argument → Prop where
  | name {ts : List Token} {a : Argument} (h : QuotedName ts a) : Operand ts a
  | number {ts : List Token} {a : Argument} (h : Number ts a) : Operand ts a
  | attr {ts : List Token} {x : String} {attr : Attribute}
      (h : AttributeRef declared ts (x, attr)) : Operand ts ⟨attr.argumentKind, x⟩
  | line {ts : List Token} {a : Argument} (h : SynonymFor declared [.progLine] .stmtSynonym ts a) :
      Operand ts a

/-- `equation = operand "=" operand`. -/
inductive Equation : List Token → Clause → Prop where
  | intro {ts us : List Token} {sign : Token} {a b : Argument} (hleft : Operand declared ts a)
      (hsign : sign.kind = .singleEq) (hright : Operand declared us b) :
      Equation (ts ++ sign :: us) { kind := .equality, left := a, right := b }

/-! ## Queries -/

/-- `clauses = "such" "that" relation { "and" relation } | "pattern" pattern { "and" pattern }`
`| "with" equation { "and" equation }`. -/
inductive Clauses : List Token → List Clause → Prop where
  | relations {such that : Token} {ts : List Token} {cs : List Clause}
      (hsuch : such.isWord "such" = true) (hthat : that.isWord "that" = true)
      (hclauses : Separated IsAnd (Relation declared) ts cs) : Clauses (such :: that :: ts) cs
  | patterns {word : Token} {ts : List Token} {cs : List Clause}
      (hword : word.isWord "pattern" = true) (hclauses : Separated IsAnd (Pattern declared) ts cs) :
      Clauses (word :: ts) cs
  | equations {word : Token} {ts : List Token} {cs : List Clause}
      (hword : word.isWord "with" = true) (hclauses : Separated IsAnd (Equation declared) ts cs) :
      Clauses (word :: ts) cs

end Clauses

/-- `query = { declaration } "Select" result { clauses }`, where no synonym is declared twice. -/
inductive SelectClause : List Token → Query → Prop where
  | intro {ts us vs : List Token} {word : Token} {declared : List Declarations}
      {elements : List Element} {clauses : List (List Clause)}
      (hdeclared : Repeated Declaration ts declared)
      (hnodup : (declared.flatten.map Prod.fst).Nodup) (hword : word.isWord "Select" = true)
      (hresult : Result declared.flatten us elements)
      (hclauses : Repeated (Clauses declared.flatten) vs clauses) :
      SelectClause (ts ++ word :: us ++ vs) ⟨declared.flatten, elements, clauses.flatten⟩

/-! ## Readers and derivations -/

/-- All that is read from lexical tokens is derived from those that are taken. -/
def IsSoundOnLexical {α : Type} (derived : List Token → α → Prop) (reader : QueryReader α) : Prop :=
  ∀ ⦃ts : List Token⦄ ⦃a : α⦄ ⦃rest : List Token⦄, reader ts = .ok (a, rest) →
    (∀ t ∈ ts, t.IsLexical) → ∃ used, ts = used ++ rest ∧ derived used a

theorem isSoundOnLexical_of_isSound {α : Type} {derived : List Token → α → Prop}
    {reader : QueryReader α} (h : IsSound derived reader) : IsSoundOnLexical derived reader :=
  fun _ _ _ hread _ => h hread

theorem isLexical_of_append {ts used rest : List Token} (h : ts = used ++ rest)
    (hts : ∀ t ∈ ts, t.IsLexical) : ∀ t ∈ rest, t.IsLexical :=
  fun t ht => hts t (h ▸ List.mem_append_right _ ht)

theorem isLexical_tail {ts : List Token} (h : ∀ t ∈ ts, t.IsLexical) : ∀ t ∈ ts.tail, t.IsLexical :=
  fun t ht => h t (List.mem_of_mem_tail ht)

theorem of_expectKind {kind : TokenKind} {ts rest : List Token} {t : Token}
    (h : expectKind kind ts = .ok (t, rest)) : ts = t :: rest ∧ t.kind = kind := by
  cases ts with
  | nil => cases h
  | cons u us =>
    rw [expectKind] at h
    split at h
    · next hkind =>
      obtain ⟨rfl, rfl⟩ := Prod.mk.inj (Except.ok.inj h)
      exact ⟨rfl, hkind⟩
    · cases h

theorem of_expectWord {word : String} {ts rest : List Token} {u : Unit}
    (h : expectWord word ts = .ok (u, rest)) : ∃ t, ts = t :: rest ∧ t.isWord word = true := by
  cases ts with
  | nil => cases h
  | cons t us =>
    rw [expectWord] at h
    split at h
    · next hword =>
      obtain ⟨-, rfl⟩ := Prod.mk.inj (Except.ok.inj h)
      exact ⟨t, rfl, hword⟩
    · cases h

theorem expectKind_of_kind {kind : TokenKind} {t : Token} (h : t.kind = kind) (ts : List Token) :
    expectKind kind (t :: ts) = .ok (t, ts) :=
  if_pos h

theorem expectWord_of_isWord {word : String} {t : Token} (h : t.isWord word = true)
    (ts : List Token) : expectWord word (t :: ts) = .ok ((), ts) :=
  if_pos h

theorem exists_of_startsWith {kind : TokenKind} {ts : List Token} (h : startsWith kind ts = true) :
    ∃ t, ts = t :: ts.tail ∧ t.kind = kind := by
  cases ts with
  | nil => cases h
  | cons t ts => exact ⟨t, rfl, of_decide_eq_true h⟩

theorem exists_of_startsWithWord {word : String} {ts : List Token}
    (h : startsWithWord word ts = true) : ∃ t, ts = t :: ts.tail ∧ t.isWord word = true := by
  cases ts with
  | nil => cases h
  | cons t ts => exact ⟨t, rfl, h⟩

/-! ## Reading declarations -/

theorem mem_entityWords {word : String} {kind : EntityKind}
    (h : EntityKind.ofKeyword? word = some kind) :
    (word, kind) ∈ entityWords ∨ word = "prog_line" := by
  have hword : kind.keyword = word := by simpa using List.find?_some h
  subst hword
  cases kind <;> simp [EntityKind.keyword, entityWords]

theorem ofKeyword?_of_mem : ∀ entry ∈ entityWords,
    EntityKind.ofKeyword? entry.1 = some entry.2 ∧ entry.1 ≠ "prog" := by
  decide

theorem of_entityAhead? {ts rest : List Token} {kind : EntityKind}
    (h : entityAhead? ts = some (kind, rest)) (hts : ∀ t ∈ ts, t.IsLexical) :
    ∃ used, ts = used ++ rest ∧ DesignEntity used kind := by
  unfold entityAhead? at h
  split at h
  · next t u ts =>
    split at h
    · next hnames =>
      obtain ⟨kind', hkind, heq⟩ := Option.map_eq_some_iff.mp h
      obtain ⟨rfl, rfl⟩ := Prod.mk.inj heq
      have hname : t.kind = .name := of_decide_eq_true (Bool.and_eq_true_iff.mp hnames).1
      refine ⟨[t], rfl, ?_⟩
      rcases mem_entityWords hkind with hmem | hline
      · exact .word hmem (isWord_iff.mpr ⟨hname, rfl⟩)
      · -- an underscore is not part of a name
        have halpha := ((hts t List.mem_cons_self).isName hname).isAlphanum
        rw [hline] at halpha
        exact absurd (halpha '_' (by decide)) (by decide)
    · cases h
  · cases h

theorem of_declarationAhead? {ts rest : List Token} {kind : EntityKind}
    (h : declarationAhead? ts = some (kind, rest)) (hts : ∀ t ∈ ts, t.IsLexical) :
    ∃ used, ts = used ++ rest ∧ DesignEntity used kind := by
  unfold declarationAhead? at h
  split at h
  · next t u v w ts =>
    split at h
    · next hwords =>
      obtain ⟨rfl, rfl⟩ := Prod.mk.inj (Option.some.inj h)
      simp only [Bool.and_eq_true, decide_eq_true_eq] at hwords
      obtain ⟨⟨⟨ht, hu⟩, hv⟩, -⟩ := hwords
      exact ⟨[t, u, v], rfl, .progLine ht hu hv⟩
    · exact of_entityAhead? h hts
  · exact of_entityAhead? h hts

theorem declarationAhead?_eq {t : Token} (h : t.isWord "prog" = false) (ts : List Token) :
    declarationAhead? (t :: ts) = entityAhead? (t :: ts) := by
  unfold declarationAhead?
  split
  · next heq =>
    obtain ⟨rfl, -⟩ := List.cons.inj heq
    simp [h, heq]
  · rfl

theorem declarationAhead?_of_designEntity {ts rest : List Token} {u : Token} {kind : EntityKind}
    (h : DesignEntity ts kind) (hu : u.kind = .name) :
    declarationAhead? (ts ++ u :: rest) = some (kind, u :: rest) := by
  cases h with
  | @word t text _ hmem hword =>
    obtain ⟨hkeyword, hprog⟩ := ofKeyword?_of_mem _ hmem
    obtain ⟨hname, rfl⟩ := isWord_iff.mp hword
    have hno : t.isWord "prog" = false := by simpa [Token.isWord, hname] using hprog
    rw [List.singleton_append, declarationAhead?_eq hno]
    simp [entityAhead?, hname, hu, hkeyword]
  | progLine ht hu' hv => simp [declarationAhead?, ht, hu', hv, hu]

/-- The word `Select` does not start a declaration. -/
theorem declarationAhead?_of_select {t : Token} (h : t.isWord "Select" = true) (ts : List Token) :
    declarationAhead? (t :: ts) = none := by
  obtain ⟨hname, htext⟩ := isWord_iff.mp h
  have hno : t.isWord "prog" = false := by simp [Token.isWord, htext]
  have hnone : EntityKind.ofKeyword? t.text = none := by rw [htext]; decide
  rw [declarationAhead?_eq hno]
  unfold entityAhead?
  split
  · next heq =>
    obtain ⟨rfl, -⟩ := List.cons.inj heq
    simp [hnone]
  · rfl

theorem isSome_lookup_iff {declared : Declarations} {x : String} :
    (declared.lookup x).isSome = true ↔ x ∈ declared.map Prod.fst := by
  simp only [List.lookup_isSome_iff, List.mem_map, beq_iff_eq]
  exact exists_congr fun entry => and_congr_right fun _ => eq_comm

theorem of_readSynonyms {kind : EntityKind} {bound : Nat} {declared declared' : Declarations}
    {ts rest : List Token} (h : readSynonyms kind bound declared ts = .ok (declared', rest))
    (hnodup : (declared.map Prod.fst).Nodup) :
    ∃ used semicolon names, ts = used ++ semicolon :: rest ∧
      Separated IsComma Synonym used names ∧ semicolon.kind = .semicolon ∧
      declared' = declared ++ names.map (fun name => (name, kind)) ∧
      (declared'.map Prod.fst).Nodup := by
  induction bound generalizing declared ts with
  | zero => cases h
  | succ bound ih =>
    rw [readSynonyms] at h
    obtain ⟨⟨name, ts₁⟩, hname, h⟩ := exists_of_bind_eq_ok h
    obtain ⟨hts, hkind⟩ := of_expectKind hname
    dsimp only at h
    split at h
    · cases h
    next hfresh =>
    have hfresh := fun hmem => hfresh (isSome_lookup_iff.mpr hmem)
    have hnodup' : ((declared ++ [(name.text, kind)]).map Prod.fst).Nodup := by
      rw [List.map_append, List.nodup_append]
      refine ⟨hnodup, by simp, fun x hx y hy heq => ?_⟩
      obtain rfl : y = name.text := List.mem_singleton.mp hy
      exact hfresh (heq ▸ hx)
    split at h
    · next hcomma =>
      obtain ⟨comma, hts₁, hcomma⟩ := exists_of_startsWith hcomma
      obtain ⟨used, semicolon, names, hts₂, hnames, hsemicolon, hdeclared, hnodup'⟩ := ih h hnodup'
      refine ⟨name :: comma :: used, semicolon, name.text :: names, ?_, ?_, hsemicolon, ?_, hnodup'⟩
      · rw [hts, hts₁, hts₂]
        rfl
      · exact .more (.intro hkind) hcomma hnames
      · simp [hdeclared]
    · obtain ⟨⟨semicolon, ts₂⟩, hsemicolon, h⟩ := exists_of_bind_eq_ok h
      obtain ⟨rfl, rfl⟩ := Prod.mk.inj (Except.ok.inj h)
      obtain ⟨hts₁, hkind'⟩ := of_expectKind hsemicolon
      exact ⟨[name], semicolon, [name.text], by simp [hts, hts₁], .one (.intro hkind), hkind', rfl,
        hnodup'⟩

theorem of_readDeclarations {bound : Nat} {declared declared' : Declarations}
    {ts rest : List Token} (h : readDeclarations bound declared ts = .ok (declared', rest))
    (hnodup : (declared.map Prod.fst).Nodup) (hts : ∀ t ∈ ts, t.IsLexical) :
    ∃ used ds, ts = used ++ rest ∧ Repeated Declaration used ds ∧
      declared' = declared ++ ds.flatten ∧ (declared'.map Prod.fst).Nodup := by
  induction bound generalizing declared ts with
  | zero =>
    obtain ⟨rfl, rfl⟩ := Prod.mk.inj (Except.ok.inj h)
    exact ⟨[], [], rfl, .nil, by simp, hnodup⟩
  | succ bound ih =>
    rw [readDeclarations] at h
    split at h
    · obtain ⟨rfl, rfl⟩ := Prod.mk.inj (Except.ok.inj h)
      exact ⟨[], [], rfl, .nil, by simp, hnodup⟩
    · next kind ts₁ hahead =>
      obtain ⟨⟨declared₁, ts₂⟩, hsynonyms, h⟩ := exists_of_bind_eq_ok h
      obtain ⟨entity, hentity, hderived⟩ := of_declarationAhead? hahead hts
      obtain ⟨used, semicolon, names, hts₁, hnames, hsemicolon, hdeclared₁, hnodup₁⟩ :=
        of_readSynonyms hsynonyms hnodup
      have hts₂ : ts = (entity ++ used ++ [semicolon]) ++ ts₂ := by simp [hentity, hts₁]
      obtain ⟨more, ds, hmore, hds, hdeclared', hnodup'⟩ :=
        ih h hnodup₁ (isLexical_of_append hts₂ hts)
      refine ⟨_, _, ?_, .cons (.intro hderived hnames hsemicolon) hds, ?_, hnodup'⟩
      · rw [hts₂, hmore, List.append_assoc _ more]
      · simp [hdeclared', hdeclared₁]

theorem readSynonyms_eq {kind : EntityKind} {us rest : List Token} {semicolon : Token}
    {names : List String} (h : Separated IsComma Synonym us names)
    (hsemicolon : semicolon.kind = .semicolon) {bound : Nat} (hbound : us.length ≤ bound)
    {declared : Declarations}
    (hnodup : ((declared ++ names.map fun name => (name, kind)).map Prod.fst).Nodup) :
    readSynonyms kind bound declared (us ++ semicolon :: rest) =
      .ok (declared ++ names.map (fun name => (name, kind)), rest) := by
  have hfresh : ∀ {name : String} {names : List String} {declared : Declarations},
      ((declared ++ (name :: names).map fun name => (name, kind)).map Prod.fst).Nodup →
        ¬(declared.lookup name).isSome = true := by
    intro name names declared hnodup hsome
    rw [List.map_append, List.nodup_append] at hnodup
    exact hnodup.2.2 name (isSome_lookup_iff.mp hsome) name (by simp) rfl
  induction h generalizing bound declared with
  | @one us name hname =>
    obtain ⟨ht⟩ := hname
    cases bound with
    | zero => simp at hbound
    | succ bound =>
      have hnocomma : startsWith .comma (semicolon :: rest) = false := by
        simp [startsWith, hsemicolon]
      simp only [List.singleton_append, readSynonyms, expectKind_of_kind ht, ok_bind,
        if_neg (hfresh hnodup), hnocomma, expectKind_of_kind hsemicolon]
      rfl
  | @more us vs comma name names hname hcomma hnames ih =>
    obtain @⟨t, ht⟩ := hname
    cases bound with
    | zero => simp at hbound
    | succ bound =>
      simp only [List.singleton_append, List.length_cons] at hbound
      have hstarts : startsWith .comma (comma :: (vs ++ semicolon :: rest)) = true :=
        decide_eq_true hcomma
      have hrest : readSynonyms kind bound (declared ++ [(t.text, kind)])
          (vs ++ semicolon :: rest) = .ok (declared ++ [(t.text, kind)] ++
            names.map (fun name => (name, kind)), rest) :=
        ih (by omega) (by simpa using hnodup)
      simp only [List.cons_append, List.nil_append, readSynonyms, expectKind_of_kind ht, ok_bind,
        if_neg (hfresh hnodup), hstarts, if_true, List.tail_cons, hrest]
      simp

theorem exists_name_of_separated {separator : Token → Prop} {us : List Token} {names : List String}
    (h : Separated separator Synonym us names) : ∃ u us', us = u :: us' ∧ u.kind = .name := by
  cases h with
  | one hname =>
    obtain ⟨ht⟩ := hname
    exact ⟨_, _, rfl, ht⟩
  | more hname =>
    obtain ⟨ht⟩ := hname
    exact ⟨_, _, rfl, ht⟩

theorem readDeclarations_eq {ts rest : List Token} {word : Token} {ds : List Declarations}
    (h : Repeated Declaration ts ds) (hword : word.isWord "Select" = true) {bound : Nat}
    (hbound : ts.length ≤ bound) {declared : Declarations}
    (hnodup : ((declared ++ ds.flatten).map Prod.fst).Nodup) :
    readDeclarations bound declared (ts ++ word :: rest) =
      .ok (declared ++ ds.flatten, word :: rest) := by
  induction h generalizing bound declared with
  | nil =>
    cases bound with
    | zero => simp [readDeclarations]
    | succ bound => simp [readDeclarations, declarationAhead?_of_select hword]
  | @cons ts us d ds hd hds ih =>
    obtain @⟨ts, vs, semicolon, kind, names, hentity, hnames, hsemicolon⟩ := hd
    obtain ⟨v, vs, rfl, hv⟩ := exists_name_of_separated hnames
    simp only [List.length_append, List.length_cons, List.length_nil] at hbound
    cases bound with
    | zero => omega
    | succ bound =>
      rw [List.flatten_cons, ← List.append_assoc] at hnodup
      have hsynonyms : readSynonyms kind bound declared
          (v :: vs ++ semicolon :: (us ++ word :: rest)) =
            .ok (declared ++ names.map (fun name => (name, kind)), us ++ word :: rest) := by
        refine readSynonyms_eq hnames hsemicolon (by simp; omega) ?_
        rw [List.map_append, List.nodup_append] at hnodup
        exact hnodup.1
      have hrest := @ih bound (by omega) _ hnodup
      have hahead : declarationAhead? (ts ++ v :: (vs ++ semicolon :: (us ++ word :: rest))) =
          some (kind, v :: (vs ++ semicolon :: (us ++ word :: rest))) :=
        declarationAhead?_of_designEntity hentity hv
      simp only [List.append_assoc, List.cons_append, List.nil_append] at hsynonyms ⊢
      rw [readDeclarations, hahead]
      simp only [hsynonyms, ok_bind, hrest]
      simp

/-! ## Reading attributes and results -/

theorem isStatement_and_ne_progLine_iff (kind : EntityKind) :
    (kind.isStatement && decide (kind ≠ .progLine)) = true ↔
      kind ∈ [EntityKind.stmt, .read, .print, .call, .whileLoop, .ifElse, .assign] := by
  cases kind <;> decide

theorem ofName?_eq_some_iff {name : String} {kind : EntityKind} {attr : Attribute} :
    Attribute.ofName? name kind = some attr ↔ HasAttribute kind name attr := by
  constructor
  · intro h
    unfold Attribute.ofName? at h
    split at h
    case h_7 =>
      split at h
      · next hkind =>
        obtain rfl := Option.some.inj h
        exact .stmtNumber ((isStatement_and_ne_progLine_iff _).mp hkind)
      · cases h
    case h_8 => cases h
    all_goals
      obtain rfl := Option.some.inj h
      constructor
  · intro h
    cases h with
    | stmtNumber hkind => exact if_pos ((isStatement_and_ne_progLine_iff kind).mpr hkind)
    | _ => rfl

theorem of_readAttribute {kind : EntityKind} {synonym : String} {ts rest : List Token}
    {attr : Attribute} (h : readAttribute kind synonym ts = .ok (attr, rest))
    (hts : ∀ t ∈ ts, t.IsLexical) :
    ∃ used name, ts = used ++ rest ∧ AttributeName used name ∧ HasAttribute kind name attr := by
  obtain ⟨⟨name, ts₁⟩, hname, h⟩ := exists_of_bind_eq_ok h
  dsimp only at h
  split at h
  · next attr' hattr =>
    obtain ⟨rfl, rfl⟩ := Prod.mk.inj (Except.ok.inj h)
    have hattr := ofName?_eq_some_iff.mp hattr
    obtain ⟨⟨first, ts₂⟩, hfirst, hname⟩ := exists_of_bind_eq_ok hname
    obtain ⟨hts₁, hkind⟩ := of_expectKind hfirst
    dsimp only at hname
    split at hname
    · next hstmt =>
      obtain ⟨⟨hash, ts₃⟩, hhash, hname⟩ := exists_of_bind_eq_ok hname
      obtain ⟨rfl, rfl⟩ := Prod.mk.inj (Except.ok.inj hname)
      obtain ⟨hts₂, hkind'⟩ := of_expectKind hhash
      exact ⟨[first, hash], "stmt#", by simp [hts₁, hts₂],
        .number (isWord_iff.mpr ⟨hkind, hstmt⟩) hkind', hattr⟩
    · obtain ⟨rfl, rfl⟩ := Prod.mk.inj (Except.ok.inj hname)
      refine ⟨[first], first.text, hts₁, .word ?_ (isWord_iff.mpr ⟨hkind, rfl⟩), hattr⟩
      -- a hash sign is not part of a name
      have halpha := ((hts first (by simp [hts₁])).isName hkind).isAlphanum
      generalize first.text = text at hattr halpha
      cases hattr with
      | stmtNumber => exact absurd (halpha '#' (by decide)) (by decide)
      | _ => decide
  · cases h

theorem readAttribute_eq {kind : EntityKind} {synonym name : String} {ts rest : List Token}
    {attr : Attribute} (hname : AttributeName ts name) (hattr : HasAttribute kind name attr) :
    readAttribute kind synonym (ts ++ rest) = .ok (attr, rest) := by
  have hread : readAttributeName (ts ++ rest) = .ok (name, rest) := by
    cases hname with
    | @word t text hmem hword =>
      obtain ⟨hkind, rfl⟩ := isWord_iff.mp hword
      have hstmt : t.text ≠ "stmt" := by
        rintro heq
        rw [heq] at hmem
        exact absurd hmem (by decide)
      simp only [List.singleton_append, readAttributeName, expectKind_of_kind hkind, ok_bind,
        if_neg hstmt]
      rfl
    | @number t u ht hu =>
      obtain ⟨hkind, htext⟩ := isWord_iff.mp ht
      simp only [List.cons_append, List.nil_append, readAttributeName, expectKind_of_kind hkind,
        ok_bind, if_pos htext, expectKind_of_kind hu]
      rfl
  rw [readAttribute, hread, ok_bind]
  simp only [ofName?_eq_some_iff.mpr hattr]
  rfl

/-- What comes after a synonym that has no attribute. -/
def NoDot (ts : List Token) : Prop :=
  startsWith .dot ts = false

section Readers

variable {declared : Declarations}

theorem asksBoolean_iff {t : Token} {ts : List Token} : asksBoolean declared (t :: ts) = true ↔
    t.isWord "BOOLEAN" = true ∧ ∀ kind, ("BOOLEAN", kind) ∉ declared := by
  rw [asksBoolean, Bool.and_eq_true]
  refine and_congr_right fun _ => ?_
  rw [Option.isNone_iff_eq_none, List.lookup_eq_none_iff]
  constructor
  · intro h kind hmem
    simpa using h _ hmem
  · rintro h ⟨x, kind⟩ hmem
    refine bne_iff_ne.mpr ?_
    rintro rfl
    exact h kind hmem

/-- A synonym comes first in an element. -/
theorem exists_of_selected {ts : List Token} {e : Element} (h : Selected declared ts e) :
    ∃ t ts' kind, ts = t :: ts' ∧ t.kind = .name ∧ (t.text, kind) ∈ declared := by
  cases h with
  | plain ht hdeclared => exact ⟨_, _, _, rfl, ht, hdeclared⟩
  | attr href =>
    obtain ⟨ht, hdeclared, -, -, -⟩ := href
    exact ⟨_, _, _, rfl, ht, hdeclared⟩

theorem lookup_eq_of_entityOf {x : String} {kind : EntityKind}
    (h : entityOf declared x = .ok kind) : declared.lookup x = some kind := by
  unfold entityOf at h
  split at h
  · next hlookup =>
    obtain rfl := Except.ok.inj h
    exact hlookup
  · cases h

variable (hnodup : (declared.map Prod.fst).Nodup)

include hnodup

/-- What a synonym is declared for is found. -/
theorem lookup_eq_of_mem {x : String} {kind : EntityKind} (h : (x, kind) ∈ declared) :
    declared.lookup x = some kind := by
  obtain ⟨l₁, l₂, rfl⟩ := List.append_of_mem h
  refine List.lookup_eq_some_iff.mpr ⟨l₁, l₂, rfl, fun entry hentry => ?_⟩
  rw [List.map_append, List.nodup_append] at hnodup
  refine bne_iff_ne.mpr fun heq => ?_
  exact hnodup.2.2 entry.1 (List.mem_map_of_mem hentry) x (by simp) heq.symm

theorem entityOf_eq_ok_iff {x : String} {kind : EntityKind} :
    entityOf declared x = .ok kind ↔ (x, kind) ∈ declared := by
  constructor
  · intro h
    obtain ⟨l₁, l₂, hl, -⟩ := List.lookup_eq_some_iff.mp (lookup_eq_of_entityOf h)
    simp [hl]
  · intro h
    rw [entityOf, lookup_eq_of_mem hnodup h]

theorem attributeRef_of_readAttribute {t : Token} {ts rest : List Token} {kind : EntityKind}
    {attr : Attribute} (ht : t.kind = .name) (hentity : entityOf declared t.text = .ok kind)
    (hdot : startsWith .dot ts = true) (h : readAttribute kind t.text ts.tail = .ok (attr, rest))
    (hts : ∀ u ∈ ts, u.IsLexical) :
    ∃ used, t :: ts = used ++ rest ∧ AttributeRef declared used (t.text, attr) := by
  obtain ⟨dot, hdot, hkind⟩ := exists_of_startsWith hdot
  obtain ⟨used, name, htail, hname, hattr⟩ := of_readAttribute h (isLexical_tail hts)
  refine ⟨t :: dot :: used, by rw [hdot, htail]; rfl, ?_⟩
  exact .intro ht ((entityOf_eq_ok_iff hnodup).mp hentity) hkind hname hattr

theorem isSound_readElement : IsSoundOnLexical (Selected declared) (readElement declared) := by
  intro ts e rest h hts
  obtain ⟨⟨t, ts₁⟩, ht, h⟩ := exists_of_bind_eq_ok h
  obtain ⟨kind, hentity, h⟩ := exists_of_bind_eq_ok h
  obtain ⟨hts₁, hkind⟩ := of_expectKind ht
  dsimp only at h
  split at h
  · next hdot =>
    obtain ⟨⟨attr, ts₂⟩, hattr, h⟩ := exists_of_bind_eq_ok h
    obtain ⟨rfl, rfl⟩ := Prod.mk.inj (Except.ok.inj h)
    obtain ⟨used, hused, href⟩ := attributeRef_of_readAttribute hnodup hkind hentity hdot hattr
      (fun u hu => hts u (hts₁ ▸ List.mem_cons_of_mem t hu))
    exact ⟨used, hts₁.trans hused, .attr href⟩
  · obtain ⟨rfl, rfl⟩ := Prod.mk.inj (Except.ok.inj h)
    exact ⟨[t], hts₁, .plain hkind ((entityOf_eq_ok_iff hnodup).mp hentity)⟩

theorem isComplete_readElement (bound : Nat) :
    IsComplete (Selected declared) NoDot bound (readElement declared) := by
  intro ts e h _ rest hrest
  cases h with
  | plain ht hdeclared =>
    have hdot : startsWith .dot rest = false := hrest
    simp only [List.singleton_append, readElement, expectKind_of_kind ht, ok_bind,
      (entityOf_eq_ok_iff hnodup).mpr hdeclared, hdot]
    rfl
  | attr href =>
    obtain @⟨t, dot, ts, kind, name, attr, ht, hdeclared, hdot, hname, hattr⟩ := href
    have hstarts : startsWith .dot (dot :: (ts ++ rest)) = true := decide_eq_true hdot
    simp only [List.cons_append, readElement, expectKind_of_kind ht, ok_bind,
      (entityOf_eq_ok_iff hnodup).mpr hdeclared, hstarts, if_true, List.tail_cons,
      readAttribute_eq hname hattr]
    rfl

theorem of_readElements {bound : Nat} {ts rest : List Token} {es : List Element}
    (h : readElements declared bound ts = .ok (es, rest)) (hts : ∀ t ∈ ts, t.IsLexical) :
    ∃ used closing, ts = used ++ closing :: rest ∧
      Separated IsComma (Selected declared) used es ∧ closing.kind = .gt := by
  induction bound generalizing ts es with
  | zero => cases h
  | succ bound ih =>
    rw [readElements] at h
    obtain ⟨⟨first, ts₁⟩, hfirst, h⟩ := exists_of_bind_eq_ok h
    obtain ⟨used, hts₁, hused⟩ := isSound_readElement hnodup hfirst hts
    have hlexical := isLexical_of_append hts₁ hts
    dsimp only at h
    split at h
    · next hcomma =>
      obtain ⟨⟨others, ts₂⟩, hothers, h⟩ := exists_of_bind_eq_ok h
      obtain ⟨rfl, rfl⟩ := Prod.mk.inj (Except.ok.inj h)
      obtain ⟨comma, hts₂, hcomma⟩ := exists_of_startsWith hcomma
      obtain ⟨more, closing, htail, hmore, hclosing⟩ := ih hothers (isLexical_tail hlexical)
      refine ⟨used ++ comma :: more, closing, ?_, .more hused hcomma hmore, hclosing⟩
      rw [hts₁, hts₂, htail]
      simp
    · obtain ⟨⟨closing, ts₂⟩, hclosing, h⟩ := exists_of_bind_eq_ok h
      obtain ⟨rfl, rfl⟩ := Prod.mk.inj (Except.ok.inj h)
      obtain ⟨hts₂, hkind⟩ := of_expectKind hclosing
      exact ⟨used, closing, by simp [hts₁, hts₂], .one hused, hkind⟩

theorem readElements_eq {ts rest : List Token} {es : List Element} {closing : Token}
    (h : Separated IsComma (Selected declared) ts es) (hclosing : closing.kind = .gt) {bound : Nat}
    (hbound : ts.length < bound) :
    readElements declared bound (ts ++ closing :: rest) = .ok (es, rest) := by
  induction h generalizing bound with
  | @one ts e he =>
    obtain ⟨bound, rfl⟩ : ∃ b, bound = b + 1 := ⟨bound - 1, by omega⟩
    have hread := isComplete_readElement hnodup _ he (Nat.le_refl _)
      (show NoDot (closing :: rest) by simp [NoDot, startsWith, hclosing])
    have hno : startsWith .comma (closing :: rest) = false := by simp [startsWith, hclosing]
    rw [readElements, hread]
    simp only [ok_bind, hno, expectKind_of_kind hclosing]
    rfl
  | @more ts us comma e es he hcomma hes ih =>
    obtain ⟨bound, rfl⟩ : ∃ b, bound = b + 1 := ⟨bound - 1, by omega⟩
    simp only [List.length_append, List.length_cons] at hbound
    have hcomma : comma.kind = .comma := hcomma
    have hread := isComplete_readElement hnodup _ he (Nat.le_refl _)
      (show NoDot (comma :: (us ++ closing :: rest)) by simp [NoDot, startsWith, hcomma])
    have hstarts : startsWith .comma (comma :: (us ++ closing :: rest)) = true :=
      decide_eq_true hcomma
    have hrest := @ih bound (by omega)
    rw [List.append_assoc, List.cons_append, readElements, hread]
    simp only [ok_bind, hstarts, if_true, List.tail_cons, hrest]
    rfl

theorem isSound_readResult (bound : Nat) :
    IsSoundOnLexical (Result declared) (readResult declared bound) := by
  intro ts es rest h hts
  unfold readResult at h
  split at h
  · next hboolean =>
    obtain ⟨rfl, rfl⟩ := Prod.mk.inj (Except.ok.inj h)
    cases ts with
    | nil => cases hboolean
    | cons t ts =>
      obtain ⟨ht, hfree⟩ := asksBoolean_iff.mp hboolean
      exact ⟨[t], rfl, .boolean ht hfree⟩
  · split at h
    · next hopening =>
      obtain ⟨opening, hts₁, hopening⟩ := exists_of_startsWith hopening
      obtain ⟨used, closing, htail, hused, hclosing⟩ :=
        of_readElements hnodup h (isLexical_tail hts)
      refine ⟨opening :: used ++ [closing], ?_, .tuple hopening hused hclosing⟩
      rw [hts₁, htail]
      simp
    · obtain ⟨⟨e, ts₁⟩, he, h⟩ := exists_of_bind_eq_ok h
      obtain ⟨rfl, rfl⟩ := Prod.mk.inj (Except.ok.inj h)
      obtain ⟨used, hts₁, hused⟩ := isSound_readElement hnodup he hts
      exact ⟨used, hts₁, .single hused⟩

theorem isComplete_readResult (bound : Nat) :
    IsComplete (Result declared) NoDot bound (readResult declared bound) := by
  intro ts es h hlength rest hrest
  cases h with
  | @boolean t ht hfree =>
    rw [List.singleton_append, readResult, if_pos (asksBoolean_iff.mpr ⟨ht, hfree⟩)]
    rfl
  | @single ts e he =>
    have hread := isComplete_readElement hnodup _ he (Nat.le_refl _) hrest
    obtain ⟨t, ts, kind, rfl, ht, hdeclared⟩ := exists_of_selected he
    -- a synonym of that name is not the word for a yes or no
    have hno : ¬asksBoolean declared (t :: (ts ++ rest)) = true := by
      intro hboolean
      obtain ⟨hword, hfree⟩ := asksBoolean_iff.mp hboolean
      rw [(isWord_iff.mp hword).2] at hdeclared
      exact hfree kind hdeclared
    have hlt : ¬startsWith .lt (t :: (ts ++ rest)) = true := by simp [startsWith, ht]
    rw [List.cons_append] at hread ⊢
    rw [readResult, if_neg hno, if_neg hlt, hread]
    rfl
  | @tuple opening closing ts es hopening hes hclosing =>
    simp only [List.cons_append, List.length_cons, List.length_append] at hlength
    have hread : readElements declared bound (ts ++ closing :: rest) = .ok (es, rest) :=
      readElements_eq hnodup hes hclosing (by omega)
    have hno : ¬asksBoolean declared (opening :: (ts ++ closing :: rest)) = true := by
      intro hboolean
      have hname := (isWord_iff.mp (asksBoolean_iff.mp hboolean).1).1
      rw [hopening] at hname
      cases hname
    have hlt : startsWith .lt (opening :: (ts ++ closing :: rest)) = true :=
      decide_eq_true hopening
    simp only [List.cons_append, List.append_assoc, List.nil_append]
    rw [readResult, if_neg hno, if_pos hlt, List.tail_cons, hread]

end Readers

end QueryGrammar

end ProgramQuery
