import ProgramQuery.Facts.Matching
import ProgramQuery.Proofs.FactsWellFormed

/-!
# Patterns match by the structure of expressions

The expressions in assignments are found by their canonical texts. Such a text has parentheses
around every operation, so it can be taken apart again in one way only: two expressions have the
same canonical text exactly if their trees differ in nothing but line numbers. Hence a pattern
matches an assignment by the tree of its right side, and as a part by one of the trees below it.

## Main definitions

- `Node.unlined`: a tree without its line numbers.
- `Node.Assigns`: what an assignment of a program assigns, and to which variable.

## Main statements

- `Node.unlined_eq_of_canonical_eq`: the canonical text of an expression determines its tree.
- `assignsMatching_iff_unlined`: patterns match by the structure of expressions.
-/

namespace ProgramQuery

namespace Node

/-! ## Trees without lines -/

mutual

/-- The tree without its line numbers. -/
def unlined : Node → Node
  | ⟨kind, _, name, constant, children⟩ => ⟨kind, none, name, constant, unlinedAll children⟩

/-- Some trees without their line numbers. -/
def unlinedAll : List Node → List Node
  | [] => []
  | n :: ns => n.unlined :: unlinedAll ns

end

theorem unlined_binary (kind : NodeKind) (line : Nat) (left right : Node) :
    (binary kind line left right).unlined =
      ⟨kind, none, "", "", [left.unlined, right.unlined]⟩ := by
  simp [binary, unlined, unlinedAll]

theorem unlined_ofName (t : Token) : (ofName t).unlined = ⟨.variableRef, none, t.text, "", []⟩ := by
  simp [ofName, unlined, unlinedAll]

theorem unlined_ofInteger (t : Token) :
    (ofInteger t).unlined = ⟨.constant, none, "", t.text, []⟩ := by
  simp [ofInteger, unlined, unlinedAll]

/-! ## Canonical texts -/

theorem canonical_ofName (t : Token) : (ofName t).canonical = t.text := by
  simp [ofName, canonical]

theorem canonical_ofInteger (t : Token) : (ofInteger t).canonical = t.text := by
  simp [ofInteger, canonical]

theorem canonical_binary {kind : NodeKind}
    (hkind : kind ∈ [NodeKind.plus, .minus, .multiply, .divide, .modulo]) (line : Nat)
    (left right : Node) : (binary kind line left right).canonical =
      "(" ++ left.canonical ++ kind.operator.getD "" ++ right.canonical ++ ")" := by
  cases kind <;> simp at hkind <;> rw [binary, canonical] <;> simp

theorem exists_operator_eq : ∀ kind ∈ [NodeKind.plus, .minus, .multiply, .divide, .modulo],
    ∃ c : Char, (kind.operator.getD "").toList = [c] ∧ c.isAlphanum = false := by
  intro kind hkind
  cases kind <;> simp at hkind <;> exact ⟨_, rfl, by decide⟩

theorem eq_of_operator_eq : ∀ kind ∈ [NodeKind.plus, .minus, .multiply, .divide, .modulo],
    ∀ kind' ∈ [NodeKind.plus, .minus, .multiply, .divide, .modulo],
      (kind.operator.getD "").toList = (kind'.operator.getD "").toList → kind = kind' := by
  decide

/-- The letters and digits of a name or a constant. -/
def IsWord (s : String) : Prop :=
  s.toList ≠ [] ∧ ∀ c ∈ s.toList, c.isAlphanum = true

theorem isWord_canonical_ofName {t : Token} (ht : t.IsLexical) (hkind : t.kind = .name) :
    IsWord (ofName t).canonical := by
  obtain ⟨c, cs, htext, -⟩ := ht.isName hkind
  rw [canonical_ofName]
  exact ⟨by simp [htext], (ht.isName hkind).isAlphanum⟩

theorem isWord_canonical_ofInteger {t : Token} (ht : t.IsLexical) (hkind : t.kind = .integer) :
    IsWord (ofInteger t).canonical := by
  rw [canonical_ofInteger]
  exact ⟨(ht.isNumber hkind).ne_nil, (ht.isNumber hkind).isAlphanum⟩

/-- The text of a name or a constant is a word, and that of an operation starts with a
parenthesis. -/
theorem IsExpression.canonical_cases {n : Node} (h : n.IsExpression Token.IsLexical) :
    IsWord n.canonical ∨ ∃ rest, n.canonical.toList = '(' :: rest := by
  cases h with
  | name ht hkind => exact .inl (isWord_canonical_ofName ht hkind)
  | integer ht hkind => exact .inl (isWord_canonical_ofInteger ht hkind)
  | operation hkind =>
    rw [canonical_binary hkind]
    simp only [String.toList_append, List.append_assoc]
    exact .inr ⟨_, rfl⟩

/-- A word is the canonical text of one name or constant only. -/
theorem unlined_eq_of_word_eq {n m : Node} (hn : n.IsExpression Token.IsLexical)
    (hm : m.IsExpression Token.IsLexical) (hword : IsWord n.canonical)
    (h : n.canonical = m.canonical) : n.unlined = m.unlined := by
  have hbracket {kind : NodeKind} {line : Nat} {left right : Node}
      (hkind : kind ∈ [NodeKind.plus, .minus, .multiply, .divide, .modulo])
      (heq : n.canonical = (binary kind line left right).canonical) : False := by
    rw [heq, canonical_binary hkind] at hword
    exact absurd (hword.2 '(' (by simp)) (by decide)
  cases hn with
  | name ht hkind =>
    cases hm with
    | name =>
      rw [canonical_ofName, canonical_ofName] at h
      rw [unlined_ofName, unlined_ofName, h]
    | integer ht' hkind' =>
      rw [canonical_ofName, canonical_ofInteger] at h
      exact absurd (h ▸ ht'.isNumber hkind') (not_isNumber_of_isName (ht.isName hkind))
    | operation hkind' => exact (hbracket hkind' h).elim
  | integer ht hkind =>
    cases hm with
    | name ht' hkind' =>
      rw [canonical_ofInteger, canonical_ofName] at h
      exact absurd (h ▸ ht.isNumber hkind) (not_isNumber_of_isName (ht'.isName hkind'))
    | integer =>
      rw [canonical_ofInteger, canonical_ofInteger] at h
      rw [unlined_ofInteger, unlined_ofInteger, h]
    | operation hkind' => exact (hbracket hkind' h).elim
  | operation hkind => exact (hbracket hkind rfl).elim

section Append

variable {a a' : Char} {r r' : List Char}

theorem unlined_eq_of_word_append_eq {n m : Node} (hn : n.IsExpression Token.IsLexical)
    (hm : m.IsExpression Token.IsLexical) (hword : IsWord n.canonical)
    (ha : a.isAlphanum = false) (ha' : a'.isAlphanum = false)
    (h : n.canonical.toList ++ a :: r = m.canonical.toList ++ a' :: r') :
    n.unlined = m.unlined ∧ a :: r = a' :: r' := by
  rcases hm.canonical_cases with hword' | ⟨rest, hrest⟩
  · have htext := (append_stop_inj hword.2 hword'.2 ha ha' h).1
    rw [htext] at h
    exact ⟨unlined_eq_of_word_eq hn hm hword (String.toList_inj.mp htext),
      List.append_cancel_left h⟩
  · -- a word does not start with a parenthesis
    obtain ⟨c, cs, hcs⟩ := List.exists_cons_of_ne_nil hword.1
    rw [hcs, hrest] at h
    have hmem : '(' ∈ n.canonical.toList := by rw [hcs, (List.cons.inj h).1]; simp
    exact absurd (hword.2 '(' hmem) (by decide)

/-- Canonical texts that stand before a sign can be told apart from what comes after them, and
determine their trees. -/
theorem unlined_eq_of_append_eq {n m : Node} (hn : n.IsExpression Token.IsLexical)
    (hm : m.IsExpression Token.IsLexical) (ha : a.isAlphanum = false) (ha' : a'.isAlphanum = false)
    (h : n.canonical.toList ++ a :: r = m.canonical.toList ++ a' :: r') :
    n.unlined = m.unlined ∧ a :: r = a' :: r' := by
  induction hn generalizing m a a' r r' with
  | name ht hkind =>
    exact unlined_eq_of_word_append_eq (.name ht hkind) hm (isWord_canonical_ofName ht hkind)
      ha ha' h
  | integer ht hkind =>
    exact unlined_eq_of_word_append_eq (.integer ht hkind) hm
      (isWord_canonical_ofInteger ht hkind) ha ha' h
  | @operation kind line left right hkind hleft hright ihl ihr =>
    rcases hm with ⟨ht, hname⟩ | ⟨ht, hinteger⟩ | ⟨hkind', hleft', hright'⟩
    · obtain ⟨hunlined, hrest⟩ := unlined_eq_of_word_append_eq (.name ht hname)
        (.operation hkind hleft hright) (isWord_canonical_ofName ht hname) ha' ha h.symm
      exact ⟨hunlined.symm, hrest.symm⟩
    · obtain ⟨hunlined, hrest⟩ := unlined_eq_of_word_append_eq (.integer ht hinteger)
        (.operation hkind hleft hright) (isWord_canonical_ofInteger ht hinteger) ha' ha h.symm
      exact ⟨hunlined.symm, hrest.symm⟩
    · -- the left operands end at the operators, and the right ones at the parentheses
      obtain ⟨sign, hsign, hstop⟩ := exists_operator_eq _ hkind
      obtain ⟨sign', hsign', hstop'⟩ := exists_operator_eq _ hkind'
      rw [canonical_binary hkind, canonical_binary hkind'] at h
      simp only [String.toList_append, hsign, hsign', List.append_assoc, List.singleton_append]
        at h
      obtain ⟨hl, htail⟩ := ihl hleft' hstop hstop' (List.append_cancel_left h)
      obtain ⟨heq, htail⟩ := List.cons.inj htail
      have hparen : ')'.isAlphanum = false := by decide
      obtain ⟨hr, hrest⟩ := ihr hright' hparen hparen htail
      obtain rfl := eq_of_operator_eq _ hkind _ hkind' (by rw [hsign, hsign', heq])
      exact ⟨by rw [unlined_binary, unlined_binary, hl, hr], (List.cons.inj hrest).2⟩

end Append

/-- The canonical text of an expression determines its tree up to line numbers. -/
theorem unlined_eq_of_canonical_eq {n m : Node} (hn : n.IsExpression Token.IsLexical)
    (hm : m.IsExpression Token.IsLexical) (h : n.canonical = m.canonical) :
    n.unlined = m.unlined := by
  have hparen : ')'.isAlphanum = false := by decide
  have happend : n.canonical.toList ++ [')'] = m.canonical.toList ++ [')'] := by rw [h]
  exact (unlined_eq_of_append_eq hn hm hparen hparen happend).1

section Parts

variable {good : Token → Prop}

theorem IsExpression.canonical_unlined {n : Node} (h : n.IsExpression good) :
    n.unlined.canonical = n.canonical := by
  induction h with
  | name => simp [unlined_ofName, canonical_ofName, canonical]
  | integer => simp [unlined_ofInteger, canonical_ofInteger, canonical]
  | @operation kind line left right hkind _ _ ihl ihr =>
    rw [canonical_binary hkind, unlined_binary, ← ihl, ← ihr]
    cases kind <;> simp at hkind <;> rw [canonical] <;> simp

/-- The canonical text of an expression is all that its tree says apart from line numbers. -/
theorem canonical_eq_iff {n m : Node} (hn : n.IsExpression Token.IsLexical)
    (hm : m.IsExpression Token.IsLexical) : n.canonical = m.canonical ↔ n.unlined = m.unlined := by
  constructor
  · exact unlined_eq_of_canonical_eq hn hm
  · intro h
    rw [← hn.canonical_unlined, h, hm.canonical_unlined]

/-- Expressions are recorded under their canonical texts. -/
theorem IsExpression.bracketed_eq {n : Node} (h : n.IsExpression good) :
    n.bracketed = n.canonical := by
  induction h with
  | name => simp [ofName, bracketed, canonical]
  | integer => simp [ofInteger, bracketed, canonical]
  | @operation kind line left right hkind _ _ ihl ihr =>
    rw [canonical_binary hkind, ← ihl, ← ihr]
    cases kind <;> simp at hkind <;> rw [binary, bracketed] <;> simp

theorem properParts_binary {kind : NodeKind}
    (hkind : kind ∈ [NodeKind.plus, .minus, .multiply, .divide, .modulo]) (line : Nat)
    (left right : Node) : (binary kind line left right).properParts =
      left.properParts ++ left :: (right.properParts ++ [right]) := by
  cases kind <;> simp at hkind <;> rw [binary, properParts] <;> simp

theorem exists_at?_iff_of_children {n m : Node} (h : n.children = []) :
    (∃ path, n.at? path = some m) ↔ m = n := by
  constructor
  · rintro ⟨_ | ⟨i, path⟩, hat⟩
    · exact (Option.some.inj hat).symm
    · simp [at?, h] at hat
  · rintro rfl
    exact ⟨[], rfl⟩

/-- An expression and its proper parts are the nodes of its tree. -/
theorem IsExpression.mem_properParts {n m : Node} (h : n.IsExpression good) :
    m = n ∨ m ∈ n.properParts ↔ ∃ path, n.at? path = some m := by
  induction h with
  | name =>
    rw [exists_at?_iff_of_children rfl]
    simp [ofName, properParts]
  | integer =>
    rw [exists_at?_iff_of_children rfl]
    simp [ofInteger, properParts]
  | @operation kind line left right hkind _ _ ihl ihr =>
    rw [properParts_binary hkind]
    constructor
    · intro h
      have h : m = binary kind line left right ∨ (m = left ∨ m ∈ left.properParts) ∨
          (m = right ∨ m ∈ right.properParts) := by
        simpa [or_comm, or_assoc, or_left_comm] using h
      rcases h with rfl | h | h
      · exact ⟨[], rfl⟩
      · obtain ⟨path, hat⟩ := ihl.mp h
        exact ⟨0 :: path, hat⟩
      · obtain ⟨path, hat⟩ := ihr.mp h
        exact ⟨1 :: path, hat⟩
    · -- the first index of the path tells which operand it leads into
      rintro ⟨_ | ⟨_ | _ | i, path⟩, hat⟩
      · exact .inl (Option.some.inj hat).symm
      · rcases ihl.mpr ⟨path, hat⟩ with rfl | h
        · simp
        · simp [h]
      · rcases ihr.mpr ⟨path, hat⟩ with rfl | h
        · simp
        · simp [h]
      · simp [binary, Node.at?] at hat

end Parts

/-- Statement `s` of the program assigns `value` to the variable `target`. -/
def Assigns (tree : Node) (s : Nat) (target : String) (value : Node) : Prop :=
  ∃ st ∈ tree.statements, st.number = s ∧ st.node.kind = .assign ∧
    ∃ left, st.node.children = [left, value] ∧ left.name = target

/-- An assignment has a left side and an expression. -/
theorem IsProgram.exists_children_of_assign {good : Token → Prop} {tree : Node}
    (h : tree.IsProgram good) {st : Statement} (hst : st ∈ tree.statements)
    (hkind : st.node.kind = .assign) :
    ∃ left value, st.node.children = [left, value] ∧ value.IsExpression good := by
  obtain ⟨number, path, node⟩ := st
  obtain ⟨hat, hstatement, -⟩ := mem_statements.mp hst
  cases (h.isWellFormed_of_at? hat).statement hstatement with
  | assign _ _ hvalue => exact ⟨_, _, rfl, hvalue⟩
  | named hnamed =>
    dsimp only at hkind
    simp [hkind] at hnamed
  | whileLoop | ifElse => cases hkind

/-- What a program assigns is an expression. -/
theorem Assigns.isExpression {good : Token → Prop} {tree value : Node} {s : Nat} {target : String}
    (htree : tree.IsProgram good) (h : tree.Assigns s target value) : value.IsExpression good := by
  obtain ⟨st, hst, -, hkind, left, hchildren, -⟩ := h
  obtain ⟨left', value', hchildren', hvalue⟩ := htree.exists_children_of_assign hst hkind
  rw [hchildren'] at hchildren
  obtain ⟨-, hvalues⟩ := List.cons.inj hchildren
  obtain ⟨rfl, -⟩ := List.cons.inj hvalues
  exact hvalue

end Node

/-! ## Recorded occurrences -/

section Occurrences

variable {good : Token → Prop} {tree : Node} {order : List String}

theorem IsExpression.partTexts_eq {value : Node} (h : value.IsExpression good) :
    value.partTexts = (value.properParts.map Node.canonical, value.canonical) := by
  rw [Node.partTexts_eq, h.bracketed_eq, Prod.mk.injEq, List.map_inj_left]
  refine ⟨fun part hpart => ?_, rfl⟩
  obtain ⟨path, hat⟩ := h.mem_properParts.mp (.inr hpart)
  exact (h.at? hat).bracketed_eq

/-- The expressions of an assignment, as they are recorded. -/
theorem mem_statement_occurrences {st : Statement} {left value : Node}
    (hchildren : st.node.children = [left, value]) (hvalue : value.IsExpression good)
    {o : Occurrence} : o ∈ st.occurrences ↔ st.number = o.statement ∧ left.name = o.target ∧
      (o.isPart = true ∧ (∃ part ∈ value.properParts, part.canonical = o.text) ∨
        o.isPart = false ∧ value.canonical = o.text) := by
  obtain ⟨text, target, s, isPart⟩ := o
  simp only [Statement.occurrences, hchildren, IsExpression.partTexts_eq hvalue, List.mem_append,
    List.mem_map, List.mem_singleton, exists_exists_and_eq_and, Occurrence.mk.injEq]
  constructor
  · rintro (⟨part, hpart, rfl, rfl, rfl, rfl⟩ | ⟨rfl, rfl, rfl, rfl⟩)
    · exact ⟨rfl, rfl, .inl ⟨rfl, part, hpart, rfl⟩⟩
    · exact ⟨rfl, rfl, .inr ⟨rfl, rfl⟩⟩
  · rintro ⟨rfl, rfl, ⟨rfl, part, hpart, rfl⟩ | ⟨rfl, rfl⟩⟩
    · exact .inl ⟨part, hpart, rfl, rfl, rfl, rfl⟩
    · exact .inr ⟨rfl, rfl, rfl, rfl⟩

/-- An expression is recorded for the assignments whose right side it is or is a part of. -/
theorem mem_occurrences_gather (htree : tree.IsProgram good) {text : String} {o : Occurrence} :
    o ∈ (Facts.gather tree order).occurrences.getD text [] ↔ o.text = text ∧
      ∃ value, tree.Assigns o.statement o.target value ∧
        (o.isPart = true ∧ (∃ part ∈ value.properParts, part.canonical = text) ∨
          o.isPart = false ∧ value.canonical = text) := by
  have htable : o ∈ (Facts.gather tree order).occurrences.getD text [] ↔
      (text, o) ∈ tree.occurrences.map fun o => (o.text, o) :=
    mem_getD_groupPairs
  have hpairs : (text, o) ∈ tree.occurrences.map (fun o => (o.text, o)) ↔
      o.text = text ∧ o ∈ tree.occurrences := by
    simp only [List.mem_map, Prod.mk.injEq]
    constructor
    · rintro ⟨o, ho, rfl, rfl⟩
      exact ⟨rfl, ho⟩
    · rintro ⟨rfl, ho⟩
      exact ⟨o, ho, rfl, rfl⟩
  rw [htable, hpairs]
  refine and_congr_right ?_
  rintro rfl
  constructor
  · intro ho
    obtain ⟨st, hst, ho⟩ := List.mem_flatMap.mp ho
    obtain ⟨hst, hkind⟩ := List.mem_filter.mp hst
    have hkind := of_decide_eq_true hkind
    obtain ⟨left, value, hchildren, hvalue⟩ := htree.exists_children_of_assign hst hkind
    obtain ⟨hnumber, hname, ho⟩ := (mem_statement_occurrences hchildren hvalue).mp ho
    exact ⟨value, ⟨st, hst, hnumber, hkind, left, hchildren, hname⟩, ho⟩
  · rintro ⟨value, hassigns, ho⟩
    have hvalue := hassigns.isExpression htree
    obtain ⟨st, hst, hnumber, hkind, left, hchildren, hname⟩ := hassigns
    refine List.mem_flatMap.mpr ⟨st, List.mem_filter.mpr ⟨hst, decide_eq_true hkind⟩, ?_⟩
    exact (mem_statement_occurrences hchildren hvalue).mpr ⟨hnumber, hname, ho⟩

end Occurrences

/-! ## Patterns -/

section Expression

variable {pattern : String} {expression : Node} (h : expressionTree pattern = .ok expression)

include h

theorem exists_of_expressionTree : ∃ ts, tokenize pattern = .ok ts ∧
    readExpression ts.length ts = .ok (expression, []) := by
  obtain ⟨ts, hts, h⟩ := exists_of_bind_eq_ok h
  refine ⟨ts, eq_ok_of_mapError hts, ?_⟩
  obtain ⟨⟨tree, rest⟩, hread, h⟩ := exists_of_bind_eq_ok (eq_ok_of_mapError h)
  cases rest with
  | nil =>
    obtain rfl := Except.ok.inj h
    exact hread
  | cons t rest => cases h

theorem isExpression_of_expressionTree : expression.IsExpression Token.IsLexical := by
  obtain ⟨ts, hts, hread⟩ := exists_of_expressionTree h
  exact Grammar.isExpression_of_expression (Grammar.readExpression_eq_iff.mp hread)
    (isLexical_of_tokenize hts)

/-- An expression is not blank. -/
theorem trimmed_ne_empty_of_expressionTree : trimmed pattern ≠ "" := by
  obtain ⟨ts, hts, hread⟩ := exists_of_expressionTree h
  by_contra hblank
  have hall : ∀ c ∈ pattern.toList, isBlank c = true := by
    intro c hc
    by_contra hno
    exact trimmed_ne_empty hc (Bool.eq_false_iff.mpr hno) hblank
  have hnil : tokenize pattern = .ok [] := scan_of_blank _ hall
  obtain rfl := Except.ok.inj (hts.symm.trans hnil)
  cases hread

theorem assignsMatching_eq (facts : Facts) (target : String) (asPart : Bool) :
    facts.assignsMatching target pattern asPart =
      ascending (((facts.occurrences.getD expression.canonical []).filter fun o =>
        (target = wildcard ∨ o.target = target) ∧ (asPart ∨ ¬o.isPart)).map
          Occurrence.statement) := by
  have htext : canonicalExpression pattern = .ok expression.canonical := by
    rw [canonicalExpression, h]
    rfl
  simp only [Facts.assignsMatching, if_neg (trimmed_ne_empty_of_expressionTree h), htext]

/-- The assignments with a pattern are those whose right side, or a part of it, has the tree of the
pattern. -/
theorem mem_assignsMatching_gather {tree : Node} {order : List String}
    (htree : tree.IsProgram Token.IsLexical) {target : String} {asPart : Bool} {s : Nat} :
    s ∈ (Facts.gather tree order).assignsMatching target pattern asPart ↔
      ∃ x value, tree.Assigns s x value ∧ (target = wildcard ∨ x = target) ∧
        (value.unlined = expression.unlined ∨
          asPart = true ∧ ∃ part ∈ value.properParts, part.unlined = expression.unlined) := by
  have hexpression := isExpression_of_expressionTree h
  have hpart {value part : Node} (hvalue : value.IsExpression Token.IsLexical)
      (hmem : part ∈ value.properParts) :
      part.canonical = expression.canonical ↔ part.unlined = expression.unlined := by
    obtain ⟨path, hat⟩ := hvalue.mem_properParts.mp (.inr hmem)
    exact Node.canonical_eq_iff (hvalue.at? hat) hexpression
  simp only [assignsMatching_eq h, mem_ascending, List.mem_map, List.mem_filter,
    decide_eq_true_eq, mem_occurrences_gather htree]
  constructor
  · rintro ⟨o, ⟨⟨-, value, hassigns, ho⟩, htarget, hwanted⟩, rfl⟩
    have hvalue := hassigns.isExpression htree
    refine ⟨o.target, value, hassigns, htarget, ?_⟩
    rcases ho with ⟨hisPart, part, hmem, htext⟩ | ⟨-, htext⟩
    · exact .inr ⟨hwanted.resolve_right (not_not.mpr hisPart), part, hmem,
        (hpart hvalue hmem).mp htext⟩
    · exact .inl ((Node.canonical_eq_iff hvalue hexpression).mp htext)
  · rintro ⟨x, value, hassigns, htarget, hmatch⟩
    have hvalue := hassigns.isExpression htree
    rcases hmatch with hwhole | ⟨hasPart, part, hmem, hunlined⟩
    · have htext := (Node.canonical_eq_iff hvalue hexpression).mpr hwhole
      exact ⟨⟨expression.canonical, x, s, false⟩, ⟨⟨rfl, value, hassigns, .inr ⟨rfl, htext⟩⟩,
        htarget, .inr (by simp)⟩, rfl⟩
    · have htext := (hpart hvalue hmem).mpr hunlined
      exact ⟨⟨expression.canonical, x, s, true⟩,
        ⟨⟨rfl, value, hassigns, .inl ⟨rfl, part, hmem, htext⟩⟩, htarget, .inl hasPart⟩, rfl⟩

end Expression

/-- The assignments with a pattern are found by the structure of their right sides: they are
listed in ascending order, and are those whose tree, or with `asPart` one of whose subtrees, is that
of the pattern up to line numbers. -/
theorem assignsMatching_iff_unlined {source pattern : String} {facts : Facts} {expression : Node}
    (hsource : Facts.ofSource source = .ok facts)
    (hpattern : expressionTree pattern = .ok expression) (target : String) :
    ∃ tree, programTree source = .ok tree ∧
      (∀ asPart, (facts.assignsMatching target pattern asPart).Pairwise (· < ·)) ∧
      (∀ s, s ∈ facts.assignsMatching target pattern false ↔ ∃ x value, tree.Assigns s x value ∧
        (target = wildcard ∨ x = target) ∧ value.unlined = expression.unlined) ∧
      ∀ s, s ∈ facts.assignsMatching target pattern true ↔ ∃ x value, tree.Assigns s x value ∧
        (target = wildcard ∨ x = target) ∧
          ∃ path part, value.at? path = some part ∧ part.unlined = expression.unlined := by
  obtain ⟨ts, tree, order, hts, hparse, -, -, rfl⟩ := exists_of_ofSource hsource
  have htree := isProgram_of_parseProgram hparse (isLexical_of_tokenize hts)
  refine ⟨tree, ?_, fun asPart => ?_, fun s => ?_, fun s => ?_⟩
  · rw [programTree, hts]
    simp only [Except.mapError, bind, Except.bind, hparse]
  · rw [assignsMatching_eq hpattern]
    exact (pairwise_ascending _).imp Nat.compare_eq_lt.mp
  · simp [mem_assignsMatching_gather hpattern htree]
  · rw [mem_assignsMatching_gather hpattern htree]
    refine exists_congr fun x => exists_congr fun value => and_congr_right fun hassigns =>
      and_congr_right fun _ => ?_
    have hnodes : ∀ part, part = value ∨ part ∈ value.properParts ↔
        ∃ path, value.at? path = some part :=
      fun part => (hassigns.isExpression htree).mem_properParts
    constructor
    · rintro (hwhole | ⟨-, part, hmem, hunlined⟩)
      · exact ⟨[], value, rfl, hwhole⟩
      · obtain ⟨path, hat⟩ := (hnodes part).mp (.inr hmem)
        exact ⟨path, part, hat, hunlined⟩
    · rintro ⟨path, part, hat, hunlined⟩
      rcases (hnodes part).mpr ⟨path, hat⟩ with rfl | hmem
      · exact .inl hunlined
      · exact .inr ⟨rfl, part, hmem, hunlined⟩

/-- Three assignments: only the parentheses of the second one make a sum a part of it. -/
def groupedSums : String :=
  "procedure p \x7b x = a + b * c; y = (a + b) * c;\n z = a\n + b; \x7d"

/-- The sum is found whole in the last assignment, over two lines, and as a part also in the second
one. In the first one a product is added, so the sum of its first two names is no part of it. -/
theorem assignsMatching_iff_unlined_groupedSums : ∃ facts expression tree,
    Facts.ofSource groupedSums = .ok facts ∧ expressionTree "a+b" = .ok expression ∧
      programTree groupedSums = .ok tree ∧
      facts.assignsMatching wildcard "a+b" false = [3] ∧
      facts.assignsMatching wildcard "a+b" true = [2, 3] ∧
      (∃ x value, tree.Assigns 3 x value ∧ value.unlined = expression.unlined) ∧
      ¬∃ x value, tree.Assigns 1 x value ∧
        ∃ path part, value.at? path = some part ∧ part.unlined = expression.unlined := by
  have hrun : (do
      let facts ← (Facts.ofSource groupedSums).toOption
      let _ ← (expressionTree "a+b").toOption
      return (facts.assignsMatching wildcard "a+b" false,
        facts.assignsMatching wildcard "a+b" true)) = some ([3], [2, 3]) := by
    decide +kernel
  obtain ⟨facts, hfacts, hrun⟩ := Option.bind_eq_some_iff.mp hrun
  obtain ⟨expression, hexpression, hrun⟩ := Option.bind_eq_some_iff.mp hrun
  obtain ⟨hwhole, hpart⟩ := Prod.mk.inj (Option.some.inj hrun)
  have hfacts := eq_ok_of_toOption hfacts
  have hexpression := eq_ok_of_toOption hexpression
  obtain ⟨tree, htree, -, hwholes, hparts⟩ :=
    assignsMatching_iff_unlined hfacts hexpression wildcard
  refine ⟨facts, expression, tree, hfacts, hexpression, htree, hwhole, hpart, ?_, ?_⟩
  · obtain ⟨x, value, hassigns, -, hunlined⟩ := (hwholes 3).mp (by simp [hwhole])
    exact ⟨x, value, hassigns, hunlined⟩
  · rintro ⟨x, value, hassigns, hfound⟩
    have hmem := (hparts 1).mpr ⟨x, value, hassigns, .inl rfl, hfound⟩
    simp [hpart] at hmem

end ProgramQuery
