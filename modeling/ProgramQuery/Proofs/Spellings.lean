import ProgramQuery.Proofs.ExpressionPatterns
import ProgramQuery.Proofs.ProgramGrammar
import ProgramQuery.Proofs.Tokenization

/-!
# What a text spells

The tokens of a text without their places are its spelling. It is found by splitting the text into
longest lexemes and blanks, wherever the text stands. The places of tokens enter an expression only
as line numbers, so texts with one spelling have the same tree up to line numbers.

## Main definitions

- `Token.spelling`: a token without its place.
- `Spells`: the spelling of a text, given by longest lexemes alone.

## Main statements

- `spells_iff`: the tokens of a text have the spelling of the text.
- `expressionTree_eq_ok_iff`: the tree of a text is derived from its tokens.
- `Grammar.isSpelled_expression`: the spelling of an expression determines its tree up to lines.
-/

namespace ProgramQuery

/-- The kind and the text of a token. -/
def Token.spelling (t : Token) : TokenKind × String :=
  (t.kind, t.text)

/-- The text is longest lexemes, with these kinds and texts and with blanks around them. -/
inductive Spells : List Char → List (TokenKind × String) → Prop
  | blank {gap : List Char} : (∀ c ∈ gap, isBlank c = true) → Spells gap []
  | token {gap cs : List Char} {kind : TokenKind} {text : String}
      {more : List (TokenKind × String)} (hgap : ∀ c ∈ gap, isBlank c = true)
      (hlongest : IsLongestLexeme kind text.toList (text.toList ++ cs))
      (hzero : kind = .integer → hasLeadingZero text.toList = false) (hmore : Spells cs more) :
      Spells (gap ++ (text.toList ++ cs)) ((kind, text) :: more)

theorem Spells.space {gap cs : List Char} {spelling : List (TokenKind × String)}
    (hgap : ∀ c ∈ gap, isBlank c = true) (h : Spells cs spelling) :
    Spells (gap ++ cs) spelling := by
  cases h with
  | blank hcs => exact .blank (List.forall_mem_append.mpr ⟨hgap, hcs⟩)
  | token hgap' hlongest hzero hmore =>
    rw [← List.append_assoc]
    exact .token (List.forall_mem_append.mpr ⟨hgap, hgap'⟩) hlongest hzero hmore

/-- A walk through the text finds its spelling from any place on. -/
theorem Spells.exists_scan_eq {cs : List Char} {spelling : List (TokenKind × String)}
    (h : Spells cs spelling) (place : Position) :
    ∃ ts, scan 0 place cs = .ok ts ∧ ts.map Token.spelling = spelling := by
  induction h generalizing place with
  | blank hgap => exact ⟨[], scan_of_blank place hgap, rfl⟩
  | @token gap cs kind text more hgap hlongest hzero hmore ih =>
    rw [scan_gap place hgap, scan_lexeme _ hlongest hzero, String.ofList_toList]
    generalize gap.foldl Position.after place = start
    obtain ⟨ts, hscan, rfl⟩ := ih ⟨start.line, start.column + text.toList.length⟩
    rw [hscan]
    exact ⟨_, rfl, rfl⟩

theorem Reads.spells {before cs tail : List Char} {pieces : List Piece}
    (h : Reads before cs pieces tail) (htail : ∀ c ∈ tail, isBlank c = true) :
    Spells cs (pieces.map fun p => p.token.spelling) := by
  induction pieces generalizing before cs with
  | nil =>
    rw [h.eq_append]
    exact .blank htail
  | cons p pieces ih =>
    obtain ⟨after, rfl, hp, hpieces⟩ := reads_cons_iff.mp h
    rw [Piece.chars, List.append_assoc]
    exact .token hp.blank hp.longest hp.no_leading_zero (ih hpieces)

/-- A text with tokens spells them. -/
theorem spells_iff {text : String} {spelling : List (TokenKind × String)} :
    Spells text.toList spelling ↔
      ∃ ts, tokenize text = .ok ts ∧ ts.map Token.spelling = spelling := by
  constructor
  · intro h
    exact h.exists_scan_eq .start
  · rintro ⟨ts, hts, rfl⟩
    obtain ⟨pieces, gap, hreads, rfl⟩ := tokenize_eq_ok_iff.mp hts
    have hspells := hreads.reads.spells (by simpa using hreads.blank)
    rwa [List.map_map]

/-! ## Expressions -/

namespace Grammar

/-- What is derived from up to `bound` tokens is also derived, but for line numbers, from other
tokens with the same spelling. -/
def IsSpelled (derived : List Token → Node → Prop) (bound : Nat) : Prop :=
  ∀ ⦃ts : List Token⦄ ⦃n : Node⦄, derived ts n → ts.length ≤ bound → ∀ ⦃us : List Token⦄,
    us.map Token.spelling = ts.map Token.spelling → ∃ m, derived us m ∧ m.unlined = n.unlined

theorem isSpelled_chain {signs : List (TokenKind × NodeKind)}
    {operand : List Token → Node → Prop} {bound : Nat} (hoperand : IsSpelled operand bound) :
    IsSpelled (Chain signs operand) bound := by
  intro ts n h
  induction h with
  | single h =>
    intro hbound us hus
    obtain ⟨m, hm, hunlined⟩ := hoperand h hbound hus
    exact ⟨m, .single hm, hunlined⟩
  | @operation ts vs sign kind left right _ hsign hright ih =>
    intro hbound us hus
    simp only [List.length_append, List.length_cons] at hbound
    rw [List.map_append, List.map_cons] at hus
    obtain ⟨ts', rest, rfl, hts', hrest⟩ := List.map_eq_append_iff.mp hus
    obtain ⟨sign', vs', rfl, hsign', hvs'⟩ := List.map_eq_cons_iff.mp hrest
    obtain ⟨left', hleft', hl⟩ := ih (by omega) hts'
    obtain ⟨right', hright', hr⟩ := hoperand hright (by omega) hvs'
    have hkind : sign'.kind = sign.kind := congrArg Prod.fst hsign'
    refine ⟨_, .operation hleft' (hkind ▸ hsign) hright', ?_⟩
    rw [Node.unlined_binary, Node.unlined_binary, hl, hr]

theorem isSpelled_factor (bound : Nat) : IsSpelled Factor bound := by
  induction bound with
  | zero =>
    intro ts n h hlength
    cases h <;> simp at hlength
  | succ bound ih =>
    intro ts n h hlength us hus
    cases h with
    | @name t ht =>
      obtain ⟨t', rfl, ht'⟩ := List.map_eq_singleton_iff.mp hus
      obtain ⟨hkind, htext⟩ := Prod.mk.inj ht'
      refine ⟨_, .name (hkind.trans ht), ?_⟩
      rw [Node.unlined_ofName, Node.unlined_ofName, htext]
    | @integer t ht =>
      obtain ⟨t', rfl, ht'⟩ := List.map_eq_singleton_iff.mp hus
      obtain ⟨hkind, htext⟩ := Prod.mk.inj ht'
      refine ⟨_, .integer (hkind.trans ht), ?_⟩
      rw [Node.unlined_ofInteger, Node.unlined_ofInteger, htext]
    | @parenthesised opening closing ts _ hopening hinner hclosing =>
      have hbound : ts.length ≤ bound := by
        simp only [List.cons_append, List.length_cons, List.length_append] at hlength
        omega
      rw [List.cons_append, List.map_cons, List.map_append, List.map_singleton] at hus
      obtain ⟨opening', rest, rfl, hopening', hrest⟩ := List.map_eq_cons_iff.mp hus
      obtain ⟨ts', last, rfl, hts', hlast⟩ := List.map_eq_append_iff.mp hrest
      obtain ⟨closing', rfl, hclosing'⟩ := List.map_eq_singleton_iff.mp hlast
      obtain ⟨m, hm, hunlined⟩ := isSpelled_chain (isSpelled_chain ih) hinner hbound hts'
      exact ⟨m, .parenthesised ((congrArg Prod.fst hopening').trans hopening) hm
        ((congrArg Prod.fst hclosing').trans hclosing), hunlined⟩

theorem isSpelled_expression (bound : Nat) : IsSpelled Expression bound :=
  isSpelled_chain (isSpelled_chain (isSpelled_factor bound))

/-- Tokens with one spelling have one canonical text, if they are an expression. -/
theorem exists_canonical_of_spelling {ts us : List Token} {canonical : String}
    (hus : us.map Token.spelling = ts.map Token.spelling)
    (h : ∃ n, Expression ts n ∧ n.canonical = canonical) :
    ∃ m, Expression us m ∧ m.canonical = canonical := by
  obtain ⟨n, hn, rfl⟩ := h
  obtain ⟨m, hm, hunlined⟩ := isSpelled_expression _ hn (Nat.le_refl _) hus
  have hcanonical {vs : List Token} {k : Node} (hk : Expression vs k) :
      k.unlined.canonical = k.canonical :=
    Node.IsExpression.canonical_unlined (isExpression_of_expression hk fun _ _ => trivial)
  refine ⟨m, hm, ?_⟩
  rw [← hcanonical hm, hunlined, hcanonical hn]

end Grammar

/-- The tree of a text is the one that the grammar derives from its tokens. -/
theorem expressionTree_eq_ok_iff {text : String} {n : Node} :
    expressionTree text = .ok n ↔ ∃ ts, tokenize text = .ok ts ∧ Grammar.Expression ts n := by
  constructor
  · intro h
    obtain ⟨ts, hts, hread⟩ := exists_of_expressionTree h
    exact ⟨ts, hts, Grammar.readExpression_eq_iff.mp hread⟩
  · rintro ⟨ts, hts, hderived⟩
    have hparse : parseExpression ts = .ok n := by
      rw [parseExpression, Grammar.readExpression_eq_iff.mpr hderived]
      rfl
    rw [expressionTree, hts]
    exact congrArg (Except.mapError ParseError.grammatical) hparse

theorem canonicalExpression_eq_ok_iff {text canonical : String} :
    canonicalExpression text = .ok canonical ↔
      ∃ tree, expressionTree text = .ok tree ∧ tree.canonical = canonical := by
  rw [canonicalExpression]
  cases expressionTree text with
  | error e => simp [Except.map]
  | ok tree => simp [Except.map]

theorem canonicalExpression_eq_ok_iff_of_tokenize {text canonical : String} {ts : List Token}
    (h : tokenize text = .ok ts) : canonicalExpression text = .ok canonical ↔
      ∃ tree, Grammar.Expression ts tree ∧ tree.canonical = canonical := by
  rw [canonicalExpression_eq_ok_iff]
  refine exists_congr fun tree => and_congr_left fun _ => ?_
  rw [expressionTree_eq_ok_iff, h]
  simp

end ProgramQuery
