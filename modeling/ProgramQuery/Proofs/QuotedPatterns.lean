import ProgramQuery.Proofs.CanonicalTexts
import ProgramQuery.Proofs.QueryReading

/-!
# The expression of a pattern is what stands between its quotes

A query keeps the expression of a pattern as a text, in which tokens that touch in the query are
glued and all others have one blank between them. The text spells the tokens between the quotes:
a token is still the longest lexeme, since it stands before the same token as in the query, before
a blank or at the end. So the text is an expression exactly if these tokens are.

Which tokens belong to a pattern shows from the derivation of the query, which can be cut off after
any of its clauses.

## Main definitions

- `IsQuotedAtEnd`: the tokens between the last two quotes of a query.

## Main statements

- `Reads.spells_spacedText`: the spaced text of consecutive tokens spells these tokens.
- `QueryGrammar.SelectClause.exists_cut`: a query is cut off after one of its clauses.
- `pattern_spells_quoted`: the text of a pattern is faithful to the tokens between its quotes.
-/

namespace ProgramQuery

/-! ## Spaced texts -/

/-- A spaced text starts like its first token. -/
theorem head?_spacedText {t : Token} {ts : List Token} (ht : t.text.toList ≠ []) :
    (spacedText (t :: ts)).toList.head? = t.text.toList.head? := by
  cases ts with
  | nil => rfl
  | cons u ts =>
    rw [spacedText, String.toList_append, String.toList_append, List.append_assoc,
      List.head?_append_of_ne_nil _ ht]

/-- The spaced text of tokens that stand one after another in a text spells these tokens. -/
theorem Reads.spells_spacedText {before cs rest : List Char} {earlier pieces later : List Piece}
    (h : Reads before cs (earlier ++ (pieces ++ later)) rest) :
    Spells (spacedText (pieces.map Piece.token)).toList
      (pieces.map fun p => p.token.spelling) := by
  induction pieces generalizing earlier with
  | nil => exact .blank (List.forall_mem_nil _)
  | cons p pieces ih =>
    have hp := h.standsBetween earlier p (pieces ++ later) rfl
    have hmore : Spells (spacedText (pieces.map Piece.token)).toList
        (pieces.map fun p => p.token.spelling) := by
      have hnext : Reads before cs (earlier ++ [p] ++ (pieces ++ later)) rest := by simpa using h
      exact ih hnext
    -- what comes after the token in the spaced text must not carry it on
    have hstep : ∀ tail, Spells tail (pieces.map fun p => p.token.spelling) →
        (∀ c ∈ tail.head?, isBlank c = true ∨
          c ∈ (Piece.text (pieces ++ later) ++ rest).head?) →
        Spells (p.token.text.toList ++ tail) ((p :: pieces).map fun p => p.token.spelling) :=
      fun tail htail hnext => .token (List.forall_mem_nil _) (hp.longest.of_next hnext)
        hp.no_leading_zero htail
    cases pieces with
    | nil =>
      have hspells := hstep [] hmore (by simp)
      rwa [List.append_nil] at hspells
    | cons q pieces =>
      have hreads : Reads before cs (earlier ++ p :: q :: (pieces ++ later)) rest := h
      have hne : q.token.text.toList ≠ [] :=
        (h.standsBetween (earlier ++ [p]) q (pieces ++ later) (by simp)).longest.isLexeme.ne_nil
      rw [List.map_cons, List.map_cons, spacedText, String.toList_append, String.toList_append,
        List.append_assoc]
      by_cases hadjacent : p.token.isAdjacentTo q.token = true
      · -- glued as in the text
        rw [if_pos hadjacent]
        refine hstep _ hmore fun c hc => .inr ?_
        have hafter : Piece.text (q :: pieces ++ later) ++ rest =
            q.token.text.toList ++ (Piece.text (pieces ++ later) ++ rest) := by
          simp [Piece.text, Piece.chars, hreads.isAdjacentTo_iff.mp hadjacent]
        rw [hafter, List.head?_append_of_ne_nil _ hne]
        exact head?_spacedText hne ▸ hc
      · rw [if_neg hadjacent]
        refine hstep _ (hmore.space (List.all_eq_true.mp (by decide))) fun c hc => .inl ?_
        obtain rfl : ' ' = c := Option.some.inj hc
        decide

/-- The text of consecutive tokens of a text has these tokens, but for their places. -/
theorem exists_tokenize_spacedText {text : String} {earlier ts later : List Token}
    (h : tokenize text = .ok (earlier ++ (ts ++ later))) :
    ∃ us, tokenize (spacedText ts) = .ok us ∧ us.map Token.spelling = ts.map Token.spelling := by
  obtain ⟨pieces, gap, hreads, hpieces⟩ := tokenize_eq_ok_iff.mp h
  obtain ⟨before, rest, rfl, rfl, hrest⟩ := List.map_eq_append_iff.mp hpieces
  obtain ⟨inner, after, rfl, rfl, rfl⟩ := List.map_eq_append_iff.mp hrest
  have hspells := spells_iff.mp hreads.reads.spells_spacedText
  rwa [List.map_map]

/-! ## Cutting off a query -/

namespace QueryGrammar

open Grammar (Repeated)

theorem Separated.exists_cut {α : Type} {separator : Token → Prop} {item : List Token → α → Prop}
    {ts : List Token} {as before after : List α} {a : α} (h : Separated separator item ts as)
    (has : as = before ++ a :: after) :
    ∃ start us rest, ts = start ++ us ++ rest ∧ item us a ∧
      Separated separator item (start ++ us) (before ++ [a]) := by
  induction h generalizing before with
  | @one ts b hitem =>
    obtain ⟨rfl, hrest⟩ : before = [] ∧ [b] = a :: after := by
      cases before with
      | nil => exact ⟨rfl, has⟩
      | cons _ before => simp at has
    obtain ⟨rfl, -⟩ := List.cons.inj hrest
    exact ⟨[], ts, [], by simp, hitem, .one hitem⟩
  | @more ts us t b as hitem hseparator _ ih =>
    cases before with
    | nil =>
      obtain ⟨rfl, -⟩ := List.cons.inj has
      exact ⟨[], ts, t :: us, by simp, hitem, .one hitem⟩
    | cons b' before =>
      obtain ⟨rfl, hmore⟩ := List.cons.inj has
      obtain ⟨start, vs, rest, rfl, hvs, hcut⟩ := ih hmore
      refine ⟨ts ++ t :: start, vs, rest, by simp, hvs, ?_⟩
      rw [List.append_assoc]
      exact .more hitem hseparator hcut

variable {declared : Declarations} {ts : List Token} {c : Clause} {before after : List Clause}

/-- A clause of any sort. -/
def AnyClause (declared : Declarations) (ts : List Token) (c : Clause) : Prop :=
  Relation declared ts c ∨ Pattern declared ts c ∨ Equation declared ts c

theorem Clauses.exists_cut {cs : List Clause} (h : Clauses declared ts cs)
    (hcs : cs = before ++ c :: after) :
    ∃ start us rest, ts = start ++ us ++ rest ∧ AnyClause declared us c ∧
      Clauses declared (start ++ us) (before ++ [c]) := by
  cases h with
  | @relations such that _ _ hsuch hthat hclauses =>
    obtain ⟨start, us, rest, rfl, hus, hcut⟩ := hclauses.exists_cut hcs
    exact ⟨such :: that :: start, us, rest, rfl, .inl hus, .relations hsuch hthat hcut⟩
  | @patterns word _ _ hword hclauses =>
    obtain ⟨start, us, rest, rfl, hus, hcut⟩ := hclauses.exists_cut hcs
    exact ⟨word :: start, us, rest, rfl, .inr (.inl hus), .patterns hword hcut⟩
  | @equations word _ _ hword hclauses =>
    obtain ⟨start, us, rest, rfl, hus, hcut⟩ := hclauses.exists_cut hcs
    exact ⟨word :: start, us, rest, rfl, .inr (.inr hus), .equations hword hcut⟩

theorem exists_cut_of_repeated {earlier later : List (List Clause)}
    (h : Repeated (Clauses declared) ts (earlier ++ (before ++ c :: after) :: later)) :
    ∃ start us rest, ts = start ++ us ++ rest ∧ AnyClause declared us c ∧
      Repeated (Clauses declared) (start ++ us) (earlier ++ [before ++ [c]]) := by
  induction earlier generalizing ts with
  | nil =>
    obtain _ | @⟨ts, vs, _, _, hitem, -⟩ := h
    obtain ⟨start, us, rest, rfl, hus, hcut⟩ := hitem.exists_cut rfl
    refine ⟨start, us, rest ++ vs, by simp, hus, ?_⟩
    have hone := Repeated.cons hcut .nil
    rwa [List.append_nil] at hone
  | cons cs earlier ih =>
    obtain _ | @⟨ts, vs, _, _, hitem, hrest⟩ := h
    obtain ⟨start, us, rest, rfl, hus, hcut⟩ := ih hrest
    refine ⟨ts ++ start, us, rest, by simp, hus, ?_⟩
    rw [List.append_assoc]
    exact .cons hitem hcut

/-- A query can be cut off after any of its clauses. -/
theorem SelectClause.exists_cut {q : Query} (h : SelectClause ts q)
    (hclauses : q.clauses = before ++ c :: after) :
    ∃ start us rest, ts = start ++ us ++ rest ∧ AnyClause q.declarations us c ∧
      SelectClause (start ++ us) { q with clauses := before ++ [c] } := by
  obtain @⟨ts, us, vs, word, ds, elements, clauses, hds, hnodup, hword, hresult, hrepeated⟩ := h
  obtain ⟨earlier, l, r, later, rfl, rfl⟩ := exists_of_flatten_eq hclauses
  obtain ⟨start, ws, rest, rfl, hws, hcut⟩ := exists_cut_of_repeated hrepeated
  refine ⟨ts ++ word :: us ++ start, ws, rest, by simp, hws, ?_⟩
  have hselect := SelectClause.intro hds hnodup hword hresult hcut
  simpa using hselect

/-! ## Patterns with an expression -/

/-- Only patterns have an expression. -/
theorem AnyClause.pattern (h : AnyClause declared ts c)
    (hkind : c.kind = .assignExact ∨ c.kind = .assignPart) : Pattern declared ts c := by
  rcases h with hrelation | hpattern | hequation
  · exact absurd hkind (not_or.mpr (ne_assign_of_relation hrelation))
  · exact hpattern
  · cases hequation
    simp at hkind

theorem Quoted.exists_eq {text : String} (h : Quoted ts text) :
    ∃ opening inner closing, ts = opening :: (inner ++ [closing]) ∧
      opening.kind = .doubleQuote ∧ closing.kind = .doubleQuote ∧
      (∀ t ∈ inner, t.kind ≠ .doubleQuote) ∧ text = spacedText inner := by
  obtain ⟨hopening, -, hinner, hclosing⟩ := h
  exact ⟨_, _, _, rfl, hopening, hclosing, hinner, rfl⟩

theorem Pattern.exists_quoted (h : Pattern declared ts c)
    (hkind : c.kind = .assignExact ∨ c.kind = .assignPart) :
    ∃ start opening inner closing tail, ts = start ++ opening :: (inner ++ closing :: tail) ∧
      opening.kind = .doubleQuote ∧ closing.kind = .doubleQuote ∧
      (∀ t ∈ inner ++ tail, t.kind ≠ .doubleQuote) ∧ c.pattern = spacedText inner := by
  obtain @⟨t, opening, comma, closing, ts, us, kind, target, shape, text, -, -, -, -, -, hend,
    hclosing⟩ := h
  have hparen : closing.kind ≠ .doubleQuote := by simp [hclosing]
  cases hend with
  | assign hshape =>
    cases hshape with
    | any => simp at hkind
    | @part v w qs _ _ hquoted hw =>
      obtain ⟨o, inner, e, rfl, ho, he, hinner, htext⟩ := hquoted.exists_eq
      refine ⟨t :: opening :: ts ++ [comma, v], o, inner, e, [w, closing], by simp, ho, he, ?_,
        htext⟩
      have hunderscore : w.kind ≠ .doubleQuote := by simp [hw]
      simpa [or_imp, forall_and, hparen, hunderscore] using hinner
    | exact hquoted =>
      obtain ⟨o, inner, e, rfl, ho, he, hinner, htext⟩ := hquoted.exists_eq
      refine ⟨t :: opening :: ts ++ [comma], o, inner, e, [closing], by simp, ho, he, ?_, htext⟩
      simpa [or_imp, forall_and, hparen] using hinner
  | whileLoop => simp at hkind
  | ifElse => simp at hkind

end QueryGrammar

/-! ## Faithful patterns -/

/-- Up to the end of some clause the tokens are the given query, and `inner` stands between the
last two quotes of these tokens. -/
def IsQuotedAtEnd (ts : List Token) (q : Query) (inner : List Token) : Prop :=
  ∃ start opening closing tail rest,
    ts = start ++ opening :: (inner ++ closing :: tail) ++ rest ∧
      parseQuery (start ++ opening :: (inner ++ closing :: tail)) = .ok q ∧
      opening.kind = .doubleQuote ∧ closing.kind = .doubleQuote ∧
      ∀ t ∈ inner ++ tail, t.kind ≠ .doubleQuote

/-- The text of a pattern in a query has the tokens that stand between the quotes of the pattern,
but for their places. So it is an expression exactly if they are, with the same canonical text. -/
theorem pattern_spells_quoted {text : String} {q : Query} (h : Query.ofText text = .ok q)
    {before after : List Clause} {c : Clause} (hclauses : q.clauses = before ++ c :: after)
    (hkind : c.kind = .assignExact ∨ c.kind = .assignPart) :
    ∃ ts inner, tokenize text = .ok ts ∧
      IsQuotedAtEnd ts { q with clauses := before ++ [c] } inner ∧
      (∃ us, tokenize c.pattern = .ok us ∧
        us.map Token.spelling = inner.map Token.spelling) ∧
      ∀ canonical, canonicalExpression c.pattern = .ok canonical ↔
        ∃ tree, Grammar.Expression inner tree ∧ tree.canonical = canonical := by
  obtain ⟨ts, hts, hparse⟩ := exists_of_bind_eq_ok h
  have hts := eq_ok_of_mapError hts
  have hselect := QueryGrammar.selectClause_of_parseQuery hparse (isLexical_of_tokenize hts)
  obtain ⟨start, vs, rest, rfl, hclause, hcut⟩ := hselect.exists_cut hclauses
  obtain ⟨more, opening, inner, closing, tail, rfl, hopening, hclosing, hinner, hpattern⟩ :=
    (hclause.pattern hkind).exists_quoted hkind
  have hparts : start ++ (more ++ opening :: (inner ++ closing :: tail)) ++ rest =
      (start ++ more ++ [opening]) ++ (inner ++ (closing :: tail ++ rest)) := by simp
  obtain ⟨us, hus, hspelling⟩ := exists_tokenize_spacedText (hparts ▸ hts)
  refine ⟨_, inner, hts, ⟨start ++ more, opening, closing, tail, rest, by simp, ?_, hopening,
    hclosing, hinner⟩, ⟨us, hpattern ▸ hus, hspelling⟩, fun canonical => ?_⟩
  · rw [List.append_assoc]
    exact QueryGrammar.parseQuery_eq hcut
  · rw [hpattern, canonicalExpression_eq_ok_iff_of_tokenize hus]
    exact ⟨Grammar.exists_canonical_of_spelling hspelling.symm,
      Grammar.exists_canonical_of_spelling hspelling⟩

/-- Two patterns. The second is no expression, and its tokens stand on two lines. -/
def twoPatternsText : String :=
  "assign a, b; Select a pattern a(\"x\", \"1ab\") and b(_, _\"y==\n =2\t3\"_)"

/-- What the two patterns are read as. -/
def twoPatterns : Query :=
  ⟨[("a", .assign), ("b", .assign)], [⟨.plain, "a"⟩],
    [⟨.assignExact, ⟨.stmtSynonym, "a"⟩, ⟨.name, "x"⟩, "1ab"⟩,
      ⟨.assignPart, ⟨.stmtSynonym, "b"⟩, ⟨.wildcard, "_"⟩, "y== =2 3"⟩]⟩

theorem pattern_spells_quoted_twoPatterns :
    Query.ofText twoPatternsText = .ok twoPatterns ∧
    ∃ ts inner, tokenize twoPatternsText = .ok ts ∧ IsQuotedAtEnd ts twoPatterns inner ∧
      (∃ us, tokenize "y== =2 3" = .ok us ∧
        us.map Token.spelling = inner.map Token.spelling) ∧
      ∀ canonical, canonicalExpression "y== =2 3" = .ok canonical ↔
        ∃ tree, Grammar.Expression inner tree ∧ tree.canonical = canonical := by
  have h : Query.ofText twoPatternsText = .ok twoPatterns := by decide +kernel
  have hclauses : twoPatterns.clauses =
      [⟨.assignExact, ⟨.stmtSynonym, "a"⟩, ⟨.name, "x"⟩, "1ab"⟩] ++
        ⟨.assignPart, ⟨.stmtSynonym, "b"⟩, ⟨.wildcard, "_"⟩, "y== =2 3"⟩ :: [] := rfl
  exact ⟨h, pattern_spells_quoted h hclauses (.inr rfl)⟩

end ProgramQuery
