import ProgramQuery.Proofs.Spellings

/-!
# Canonical texts are read back

The canonical text of an expression is written without a blank, with parentheses around every
operation. It is split into tokens where it was put together: its signs are no part of longer
lexemes, and its names and constants stand before a sign. From these tokens the tree is derived
again, an operation being a factor by its parentheses. So a canonical text is its own canonical
text, and stands for one tree up to line numbers.

## Main definitions

- `IsCanonicalSpelling`: the spelling of the canonical text of an expression.

## Main statements

- `Node.IsExpression.exists_isCanonicalSpelling`: every expression has such a spelling.
- `canonicalExpression_roundTrip`: a canonical text is read as the tree that it was written for.
-/

namespace ProgramQuery

/-! ## Signs and words -/

/-- The signs with which no longer lexeme starts. -/
def loneSigns : List Char :=
  ['(', ')', '+', '-', '*', '/', '%']

theorem not_isAlphanum_of_loneSign {c : Char} (hc : c ∈ loneSigns) : c.isAlphanum = false := by
  have hall : loneSigns.all (fun c => !c.isAlphanum) = true := by decide
  simpa using List.all_eq_true.mp hall c hc

theorem not_isLexeme_of_loneSign {c d : Char} {kind : TokenKind} (hc : c ∈ loneSigns) :
    ¬IsLexeme kind [c, d] := by
  intro h
  have hlong : fixedLexemes.all (fun entry => entry.1.toList.length ≤ 1 ||
      entry.1.toList.all fun c => c ∉ loneSigns) = true := by decide
  obtain ⟨text, hmem, htext⟩ := h.fixed_of_sign (not_isAlphanum_of_loneSign hc)
  have hentry := List.all_eq_true.mp hlong _ hmem
  rw [← htext] at hentry
  simp [hc] at hentry

theorem Spells.loneSign {c : Char} {kind : TokenKind} {text : String} {cs : List Char}
    {more : List (TokenKind × String)} (hc : c ∈ loneSigns) (hmem : (text, kind) ∈ fixedLexemes)
    (htext : text.toList = [c]) (h : Spells cs more) : Spells (c :: cs) ((kind, text) :: more) := by
  have hlongest : IsLongestLexeme kind text.toList (text.toList ++ cs) := by
    refine isLongestLexeme_append_iff.mpr ⟨.fixed hmem, fun d _ kind' => ?_⟩
    rw [htext]
    exact not_isLexeme_of_loneSign hc
  have hspells := Spells.token (List.forall_mem_nil _) hlongest
    (fun hkind => absurd hkind (fixedLexemes_ne _ hmem).2.1) h
  rwa [htext] at hspells

theorem Spells.opening {cs : List Char} {more : List (TokenKind × String)} (h : Spells cs more) :
    Spells ('(' :: cs) ((.lParen, "(") :: more) :=
  h.loneSign (by decide) (by decide) rfl

theorem Spells.closing {cs : List Char} {more : List (TokenKind × String)} (h : Spells cs more) :
    Spells (')' :: cs) ((.rParen, ")") :: more) :=
  h.loneSign (by decide) (by decide) rfl

theorem Token.IsLexical.isLexeme {t : Token} (ht : t.IsLexical)
    (hkind : t.kind = .name ∨ t.kind = .integer) : IsLexeme t.kind t.text.toList := by
  rcases hkind with hkind | hkind
  · obtain ⟨c, cs, htext, hc, hcs⟩ := ht.isName hkind
    rw [hkind, htext]
    exact .name hc (List.all_eq_true.mp hcs)
  · rw [hkind]
    exact .integer (ht.isNumber hkind).ne_nil (List.all_eq_true.mp (ht.isNumber hkind).all_isDigit)

/-- A name or a constant ends before a sign. -/
theorem Spells.word {t : Token} {cs : List Char} {more : List (TokenKind × String)}
    (ht : t.IsLexical) (hkind : t.kind = .name ∨ t.kind = .integer) (h : Spells cs more)
    (hcs : ∀ c ∈ cs.head?, c.isAlphanum = false) :
    Spells (t.text.toList ++ cs) (t.spelling :: more) := by
  have hlexeme := ht.isLexeme hkind
  have hword : ∀ c ∈ t.text.toList, c.isAlphanum = true := by
    rcases hkind with hkind | hkind
    · exact (ht.isName hkind).isAlphanum
    · exact (ht.isNumber hkind).isAlphanum
  have hlongest : IsLongestLexeme t.kind t.text.toList (t.text.toList ++ cs) := by
    refine isLongestLexeme_append_iff.mpr ⟨hlexeme, fun c hc kind' hlonger => ?_⟩
    rcases hlonger.fixed_or_word with ⟨text, hmem, htext⟩ | hall
    · obtain ⟨d, hd⟩ := List.exists_mem_of_ne_nil _ hlexeme.ne_nil
      have hsign := (fixedLexemes_signs _ hmem d (htext ▸ List.mem_append_left _ hd)).1
      rw [hword d hd] at hsign
      cases hsign
    · have hc' := hall c (List.mem_append_right _ List.mem_cons_self)
      rw [hcs c hc] at hc'
      cases hc'
  exact Spells.token (List.forall_mem_nil _) hlongest
    (fun hinteger => (ht.isNumber hinteger).no_leading_zero) h

/-! ## The spelling of a canonical text -/

/-- The canonical text of the expression spells this before a sign, and from tokens that are
spelled so its tree is derived as a factor. -/
structure IsCanonicalSpelling (n : Node) (spelling : List (TokenKind × String)) : Prop where
  spells : ∀ cs more, Spells cs more → (∀ c ∈ cs.head?, c.isAlphanum = false) →
    Spells (n.canonical.toList ++ cs) (spelling ++ more)
  derived : ∀ ts, ts.map Token.spelling = spelling →
    ∃ m, Grammar.Factor ts m ∧ m.unlined = n.unlined

theorem isCanonicalSpelling_word {t : Token} {n : Node} (ht : t.IsLexical)
    (hkind : t.kind = .name ∨ t.kind = .integer) (htext : n.canonical = t.text)
    (hderived : Grammar.Factor [t] n) : IsCanonicalSpelling n [t.spelling] := by
  constructor
  · intro cs more hmore hcs
    rw [htext]
    exact hmore.word ht hkind hcs
  · intro ts hts
    exact Grammar.isSpelled_factor _ hderived (Nat.le_refl _) hts

/-- The sign of an operation. -/
theorem exists_sign_of_operation : ∀ kind ∈ [NodeKind.plus, .minus, .multiply, .divide, .modulo],
    ∃ sign c, (kind.operator.getD "", sign) ∈ fixedLexemes ∧
      (kind.operator.getD "").toList = [c] ∧ c ∈ loneSigns ∧
      ((sign, kind) ∈ Grammar.additiveSigns ∨ (sign, kind) ∈ Grammar.multiplicativeSigns) := by
  intro kind hkind
  cases kind <;> simp at hkind
  · exact ⟨.plus, '+', by decide, rfl, by decide, by decide⟩
  · exact ⟨.minus, '-', by decide, rfl, by decide, by decide⟩
  · exact ⟨.times, '*', by decide, rfl, by decide, by decide⟩
  · exact ⟨.div, '/', by decide, rfl, by decide, by decide⟩
  · exact ⟨.mod, '%', by decide, rfl, by decide, by decide⟩

/-- Two factors with a sign between them are an expression. -/
theorem Grammar.expression_of_factors {ts us : List Token} {sign : Token} {kind : NodeKind}
    {left right : Node} (hleft : Factor ts left)
    (hsign : (sign.kind, kind) ∈ additiveSigns ∨ (sign.kind, kind) ∈ multiplicativeSigns)
    (hright : Factor us right) :
    Expression (ts ++ sign :: us) (.binary kind sign.line left right) := by
  rcases hsign with hsign | hsign
  · exact .operation (.single (.single hleft)) hsign (.single hright)
  · exact .single (.operation (.single hleft) hsign hright)

theorem isCanonicalSpelling_binary {kind : NodeKind} {line : Nat} {left right : Node}
    {l r : List (TokenKind × String)}
    (hkind : kind ∈ [NodeKind.plus, .minus, .multiply, .divide, .modulo])
    (hleft : IsCanonicalSpelling left l) (hright : IsCanonicalSpelling right r) :
    ∃ sign, IsCanonicalSpelling (.binary kind line left right)
      ((.lParen, "(") :: (l ++ (sign, kind.operator.getD "") :: (r ++ [(.rParen, ")")]))) := by
  obtain ⟨sign, c, hmem, htext, hc, hsign⟩ := exists_sign_of_operation kind hkind
  refine ⟨sign, ?_, ?_⟩
  · intro cs more hmore hcs
    have hr := hright.spells _ _ hmore.closing (by simp)
    have hoperator := hr.loneSign hc hmem htext
    have hl := hleft.spells _ _ hoperator (by simpa using not_isAlphanum_of_loneSign hc)
    have hopen := hl.opening
    rw [Node.canonical_binary hkind]
    simpa [htext] using hopen
  · intro ts hts
    obtain ⟨opening, rest, rfl, hopening, hrest⟩ := List.map_eq_cons_iff.mp hts
    obtain ⟨ls, rest, rfl, hls, hrest⟩ := List.map_eq_append_iff.mp hrest
    obtain ⟨s, rest, rfl, hs, hrest⟩ := List.map_eq_cons_iff.mp hrest
    obtain ⟨rs, last, rfl, hrs, hlast⟩ := List.map_eq_append_iff.mp hrest
    obtain ⟨closing, rfl, hclosing⟩ := List.map_eq_singleton_iff.mp hlast
    obtain ⟨left', hleft', hlu⟩ := hleft.derived ls hls
    obtain ⟨right', hright', hru⟩ := hright.derived rs hrs
    obtain rfl : s.kind = sign := congrArg Prod.fst hs
    have hinner := Grammar.expression_of_factors hleft' hsign hright'
    refine ⟨.binary kind s.line left' right', ?_, ?_⟩
    · have hfactor := Grammar.Factor.parenthesised (congrArg Prod.fst hopening) hinner
        (congrArg Prod.fst hclosing)
      simpa using hfactor
    · rw [Node.unlined_binary, Node.unlined_binary, hlu, hru]

theorem Node.IsExpression.exists_isCanonicalSpelling {n : Node}
    (h : n.IsExpression Token.IsLexical) : ∃ spelling, IsCanonicalSpelling n spelling := by
  induction h with
  | name ht hkind =>
    exact ⟨_, isCanonicalSpelling_word ht (.inl hkind) (canonical_ofName _) (.name hkind)⟩
  | integer ht hkind =>
    exact ⟨_, isCanonicalSpelling_word ht (.inr hkind) (canonical_ofInteger _) (.integer hkind)⟩
  | operation hkind _ _ ihl ihr =>
    obtain ⟨l, hl⟩ := ihl
    obtain ⟨r, hr⟩ := ihr
    obtain ⟨sign, hspelling⟩ := isCanonicalSpelling_binary hkind hl hr
    exact ⟨_, hspelling⟩

/-! ## Reading canonical texts -/

/-- The canonical text of an expression is read back. -/
theorem Node.IsExpression.exists_expressionTree_canonical {n : Node}
    (h : n.IsExpression Token.IsLexical) :
    ∃ m, expressionTree n.canonical = .ok m ∧ m.unlined = n.unlined := by
  obtain ⟨spelling, hspelling⟩ := h.exists_isCanonicalSpelling
  have hspells := hspelling.spells [] [] (.blank (List.forall_mem_nil _)) (by simp)
  rw [List.append_nil, List.append_nil] at hspells
  obtain ⟨ts, hts, hmap⟩ := spells_iff.mp hspells
  obtain ⟨m, hm, hunlined⟩ := hspelling.derived ts hmap
  exact ⟨m, expressionTree_eq_ok_iff.mpr ⟨ts, hts, .single (.single hm)⟩, hunlined⟩

/-- The canonical text of a text is read as the same tree, up to line numbers. So it is its own
canonical text, and it belongs to exactly the texts with this tree. -/
theorem canonicalExpression_roundTrip {text canonical : String}
    (h : canonicalExpression text = .ok canonical) :
    ∃ tree again, expressionTree text = .ok tree ∧ expressionTree canonical = .ok again ∧
      again.unlined = tree.unlined ∧ canonicalExpression canonical = .ok canonical ∧
      ∀ other tree', expressionTree other = .ok tree' →
        (canonicalExpression other = .ok canonical ↔ tree'.unlined = tree.unlined) := by
  obtain ⟨tree, htree, rfl⟩ := canonicalExpression_eq_ok_iff.mp h
  have hexpression := isExpression_of_expressionTree htree
  obtain ⟨again, hagain, hunlined⟩ := hexpression.exists_expressionTree_canonical
  have hcanonical : ∀ other tree', expressionTree other = .ok tree' →
      (canonicalExpression other = .ok tree.canonical ↔ tree'.unlined = tree.unlined) := by
    intro other tree' hother
    rw [← Node.canonical_eq_iff (isExpression_of_expressionTree hother) hexpression,
      canonicalExpression, hother]
    exact ⟨Except.ok.inj, congrArg Except.ok⟩
  exact ⟨tree, again, htree, hagain, hunlined, (hcanonical _ _ hagain).mpr hunlined, hcanonical⟩

/-- Operations of all levels, on two lines and with idle parentheses. -/
theorem canonicalExpression_roundTrip_levels :
    canonicalExpression "x1 -\n((y)*2 - z) % 10" = .ok "(x1-(((y*2)-z)%10))" ∧
    ∃ tree again, expressionTree "x1 -\n((y)*2 - z) % 10" = .ok tree ∧
      expressionTree "(x1-(((y*2)-z)%10))" = .ok again ∧ again.unlined = tree.unlined ∧
      canonicalExpression "(x1-(((y*2)-z)%10))" = .ok "(x1-(((y*2)-z)%10))" ∧
      ∀ other tree', expressionTree other = .ok tree' →
        (canonicalExpression other = .ok "(x1-(((y*2)-z)%10))" ↔
          tree'.unlined = tree.unlined) := by
  have h : canonicalExpression "x1 -\n((y)*2 - z) % 10" = .ok "(x1-(((y*2)-z)%10))" := by
    decide +kernel
  exact ⟨h, canonicalExpression_roundTrip h⟩

end ProgramQuery
