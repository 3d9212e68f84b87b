import ProgramQuery.Proofs.QueryReading
import ProgramQuery.Proofs.Respacing
import ProgramQuery.Session.Run

/-!
# Only the presence of blanks matters

A program keeps the lines of its tokens and nothing else of their places. A query keeps no place at
all, but which tokens of a pattern touch shows in the text that it keeps. Both follow from the
derivations: every rule of a grammar asks for kinds and texts of tokens only, so what is derived
from some tokens is also derived from tokens that are read alike.

In a file the lines of a query are trimmed and joined by single blanks, which leaves its words.

## Main definitions

- `QueryGrammar.IsPlaceless`: what is derived does not depend on the places of tokens.
- `queryBlocks`: the queries of a file, on lines as they stand there.

## Main statements

- `Grammar.isSpelled_program`: the spelling of a program determines its tree up to lines.
- `QueryGrammar.isPlaceless_selectClause`: tokens that are read alike are the same query.
- `splitQueries_eq`: the queries of a file are its blocks, trimmed and joined.
- `blanks_only_separate`: blanks only separate words, in programs, queries and files of queries.
-/

namespace ProgramQuery

section Spelling

variable {t t' : Token} (h : t'.spelling = t.spelling)

include h

theorem kind_of_spelling {kind : TokenKind} (ht : t.kind = kind) : t'.kind = kind :=
  (congrArg Prod.fst h).trans ht

theorem text_eq_of_spelling : t'.text = t.text :=
  congrArg Prod.snd h

theorem isWord_of_spelling {word : String} (ht : t.isWord word = true) : t'.isWord word = true := by
  rwa [Token.isWord, kind_of_spelling h rfl, text_eq_of_spelling h]

end Spelling

/-! ## Programs -/

namespace Grammar

theorem isSpelled_side (bound : Nat) : IsSpelled Side bound := by
  intro ts n h hbound us hus
  obtain ⟨m, hm, hunlined⟩ := isSpelled_expression bound (side_iff.mp h) hbound hus
  exact ⟨m, side_iff.mpr hm, hunlined⟩

theorem isSpelled_condition (bound : Nat) : IsSpelled Condition bound := by
  intro ts n h
  induction h with
  | comparison hleft hsign hright =>
    intro hbound us hus
    simp only [List.length_append, List.length_cons] at hbound
    simp only [List.map_append, List.map_cons] at hus
    obtain ⟨ts', rest, rfl, hts, hrest⟩ := List.map_eq_append_iff.mp hus
    obtain ⟨sign', us', rfl, hsign', hus'⟩ := List.map_eq_cons_iff.mp hrest
    obtain ⟨left', hleft', hl⟩ := isSpelled_side bound hleft (by omega) hts
    obtain ⟨right', hright', hr⟩ := isSpelled_side bound hright (by omega) hus'
    have hkind := kind_of_spelling hsign' rfl
    refine ⟨_, .comparison hleft' (hkind ▸ hsign) hright', ?_⟩
    rw [Node.unlined_binary, Node.unlined_binary, hl, hr]
  | negation hsign hopening hinner hclosing ih =>
    intro hbound us hus
    simp only [List.cons_append, List.length_append, List.length_cons] at hbound
    simp only [List.cons_append, List.map_append, List.map_cons, List.map_nil] at hus
    obtain ⟨sign', rest, rfl, hsign', hrest⟩ := List.map_eq_cons_iff.mp hus
    obtain ⟨opening', rest, rfl, hopening', hrest⟩ := List.map_eq_cons_iff.mp hrest
    obtain ⟨ts', rest, rfl, hts, hrest⟩ := List.map_eq_append_iff.mp hrest
    obtain ⟨closing', rfl, hclosing'⟩ := List.map_eq_singleton_iff.mp hrest
    obtain ⟨m, hm, hunlined⟩ := ih (by omega) hts
    refine ⟨_, .negation (kind_of_spelling hsign' hsign) (kind_of_spelling hopening' hopening) hm
      (kind_of_spelling hclosing' hclosing), ?_⟩
    simp only [Node.unlined, Node.unlinedAll, hunlined]
  | connection hopening hleft hclosing hsign hopening₂ hright hclosing₂ ihleft ihright =>
    intro hbound us hus
    simp only [List.cons_append, List.append_assoc, List.length_append, List.length_cons] at hbound
    simp only [List.cons_append, List.append_assoc, List.map_append, List.map_cons,
      List.map_nil] at hus
    obtain ⟨opening', rest, rfl, hopening', hrest⟩ := List.map_eq_cons_iff.mp hus
    obtain ⟨ts', rest, rfl, hts, hrest⟩ := List.map_eq_append_iff.mp hrest
    obtain ⟨closing', rest, rfl, hclosing', hrest⟩ := List.map_eq_cons_iff.mp hrest
    obtain ⟨sign', rest, rfl, hsign', hrest⟩ := List.map_eq_cons_iff.mp hrest
    obtain ⟨opening₂', rest, rfl, hopening₂', hrest⟩ := List.map_eq_cons_iff.mp hrest
    obtain ⟨us', rest, rfl, hus', hrest⟩ := List.map_eq_append_iff.mp hrest
    obtain ⟨closing₂', rfl, hclosing₂'⟩ := List.map_eq_singleton_iff.mp hrest
    obtain ⟨left', hleft', hl⟩ := ihleft (by omega) hts
    obtain ⟨right', hright', hr⟩ := ihright (by omega) hus'
    have hkind := kind_of_spelling hsign' rfl
    have hderived := Condition.connection (kind_of_spelling hopening' hopening) hleft'
      (kind_of_spelling hclosing' hclosing) (hkind ▸ hsign) (kind_of_spelling hopening₂' hopening₂)
      hright' (kind_of_spelling hclosing₂' hclosing₂)
    refine ⟨_, by simpa using hderived, ?_⟩
    rw [Node.unlined_binary, Node.unlined_binary, hl, hr]

theorem exists_repeated_of_spelling {item : List Token → Node → Prop} {bound : Nat}
    (hitem : IsSpelled item bound) {ts : List Token} {ns : List Node} (h : Repeated item ts ns)
    (hbound : ts.length ≤ bound) {us : List Token}
    (hus : us.map Token.spelling = ts.map Token.spelling) :
    ∃ ms, Repeated item us ms ∧ Node.unlinedAll ms = Node.unlinedAll ns := by
  induction h generalizing us with
  | nil =>
    obtain rfl := List.map_eq_nil_iff.mp hus
    exact ⟨[], .nil, rfl⟩
  | cons hn _ ih =>
    rw [List.length_append] at hbound
    rw [List.map_append] at hus
    obtain ⟨ts', rest, rfl, hts, hrest⟩ := List.map_eq_append_iff.mp hus
    obtain ⟨m, hm, hunlined⟩ := hitem hn (by omega) hts
    obtain ⟨ms, hms, hall⟩ := ih (by omega) hrest
    refine ⟨m :: ms, .cons hm hms, ?_⟩
    rw [Node.unlinedAll, Node.unlinedAll, hunlined, hall]

theorem ne_nil_of_unlinedAll {ms ns : List Node} (h : Node.unlinedAll ms = Node.unlinedAll ns)
    (hne : ns ≠ []) : ms ≠ [] := by
  rintro rfl
  cases ns with
  | nil => exact hne rfl
  | cons => simp [Node.unlinedAll] at h

theorem isSpelled_block {statement : List Token → Node → Prop} {bound : Nat}
    (hstatement : IsSpelled statement bound) : IsSpelled (Block statement) bound := by
  rintro _ _ ⟨hopening, hne, hbody, hclosing⟩ hbound us hus
  simp only [List.cons_append, List.length_append, List.length_cons] at hbound
  simp only [List.cons_append, List.map_append, List.map_cons, List.map_nil] at hus
  obtain ⟨opening', rest, rfl, hopening', hrest⟩ := List.map_eq_cons_iff.mp hus
  obtain ⟨ts', rest, rfl, hts, hrest⟩ := List.map_eq_append_iff.mp hrest
  obtain ⟨closing', rfl, hclosing'⟩ := List.map_eq_singleton_iff.mp hrest
  obtain ⟨body', hbody', hall⟩ := exists_repeated_of_spelling hstatement hbody (by omega) hts
  refine ⟨_, .intro (kind_of_spelling hopening' hopening) (ne_nil_of_unlinedAll hall hne) hbody'
    (kind_of_spelling hclosing' hclosing), ?_⟩
  simp only [Node.block, Node.unlined, hall]

theorem isSpelled_statement (bound : Nat) : IsSpelled Statement bound := by
  induction bound with
  | zero =>
    intro ts n h hlength
    obtain ⟨t, us, rfl, -⟩ := h.exists_name
    simp at hlength
  | succ bound ih =>
    intro ts n h hlength us hus
    cases h with
    | @named word name semicolon text kind hmem hword hname hsemicolon =>
      obtain ⟨word', rest, rfl, hword', hrest⟩ := List.map_eq_cons_iff.mp hus
      obtain ⟨name', rest, rfl, hname', hrest⟩ := List.map_eq_cons_iff.mp hrest
      obtain ⟨semicolon', rfl, hsemicolon'⟩ := List.map_eq_singleton_iff.mp hrest
      refine ⟨_, .named hmem (isWord_of_spelling hword' hword) (kind_of_spelling hname' hname)
        (kind_of_spelling hsemicolon' hsemicolon), ?_⟩
      simp only [Node.unlined, Node.unlinedAll, Node.unlined_ofName,
        text_eq_of_spelling hname']
    | @whileLoop word opening closing ts us₁ condition body hword hopening hcondition hclosing
        hbody =>
      simp only [List.cons_append, List.length_append, List.length_cons] at hlength
      simp only [List.cons_append, List.map_append, List.map_cons] at hus
      obtain ⟨word', rest, rfl, hword', hrest⟩ := List.map_eq_cons_iff.mp hus
      obtain ⟨opening', rest, rfl, hopening', hrest⟩ := List.map_eq_cons_iff.mp hrest
      obtain ⟨ts', rest, rfl, hts, hrest⟩ := List.map_eq_append_iff.mp hrest
      obtain ⟨closing', us', rfl, hclosing', hus'⟩ := List.map_eq_cons_iff.mp hrest
      obtain ⟨condition', hcondition', hc⟩ := isSpelled_condition bound hcondition (by omega) hts
      obtain ⟨body', hbody', hb⟩ := isSpelled_block ih hbody (by omega) hus'
      refine ⟨_, .whileLoop (isWord_of_spelling hword' hword) (kind_of_spelling hopening' hopening)
        hcondition' (kind_of_spelling hclosing' hclosing) hbody', ?_⟩
      simp only [Node.unlined, Node.unlinedAll, hc, hb]
    | @ifElse word opening closing word₁ word₂ ts us₁ vs condition accepted refused hword hopening
        hcondition hclosing hthen haccepted helse hrefused =>
      simp only [List.cons_append, List.append_assoc, List.length_append,
        List.length_cons] at hlength
      simp only [List.cons_append, List.append_assoc, List.map_append, List.map_cons] at hus
      obtain ⟨word', rest, rfl, hword', hrest⟩ := List.map_eq_cons_iff.mp hus
      obtain ⟨opening', rest, rfl, hopening', hrest⟩ := List.map_eq_cons_iff.mp hrest
      obtain ⟨ts', rest, rfl, hts, hrest⟩ := List.map_eq_append_iff.mp hrest
      obtain ⟨closing', rest, rfl, hclosing', hrest⟩ := List.map_eq_cons_iff.mp hrest
      obtain ⟨word₁', rest, rfl, hthen', hrest⟩ := List.map_eq_cons_iff.mp hrest
      obtain ⟨us', rest, rfl, hus', hrest⟩ := List.map_eq_append_iff.mp hrest
      obtain ⟨word₂', vs', rfl, helse', hvs'⟩ := List.map_eq_cons_iff.mp hrest
      obtain ⟨condition', hcondition', hc⟩ := isSpelled_condition bound hcondition (by omega) hts
      obtain ⟨accepted', haccepted', ha⟩ := isSpelled_block ih haccepted (by omega) hus'
      obtain ⟨refused', hrefused', hr⟩ := isSpelled_block ih hrefused (by omega) hvs'
      have hderived := Statement.ifElse (isWord_of_spelling hword' hword)
        (kind_of_spelling hopening' hopening) hcondition' (kind_of_spelling hclosing' hclosing)
        (isWord_of_spelling hthen' hthen) haccepted' (isWord_of_spelling helse' helse) hrefused'
      refine ⟨_, by simpa using hderived, ?_⟩
      simp only [Node.unlined, Node.unlinedAll, hc, ha, hr]
    | @assign target sign semicolon ts value htarget hsign hvalue hsemicolon =>
      simp only [List.cons_append, List.length_append, List.length_cons] at hlength
      simp only [List.cons_append, List.map_append, List.map_cons, List.map_nil] at hus
      obtain ⟨target', rest, rfl, htarget', hrest⟩ := List.map_eq_cons_iff.mp hus
      obtain ⟨sign', rest, rfl, hsign', hrest⟩ := List.map_eq_cons_iff.mp hrest
      obtain ⟨ts', rest, rfl, hts, hrest⟩ := List.map_eq_append_iff.mp hrest
      obtain ⟨semicolon', rfl, hsemicolon'⟩ := List.map_eq_singleton_iff.mp hrest
      obtain ⟨value', hvalue', hv⟩ := isSpelled_expression bound hvalue (by omega) hts
      refine ⟨_, .assign (kind_of_spelling htarget' htarget) (kind_of_spelling hsign' hsign) hvalue'
        (kind_of_spelling hsemicolon' hsemicolon), ?_⟩
      simp only [Node.unlined, Node.unlinedAll, Node.unlined_ofName, hv,
        text_eq_of_spelling htarget']

theorem isSpelled_procedure (bound : Nat) : IsSpelled Procedure bound := by
  rintro _ _ ⟨hword, hname, hbody⟩ hbound us hus
  simp only [List.length_cons] at hbound
  obtain ⟨word', rest, rfl, hword', hrest⟩ := List.map_eq_cons_iff.mp hus
  obtain ⟨name', ts', rfl, hname', hts⟩ := List.map_eq_cons_iff.mp hrest
  obtain ⟨body', hbody', hb⟩ := isSpelled_block (isSpelled_statement bound) hbody (by omega) hts
  refine ⟨_, .intro (isWord_of_spelling hword' hword) (kind_of_spelling hname' hname) hbody', ?_⟩
  simp only [Node.unlined, Node.unlinedAll, hb, text_eq_of_spelling hname']

/-- The spelling of a program determines its tree up to lines. -/
theorem isSpelled_program (bound : Nat) : IsSpelled Program bound := by
  rintro ts _ ⟨hne, hprocedures⟩ hbound us hus
  obtain ⟨procedures', hprocedures', hall⟩ :=
    exists_repeated_of_spelling (isSpelled_procedure bound) hprocedures hbound hus
  refine ⟨_, .intro (ne_nil_of_unlinedAll hall hne) hprocedures', ?_⟩
  simp only [Node.unlined, hall]

end Grammar

/-! ## Queries -/

/-- The text in which only tokens that touch are glued is the same. -/
theorem ReadAlike.spacedText_eq {ts ts' : List Token} (h : ReadAlike ts ts') :
    spacedText ts' = spacedText ts := by
  induction h with
  | nil => rfl
  | single hspelling => exact text_eq_of_spelling hspelling
  | cons hspelling htouch _ ih =>
    rw [spacedText, spacedText, htouch, ih, text_eq_of_spelling hspelling]

theorem ReadAlike.eq_nil {us : List Token} (h : ReadAlike [] us) : us = [] := by
  cases h
  rfl

theorem ReadAlike.exists_of_singleton {t : Token} {us : List Token} (h : ReadAlike [t] us) :
    ∃ t', us = [t'] ∧ t'.spelling = t.spelling := by
  cases h with
  | single hspelling => exact ⟨_, rfl, hspelling⟩

namespace QueryGrammar

open Grammar (Repeated)

/-- What is derived from some tokens is derived from all that are read alike. -/
def IsPlaceless {α : Type} (derived : List Token → α → Prop) : Prop :=
  ∀ ⦃ts : List Token⦄ ⦃a : α⦄, derived ts a → ∀ ⦃us : List Token⦄, ReadAlike ts us → derived us a

theorem isPlaceless_repeated {α : Type} {item : List Token → α → Prop} (hitem : IsPlaceless item) :
    IsPlaceless (Repeated item) := by
  intro ts as h
  induction h with
  | nil =>
    intro us hus
    obtain rfl := hus.eq_nil
    exact .nil
  | cons ha _ ih =>
    intro us hus
    obtain ⟨ts', us', rfl, hts, hus⟩ := hus.exists_of_append
    exact .cons (hitem ha hts) (ih hus)

theorem isPlaceless_separated {α : Type} {separator : Token → Prop} {item : List Token → α → Prop}
    (hseparator : ∀ t t' : Token, t'.spelling = t.spelling → separator t → separator t')
    (hitem : IsPlaceless item) : IsPlaceless (Separated separator item) := by
  intro ts as h
  induction h with
  | one ha => exact fun us hus => .one (hitem ha hus)
  | more ha ht _ ih =>
    intro us hus
    obtain ⟨ts', rest, rfl, hts, hrest⟩ := hus.exists_of_append
    obtain ⟨t', us', rfl, ht', hus⟩ := hrest.exists_of_cons
    exact .more (hitem ha hts) (hseparator _ _ ht' ht) (ih hus)

theorem isComma_of_spelling (t t' : Token) (h : t'.spelling = t.spelling) (ht : IsComma t) :
    IsComma t' :=
  kind_of_spelling h ht

theorem isAnd_of_spelling (t t' : Token) (h : t'.spelling = t.spelling) (ht : IsAnd t) : IsAnd t' :=
  isWord_of_spelling h ht

theorem isPlaceless_designEntity : IsPlaceless DesignEntity := by
  intro ts kind h us hus
  cases h with
  | word hmem hword =>
    obtain ⟨t', rfl, ht'⟩ := hus.exists_of_singleton
    exact .word hmem (isWord_of_spelling ht' hword)
  | progLine ht hu hv =>
    obtain ⟨t', rest, rfl, ht', hrest⟩ := hus.exists_of_cons
    obtain ⟨u', rest, rfl, hu', hrest⟩ := hrest.exists_of_cons
    obtain ⟨v', rfl, hv'⟩ := hrest.exists_of_singleton
    exact .progLine (isWord_of_spelling ht' ht)
      (kind_of_spelling hu' hu) (isWord_of_spelling hv' hv)

theorem isPlaceless_synonym : IsPlaceless Synonym := by
  rintro _ _ ⟨ht⟩ us hus
  obtain ⟨t', rfl, ht'⟩ := hus.exists_of_singleton
  rw [← text_eq_of_spelling ht']
  exact .intro (kind_of_spelling ht' ht)

theorem isPlaceless_declaration : IsPlaceless Declaration := by
  rintro _ _ ⟨hentity, hnames, hsemicolon⟩ us hus
  obtain ⟨front, rest, rfl, hfront, hrest⟩ := hus.exists_of_append
  obtain ⟨ts', us', rfl, hts, hus'⟩ := hfront.exists_of_append
  obtain ⟨semicolon', rfl, hsemicolon'⟩ := hrest.exists_of_singleton
  exact .intro (isPlaceless_designEntity hentity hts)
    (isPlaceless_separated isComma_of_spelling isPlaceless_synonym hnames hus')
    (kind_of_spelling hsemicolon' hsemicolon)

theorem isPlaceless_attributeName : IsPlaceless AttributeName := by
  intro ts name h us hus
  cases h with
  | word hmem hword =>
    obtain ⟨t', rfl, ht'⟩ := hus.exists_of_singleton
    exact .word hmem (isWord_of_spelling ht' hword)
  | number ht hu =>
    obtain ⟨t', rest, rfl, ht', hrest⟩ := hus.exists_of_cons
    obtain ⟨u', rfl, hu'⟩ := hrest.exists_of_singleton
    exact .number (isWord_of_spelling ht' ht)
      (kind_of_spelling hu' hu)

theorem isPlaceless_quotedName : IsPlaceless QuotedName := by
  rintro _ _ ⟨hopening, ht, hclosing⟩ us hus
  obtain ⟨opening', rest, rfl, hopening', hrest⟩ := hus.exists_of_cons
  obtain ⟨t', rest, rfl, ht', hrest⟩ := hrest.exists_of_cons
  obtain ⟨closing', rfl, hclosing'⟩ := hrest.exists_of_singleton
  rw [← text_eq_of_spelling ht']
  exact .intro (kind_of_spelling hopening' hopening)
    (kind_of_spelling ht' ht)
    (kind_of_spelling hclosing' hclosing)

theorem isPlaceless_number : IsPlaceless Number := by
  rintro _ _ ⟨ht⟩ us hus
  obtain ⟨t', rfl, ht'⟩ := hus.exists_of_singleton
  rw [← text_eq_of_spelling ht']
  exact .intro (kind_of_spelling ht' ht)

theorem isPlaceless_orAny {reference : List Token → Argument → Prop}
    (hreference : IsPlaceless reference) : IsPlaceless (OrAny reference) := by
  intro ts a h us hus
  cases h with
  | reference h => exact .reference (hreference h hus)
  | wildcard ht =>
    obtain ⟨t', rfl, ht'⟩ := hus.exists_of_singleton
    exact .wildcard (kind_of_spelling ht' ht)

theorem isPlaceless_relationName (relations : List (String × Bool × ClauseKind)) :
    IsPlaceless (RelationName relations) := by
  intro ts kind h us hus
  cases h with
  | plain hmem hword =>
    obtain ⟨t', rfl, ht'⟩ := hus.exists_of_singleton
    exact .plain hmem (isWord_of_spelling ht' hword)
  | starred hmem hword hstar =>
    obtain ⟨t', rest, rfl, ht', hrest⟩ := hus.exists_of_cons
    obtain ⟨star', rfl, hstar'⟩ := hrest.exists_of_singleton
    exact .starred hmem (isWord_of_spelling ht' hword)
      (kind_of_spelling hstar' hstar)

theorem isPlaceless_relates {relations : List (String × Bool × ClauseKind)}
    {left right : List Token → Argument → Prop} (hleft : IsPlaceless left)
    (hright : IsPlaceless right) : IsPlaceless (Relates relations left right) := by
  rintro _ _ ⟨hname, hopening, ha, hcomma, hb, hclosing⟩ us hus
  obtain ⟨front, rest, rfl, hfront, hrest⟩ := hus.exists_of_append
  obtain ⟨closing', rfl, hclosing'⟩ := hrest.exists_of_singleton
  obtain ⟨first, rest, rfl, hfirst, hrest⟩ := hfront.exists_of_append
  obtain ⟨comma', vs', rfl, hcomma', hvs⟩ := hrest.exists_of_cons
  obtain ⟨ts', rest, rfl, hts, hrest⟩ := hfirst.exists_of_append
  obtain ⟨opening', us', rfl, hopening', hus'⟩ := hrest.exists_of_cons
  exact .intro (isPlaceless_relationName relations hname hts)
    (kind_of_spelling hopening' hopening) (hleft ha hus')
    (kind_of_spelling hcomma' hcomma) (hright hb hvs)
    (kind_of_spelling hclosing' hclosing)

theorem isPlaceless_quoted : IsPlaceless Quoted := by
  rintro _ _ ⟨hopening, hne, hinner, hclosing⟩ us hus
  obtain ⟨front, rest, rfl, hfront, hrest⟩ := hus.exists_of_append
  obtain ⟨closing', rfl, hclosing'⟩ := hrest.exists_of_singleton
  obtain ⟨opening', ts', rfl, hopening', hts⟩ := hfront.exists_of_cons
  have hspelling := hts.map_spelling
  rw [← hts.spacedText_eq]
  refine .intro (kind_of_spelling hopening' hopening) ?_ ?_
    (kind_of_spelling hclosing' hclosing)
  · rintro rfl
    exact hne (List.map_eq_nil_iff.mp hspelling.symm)
  · intro t' ht'
    obtain ⟨t, ht, hkind⟩ := List.mem_map.mp (hspelling ▸ List.mem_map_of_mem ht')
    rw [← kind_of_spelling hkind rfl]
    exact hinner t ht

theorem isPlaceless_shape : IsPlaceless Shape := by
  intro ts shape h us hus
  cases h with
  | any ht =>
    obtain ⟨t', rfl, ht'⟩ := hus.exists_of_singleton
    exact .any (kind_of_spelling ht' ht)
  | part ht hquoted hu =>
    obtain ⟨front, rest, rfl, hfront, hrest⟩ := hus.exists_of_append
    obtain ⟨u', rfl, hu'⟩ := hrest.exists_of_singleton
    obtain ⟨t', ts', rfl, ht', hts⟩ := hfront.exists_of_cons
    exact .part (kind_of_spelling ht' ht) (isPlaceless_quoted hquoted hts)
      (kind_of_spelling hu' hu)
  | exact hquoted => exact .exact (isPlaceless_quoted hquoted hus)

theorem isPlaceless_patternEnd (kind : EntityKind) : IsPlaceless (PatternEnd kind) := by
  intro ts shape h us hus
  cases h with
  | assign hshape => exact .assign (isPlaceless_shape hshape hus)
  | whileLoop ht =>
    obtain ⟨t', rfl, ht'⟩ := hus.exists_of_singleton
    exact .whileLoop (kind_of_spelling ht' ht)
  | ifElse ht hcomma hu =>
    obtain ⟨t', rest, rfl, ht', hrest⟩ := hus.exists_of_cons
    obtain ⟨comma', rest, rfl, hcomma', hrest⟩ := hrest.exists_of_cons
    obtain ⟨u', rfl, hu'⟩ := hrest.exists_of_singleton
    exact .ifElse (kind_of_spelling ht' ht)
      (kind_of_spelling hcomma' hcomma) (kind_of_spelling hu' hu)

section Declared

variable (declared : Declarations)

theorem isPlaceless_attributeRef : IsPlaceless (AttributeRef declared) := by
  rintro _ _ ⟨ht, hdeclared, hdot, hname, hattr⟩ us hus
  obtain ⟨t', rest, rfl, ht', hrest⟩ := hus.exists_of_cons
  obtain ⟨dot', ts', rfl, hdot', hts⟩ := hrest.exists_of_cons
  rw [← text_eq_of_spelling ht'] at hdeclared ⊢
  exact .intro (kind_of_spelling ht' ht) hdeclared
    (kind_of_spelling hdot' hdot) (isPlaceless_attributeName hname hts) hattr

theorem isPlaceless_selected : IsPlaceless (Selected declared) := by
  intro ts e h us hus
  cases h with
  | plain ht hdeclared =>
    obtain ⟨t', rfl, ht'⟩ := hus.exists_of_singleton
    rw [← text_eq_of_spelling ht'] at hdeclared ⊢
    exact .plain (kind_of_spelling ht' ht) hdeclared
  | attr href => exact .attr (isPlaceless_attributeRef declared href hus)

theorem isPlaceless_result : IsPlaceless (Result declared) := by
  intro ts es h us hus
  cases h with
  | boolean ht hfree =>
    obtain ⟨t', rfl, ht'⟩ := hus.exists_of_singleton
    exact .boolean (isWord_of_spelling ht' ht) hfree
  | single he => exact .single (isPlaceless_selected declared he hus)
  | tuple hopening hes hclosing =>
    obtain ⟨front, rest, rfl, hfront, hrest⟩ := hus.exists_of_append
    obtain ⟨closing', rfl, hclosing'⟩ := hrest.exists_of_singleton
    obtain ⟨opening', ts', rfl, hopening', hts⟩ := hfront.exists_of_cons
    exact .tuple (kind_of_spelling hopening' hopening)
      (isPlaceless_separated isComma_of_spelling (isPlaceless_selected declared) hes hts)
      (kind_of_spelling hclosing' hclosing)

theorem isPlaceless_synonymFor (kinds : List EntityKind) (sort : ArgumentKind) :
    IsPlaceless (SynonymFor declared kinds sort) := by
  rintro _ _ ⟨ht, hdeclared, hkind⟩ us hus
  obtain ⟨t', rfl, ht'⟩ := hus.exists_of_singleton
  rw [← text_eq_of_spelling ht'] at hdeclared ⊢
  exact .intro (kind_of_spelling ht' ht) hdeclared hkind

theorem isPlaceless_statementRef : IsPlaceless (StatementRef declared) := by
  intro ts a h us hus
  cases h with
  | synonym h => exact .synonym (isPlaceless_synonymFor declared _ _ h hus)
  | number h => exact .number (isPlaceless_number h hus)

theorem isPlaceless_namedRef (kind : EntityKind) (sort : ArgumentKind) :
    IsPlaceless (NamedRef declared kind sort) := by
  intro ts a h us hus
  cases h with
  | synonym h => exact .synonym (isPlaceless_synonymFor declared _ _ h hus)
  | name h => exact .name (isPlaceless_quotedName h hus)

theorem isPlaceless_relation : IsPlaceless (Relation declared) := by
  have hstatement := isPlaceless_statementRef declared
  have hnamed := isPlaceless_namedRef declared
  intro ts c h us hus
  rcases h with h | h | h
  · exact .inl (isPlaceless_relates (isPlaceless_orAny hstatement) (isPlaceless_orAny hstatement)
      h hus)
  · exact .inr (.inl (isPlaceless_relates (isPlaceless_orAny (hnamed _ _))
      (isPlaceless_orAny (hnamed _ _)) h hus))
  · refine .inr (.inr (isPlaceless_relates ?_ (isPlaceless_orAny (hnamed _ _)) h hus))
    intro ts a ha us hus
    exact ha.imp (fun h => hstatement h hus) fun h => hnamed _ _ h hus

theorem isPlaceless_pattern : IsPlaceless (Pattern declared) := by
  rintro _ _ ⟨ht, hdeclared, hopening, htarget, hcomma, hend, hclosing⟩ us hus
  obtain ⟨front, rest, rfl, hfront, hrest⟩ := hus.exists_of_append
  obtain ⟨closing', rfl, hclosing'⟩ := hrest.exists_of_singleton
  obtain ⟨first, rest, rfl, hfirst, hrest⟩ := hfront.exists_of_append
  obtain ⟨comma', us', rfl, hcomma', hus'⟩ := hrest.exists_of_cons
  obtain ⟨t', rest, rfl, ht', hrest⟩ := hfirst.exists_of_cons
  obtain ⟨opening', ts', rfl, hopening', hts⟩ := hrest.exists_of_cons
  rw [← text_eq_of_spelling ht'] at hdeclared ⊢
  exact .intro (kind_of_spelling ht' ht) hdeclared
    (kind_of_spelling hopening' hopening)
    (isPlaceless_orAny (isPlaceless_namedRef declared _ _) htarget hts)
    (kind_of_spelling hcomma' hcomma) (isPlaceless_patternEnd _ hend hus')
    (kind_of_spelling hclosing' hclosing)

theorem isPlaceless_operand : IsPlaceless (Operand declared) := by
  intro ts a h us hus
  cases h with
  | name h => exact .name (isPlaceless_quotedName h hus)
  | number h => exact .number (isPlaceless_number h hus)
  | attr h => exact .attr (isPlaceless_attributeRef declared h hus)
  | line h => exact .line (isPlaceless_synonymFor declared _ _ h hus)

theorem isPlaceless_equation : IsPlaceless (Equation declared) := by
  rintro _ _ ⟨hleft, hsign, hright⟩ us hus
  obtain ⟨ts', rest, rfl, hts, hrest⟩ := hus.exists_of_append
  obtain ⟨sign', us', rfl, hsign', hus⟩ := hrest.exists_of_cons
  exact .intro (isPlaceless_operand declared hleft hts)
    (kind_of_spelling hsign' hsign) (isPlaceless_operand declared hright hus)

theorem isPlaceless_clauses : IsPlaceless (Clauses declared) := by
  intro ts cs h us hus
  cases h with
  | relations hsuch hthat hclauses =>
    obtain ⟨such', rest, rfl, hsuch', hrest⟩ := hus.exists_of_cons
    obtain ⟨that', ts', rfl, hthat', hts⟩ := hrest.exists_of_cons
    exact .relations (isWord_of_spelling hsuch' hsuch)
      (isWord_of_spelling hthat' hthat)
      (isPlaceless_separated isAnd_of_spelling (isPlaceless_relation declared) hclauses hts)
  | patterns hword hclauses =>
    obtain ⟨word', ts', rfl, hword', hts⟩ := hus.exists_of_cons
    exact .patterns (isWord_of_spelling hword' hword)
      (isPlaceless_separated isAnd_of_spelling (isPlaceless_pattern declared) hclauses hts)
  | equations hword hclauses =>
    obtain ⟨word', ts', rfl, hword', hts⟩ := hus.exists_of_cons
    exact .equations (isWord_of_spelling hword' hword)
      (isPlaceless_separated isAnd_of_spelling (isPlaceless_equation declared) hclauses hts)

end Declared

/-- Tokens that are read alike are the same query. -/
theorem isPlaceless_selectClause : IsPlaceless SelectClause := by
  rintro _ _ ⟨hdeclared, hnodup, hword, hresult, hclauses⟩ us hus
  obtain ⟨front, vs', rfl, hfront, hvs⟩ := hus.exists_of_append
  obtain ⟨ts', rest, rfl, hts, hrest⟩ := hfront.exists_of_append
  obtain ⟨word', us', rfl, hword', hus⟩ := hrest.exists_of_cons
  exact .intro (isPlaceless_repeated isPlaceless_declaration hdeclared hts) hnodup
    (isWord_of_spelling hword' hword) (isPlaceless_result _ hresult hus)
    (isPlaceless_repeated (isPlaceless_clauses _) hclauses hvs)

end QueryGrammar

/-! ## Texts -/

theorem programTree_eq_ok_iff {text : String} {tree : Node} : programTree text = .ok tree ↔
    ∃ ts, tokenize text = .ok ts ∧ Grammar.Program ts tree := by
  constructor
  · intro h
    obtain ⟨ts, hts, h⟩ := exists_of_bind_eq_ok h
    obtain ⟨procedures, hprocedures, h⟩ := exists_of_bind_eq_ok (eq_ok_of_mapError h)
    obtain rfl := Except.ok.inj h
    obtain ⟨hne, hderived⟩ := Grammar.of_readProcedures hprocedures
    exact ⟨ts, eq_ok_of_mapError hts, .intro hne hderived⟩
  · rintro ⟨ts, hts, hprogram⟩
    obtain @⟨procedures, hne, hderived⟩ := hprogram
    rw [programTree, hts]
    have hparse : parseProgram ts = .ok ⟨.program, none, "", "", procedures⟩ := by
      rw [parseProgram, Grammar.readProcedures_eq hderived hne (Nat.le_refl _)]
      rfl
    exact congrArg (Except.mapError ParseError.grammatical) hparse

section Words

variable {text text' : String}

theorem exists_programTree_of_wordsOf (h : wordsOf text.toList = wordsOf text'.toList)
    {tree : Node} (htree : programTree text = .ok tree) :
    ∃ tree', programTree text' = .ok tree' ∧ tree'.unlined = tree.unlined := by
  obtain ⟨ts, hts, hprogram⟩ := programTree_eq_ok_iff.mp htree
  obtain ⟨ts', hts', halike⟩ := exists_readAlike h hts
  obtain ⟨tree', htree', hunlined⟩ :=
    Grammar.isSpelled_program _ hprogram (Nat.le_refl _) halike.map_spelling
  exact ⟨tree', programTree_eq_ok_iff.mpr ⟨ts', hts', htree'⟩, hunlined⟩

theorem ofText_eq_ok_of_wordsOf (h : wordsOf text.toList = wordsOf text'.toList) {q : Query}
    (hq : Query.ofText text = .ok q) : Query.ofText text' = .ok q := by
  obtain ⟨ts, hts, hselect⟩ := ofText_eq_ok_iff.mp hq
  obtain ⟨ts', hts', halike⟩ := exists_readAlike h hts
  exact ofText_eq_ok_iff.mpr ⟨ts', hts', QueryGrammar.isPlaceless_selectClause hselect halike⟩

theorem programTree_unlined_eq (h : wordsOf text.toList = wordsOf text'.toList) :
    (programTree text).toOption.map Node.unlined =
      (programTree text').toOption.map Node.unlined := by
  cases htree : programTree text with
  | ok tree =>
    obtain ⟨tree', htree', hunlined⟩ := exists_programTree_of_wordsOf h htree
    rw [htree']
    exact congrArg some hunlined.symm
  | error e =>
    cases htree' : programTree text' with
    | error e' => rfl
    | ok tree' =>
      obtain ⟨tree, hok, -⟩ := exists_programTree_of_wordsOf h.symm htree'
      cases htree.symm.trans hok

theorem ofText_toOption_eq (h : wordsOf text.toList = wordsOf text'.toList) :
    (Query.ofText text).toOption = (Query.ofText text').toOption := by
  cases hq : Query.ofText text with
  | ok q => rw [ofText_eq_ok_of_wordsOf h hq]
  | error e =>
    cases hq' : Query.ofText text' with
    | error e' => rfl
    | ok q => cases hq.symm.trans (ofText_eq_ok_of_wordsOf h.symm hq')

theorem ofTextD_eq (h : wordsOf text.toList = wordsOf text'.toList) :
    Query.ofTextD text = Query.ofTextD text' := by
  rw [Query.ofTextD, Query.ofTextD, ofText_toOption_eq h]

end Words

/-! ## Query files -/

theorem cutWords_append_blank {c : Char} (hc : isBlank c = true) (cs ds : List Char) :
    cutWords (cs ++ c :: ds) = ((cutWords cs).1, (cutWords cs).2 ++ wordsOf ds) := by
  induction cs with
  | nil => exact cutWords_blank hc ds
  | cons b cs ih =>
    rw [List.cons_append, cutWords, cutWords, ih]
    cases isBlank b with
    | false => rfl
    | true =>
      by_cases hfirst : (cutWords cs).1 = []
      · simp [hfirst]
      · simp [hfirst]

theorem wordsOf_append_blank {c : Char} (hc : isBlank c = true) (cs ds : List Char) :
    wordsOf (cs ++ c :: ds) = wordsOf cs ++ wordsOf ds := by
  rw [wordsOf, cutWords_append_blank hc, wordsOf.eq_1 cs]
  by_cases hfirst : (cutWords cs).1 = []
  · simp [hfirst]
  · simp [hfirst]

/-- The words of some lines that a blank joins are those of one line after another. -/
theorem wordsOf_intercalate {c : Char} (hc : isBlank c = true) (lines : List (List Char)) :
    wordsOf ([c].intercalate lines) = lines.flatMap wordsOf := by
  induction lines with
  | nil => rfl
  | cons line lines ih =>
    cases lines with
    | nil => simp
    | cons next lines =>
      rw [List.intercalate_cons_cons, List.flatMap_cons, ← ih, List.append_assoc]
      exact wordsOf_append_blank hc _ _

theorem wordsOf_append_gap (cs : List Char) {gap : List Char} (h : IsGap gap) :
    wordsOf (cs ++ gap) = wordsOf cs := by
  cases gap with
  | nil => rw [List.append_nil]
  | cons c gap =>
    obtain ⟨hc, hgap⟩ := List.forall_mem_cons.mp h
    rw [wordsOf_append_blank hc, wordsOf_eq_nil_iff.mpr hgap, List.append_nil]

theorem wordsOf_trimBlanks (line : List Char) : wordsOf (trimBlanks line) = wordsOf line := by
  have hgap (cs : List Char) : IsGap (cs.takeWhile isBlank) :=
    List.all_eq_true.mp List.all_takeWhile
  have hstart := wordsOf_gap (hgap line) (line.dropWhile isBlank)
  rw [List.takeWhile_append_dropWhile] at hstart
  have hstop : IsGap ((line.dropWhile isBlank).reverse.takeWhile isBlank).reverse :=
    fun c hc => hgap _ c (List.mem_reverse.mp hc)
  rw [hstart, trimBlanks, ← wordsOf_append_gap _ hstop, ← List.reverse_append,
    List.takeWhile_append_dropWhile, List.reverse_reverse]

/-- Lines that are trimmed and joined by single blanks have the words of the lines as they stand. -/
theorem wordsOf_joined (lines : List (List Char)) :
    wordsOf ([' '].intercalate (lines.map trimBlanks)) = wordsOf (['\n'].intercalate lines) := by
  rw [wordsOf_intercalate (by decide), wordsOf_intercalate (by decide), List.flatMap_map]
  exact congrArg lines.flatMap (funext wordsOf_trimBlanks)

/-- The empty line instead of a line of blanks; any other line as it is. -/
def emptied (line : List Char) : List Char :=
  if trimBlanks line = [] then [] else line

/-- The queries of a file, each as the lines on which it stands there. Comments are left out. -/
def queryBlocks (text : String) : List (List (List Char)) :=
  paragraphs []
    (((linesOf text.toList).filter fun line => !isComment (trimBlanks line)).map emptied)

theorem trimBlanks_emptied (line : List Char) : trimBlanks (emptied line) = trimBlanks line := by
  rw [emptied]
  split
  · next h => rw [h]; rfl
  · rfl

theorem trimBlanks_emptied_eq_nil_iff (line : List Char) :
    trimBlanks (emptied line) = [] ↔ emptied line = [] := by
  rw [trimBlanks_emptied, emptied]
  split
  · next h => exact iff_of_true h rfl
  · next h => exact iff_of_false h fun hnil => h (by rw [hnil]; rfl)

/-- Lines are put together alike before and after a change that keeps which ones are empty. -/
theorem paragraphs_map {f : List Char → List Char} {lines : List (List Char)}
    (hf : ∀ line ∈ lines, (f line = [] ↔ line = [])) (current : List (List Char)) :
    paragraphs (current.map f) (lines.map f) =
      (paragraphs current lines).map (List.map f) := by
  induction lines generalizing current with
  | nil =>
    cases current with
    | nil => rfl
    | cons line current => rfl
  | cons line lines ih =>
    obtain ⟨hline, hlines⟩ := List.forall_mem_cons.mp hf
    have hrest := ih hlines []
    have hmore := ih hlines (current ++ [line])
    rw [List.map_nil] at hrest
    rw [List.map_append, List.map_singleton] at hmore
    simp only [List.map_cons, paragraphs, hline, List.map_eq_nil_iff, hrest, hmore]
    split
    · split
      · rfl
      · rfl
    · rfl

theorem splitQueries_eq (text : String) : splitQueries text = (queryBlocks text).map
    fun lines => String.ofList ([' '].intercalate (lines.map trimBlanks)) := by
  have hlines : ((linesOf text.toList).map trimBlanks).filter (fun line => !isComment line) =
      (((linesOf text.toList).filter fun line => !isComment (trimBlanks line)).map emptied).map
        trimBlanks := by
    rw [List.filter_map, List.map_map]
    exact List.map_congr_left fun line _ => (trimBlanks_emptied line).symm
  have hparagraphs : paragraphs [] (((linesOf text.toList).map trimBlanks).filter
      fun line => !isComment line) = (queryBlocks text).map (List.map trimBlanks) := by
    rw [hlines]
    refine paragraphs_map (fun line hline => ?_) []
    obtain ⟨line, -, rfl⟩ := List.mem_map.mp hline
    exact trimBlanks_emptied_eq_nil_iff line
  rw [splitQueries, hparagraphs, List.map_map]
  rfl

/-- Only the presence of blanks matters. Texts that are the same but for blanks are the same query
or both none, and are programs with the same tree up to line numbers or both none. So a query that
stands on several lines of a file has the answer that it would have if its lines were not trimmed
and joined. -/
theorem blanks_only_separate :
    (∀ text text', Respaced text text' →
      Query.ofTextD text = Query.ofTextD text' ∧
      (Query.ofText text).toOption = (Query.ofText text').toOption ∧
      (programTree text).toOption.map Node.unlined =
        (programTree text').toOption.map Node.unlined) ∧
    ∀ facts file, answerLines facts (splitQueries file) = answerLines facts
      ((queryBlocks file).map fun lines => String.ofList (['\n'].intercalate lines)) := by
  constructor
  · intro text text' h
    have hwords := respaced_iff.mp h
    exact ⟨ofTextD_eq hwords, ofText_toOption_eq hwords, programTree_unlined_eq hwords⟩
  · intro facts file
    rw [splitQueries_eq, answerLines, answerLines, List.map_map, List.map_map]
    refine List.map_congr_left fun lines _ => ?_
    have hquery : Query.ofTextD (String.ofList ([' '].intercalate (lines.map trimBlanks))) =
        Query.ofTextD (String.ofList (['\n'].intercalate lines)) := by
      refine ofTextD_eq ?_
      rw [String.toList_ofList, String.toList_ofList, wordsOf_joined]
    simp only [Function.comp_apply, answerText, hquery]

/-- A query with a pattern and a program, each with other blanks, and a query on three lines with a
comment among them. -/
theorem blanks_only_separate_lines :
    Respaced "assign a;Select a pattern a(_, _\"x+ 1\"_)"
      "\n assign\ta;Select a\n\npattern a(_,\t_\"x+\n\t1\"_) " ∧
    Query.ofTextD "assign a;Select a pattern a(_, _\"x+ 1\"_)" =
      Query.ofTextD "\n assign\ta;Select a\n\npattern a(_,\t_\"x+\n\t1\"_) " ∧
    (programTree "procedure p\x7bx = 1;\x7d").toOption.map Node.unlined =
      (programTree "procedure\n\np\x7bx\n=  1;\x7d\n").toOption.map Node.unlined ∧
    queryBlocks "stmt s;\r\n# none\n  Select s \n\n" =
      [["stmt s;\r".toList, "  Select s ".toList]] ∧
    ∀ facts, answerLines facts (splitQueries "stmt s;\r\n# none\n  Select s \n\n") =
      answerLines facts ["stmt s;\r\n  Select s "] := by
  have hquery : Respaced "assign a;Select a pattern a(_, _\"x+ 1\"_)"
      "\n assign\ta;Select a\n\npattern a(_,\t_\"x+\n\t1\"_) " := by
    decide +kernel
  have hprogram : Respaced "procedure p\x7bx = 1;\x7d" "procedure\n\np\x7bx\n=  1;\x7d\n" := by
    decide +kernel
  have hblocks : queryBlocks "stmt s;\r\n# none\n  Select s \n\n" =
      [["stmt s;\r".toList, "  Select s ".toList]] := by
    decide +kernel
  refine ⟨hquery, (blanks_only_separate.1 _ _ hquery).1, (blanks_only_separate.1 _ _ hprogram).2.2,
    hblocks, fun facts => ?_⟩
  have hanswers := blanks_only_separate.2 facts "stmt s;\r\n# none\n  Select s \n\n"
  rw [hblocks] at hanswers
  exact hanswers

end ProgramQuery
