import ProgramQuery.Proofs.Spellings

/-!
# Texts that differ in their blanks only

Two texts are the same but for blanks if one comes from the other by putting some run of blanks in
the place of each run of blanks, with any blanks at the two ends. Such texts have the same words,
which are the longest runs of other characters. No lexeme goes on past a word, and tokens touch only
within one, so the tokens of both texts have the same spellings and the same ones touch. Only their
places differ.

## Main definitions

- `Respaced`: the same text but for blanks.
- `wordsOf`: the words of a text.
- `ReadAlike`: tokens that differ in their places only.

## Main statements

- `respaced_iff`: texts are the same but for blanks exactly if they have the same words.
- `exists_readAlike`: texts with the same words have tokens that differ in their places only.
-/

namespace ProgramQuery

/-! ## Texts -/

/-- All of the characters are blank. -/
def IsGap (cs : List Char) : Prop :=
  ∀ c ∈ cs, isBlank c = true

/-- Each run of blanks stands in the place of a run of blanks, and all else is the same. -/
inductive SameRuns : List Char → List Char → Prop
  | nil : SameRuns [] []
  | char {c : Char} {cs cs' : List Char} (hc : isBlank c = false) (h : SameRuns cs cs') :
      SameRuns (c :: cs) (c :: cs')
  | run {gap gap' cs cs' : List Char} (hgap : IsGap gap) (hne : gap ≠ []) (hgap' : IsGap gap')
      (hne' : gap' ≠ []) (h : SameRuns cs cs') : SameRuns (gap ++ cs) (gap' ++ cs')

/-- The texts are the same but for the lengths and the characters of their runs of blanks, and for
blanks at their two ends. -/
def Respaced (text text' : String) : Prop :=
  ∃ start body stop start' body' stop', text.toList = start ++ (body ++ stop) ∧
    text'.toList = start' ++ (body' ++ stop') ∧ IsGap start ∧ IsGap stop ∧ IsGap start' ∧
    IsGap stop' ∧ SameRuns body body'

/-- The characters up to the first blank, and the words after them. -/
def cutWords : List Char → List Char × List (List Char)
  | [] => ([], [])
  | c :: cs =>
    let (first, words) := cutWords cs
    if isBlank c then ([], if first = [] then words else first :: words) else (c :: first, words)

/-- The words of a text: the longest runs of characters that are not blank. -/
def wordsOf (cs : List Char) : List (List Char) :=
  let (first, words) := cutWords cs
  if first = [] then words else first :: words

theorem cutWords_blank {c : Char} (hc : isBlank c = true) (cs : List Char) :
    cutWords (c :: cs) = ([], wordsOf cs) := by
  rw [cutWords, wordsOf]
  exact if_pos hc

theorem cutWords_char {c : Char} (hc : isBlank c = false) (cs : List Char) :
    cutWords (c :: cs) = (c :: (cutWords cs).1, (cutWords cs).2) := by
  rw [cutWords]
  exact if_neg (by simp [hc])

theorem wordsOf_blank {c : Char} (hc : isBlank c = true) (cs : List Char) :
    wordsOf (c :: cs) = wordsOf cs := by
  rw [wordsOf, cutWords_blank hc]
  exact if_pos rfl

theorem wordsOf_char {c : Char} (hc : isBlank c = false) (cs : List Char) :
    wordsOf (c :: cs) = (cutWords (c :: cs)).1 :: (cutWords (c :: cs)).2 := by
  rw [wordsOf, cutWords_char hc]
  exact if_neg (by simp)

theorem wordsOf_eq_of_cutWords {cs cs' : List Char} (h : cutWords cs = cutWords cs') :
    wordsOf cs = wordsOf cs' := by
  rw [wordsOf, wordsOf, h]

theorem wordsOf_gap {gap : List Char} (h : IsGap gap) (cs : List Char) :
    wordsOf (gap ++ cs) = wordsOf cs := by
  induction gap with
  | nil => rfl
  | cons c gap ih =>
    obtain ⟨hc, hgap⟩ := List.forall_mem_cons.mp h
    rw [List.cons_append, wordsOf_blank hc, ih hgap]

theorem cutWords_gap {gap : List Char} (h : IsGap gap) (hne : gap ≠ []) (cs : List Char) :
    cutWords (gap ++ cs) = ([], wordsOf cs) := by
  cases gap with
  | nil => exact absurd rfl hne
  | cons c gap =>
    obtain ⟨hc, hgap⟩ := List.forall_mem_cons.mp h
    rw [List.cons_append, cutWords_blank hc, wordsOf_gap hgap]

theorem cutWords_eq_nil {cs : List Char} (h : IsGap cs) : cutWords cs = ([], []) := by
  cases cs with
  | nil => rfl
  | cons c cs =>
    have hcut := cutWords_gap h (by simp) []
    rwa [List.append_nil] at hcut

/-- Whether blanks stand before a character shows from how the text is cut. -/
theorem gap_eq_nil_iff {gap : List Char} (hgap : IsGap gap) {c : Char} (hc : isBlank c = false)
    (cs : List Char) : gap = [] ↔ (cutWords (gap ++ c :: cs)).1 ≠ [] := by
  constructor
  · rintro rfl
    rw [List.nil_append, cutWords_char hc]
    exact List.cons_ne_nil _ _
  · intro h
    by_contra hne
    rw [cutWords_gap hgap hne] at h
    exact h rfl

/-- Only blanks have no words. -/
theorem wordsOf_eq_nil_iff {cs : List Char} : wordsOf cs = [] ↔ IsGap cs := by
  constructor
  · intro h
    induction cs with
    | nil => exact List.forall_mem_nil _
    | cons c cs ih =>
      cases hc : isBlank c with
      | true =>
        rw [wordsOf_blank hc] at h
        exact List.forall_mem_cons.mpr ⟨hc, ih h⟩
      | false =>
        rw [wordsOf_char hc] at h
        cases h
  · intro h
    rw [wordsOf, cutWords_eq_nil h]
    rfl

/-- A text whose words start with given characters starts with these. -/
theorem exists_of_cutWords_append {lexeme cs cs' : List Char}
    (hlexeme : ∀ c ∈ lexeme, isBlank c = false)
    (h : cutWords (lexeme ++ cs) = cutWords cs') :
    ∃ rest', cs' = lexeme ++ rest' ∧ cutWords cs = cutWords rest' := by
  induction lexeme generalizing cs' with
  | nil => exact ⟨cs', rfl, h⟩
  | cons c lexeme ih =>
    obtain ⟨hc, hlexeme⟩ := List.forall_mem_cons.mp hlexeme
    rw [List.cons_append, cutWords_char hc] at h
    cases cs' with
    | nil => cases h
    | cons c' cs' =>
      cases hc' : isBlank c' with
      | true =>
        rw [cutWords_blank hc'] at h
        cases h
      | false =>
        rw [cutWords_char hc'] at h
        obtain ⟨hfirst, hwords⟩ := Prod.mk.inj h
        obtain ⟨rfl, hmore⟩ := List.cons.inj hfirst
        obtain ⟨rest', rfl, hrest⟩ := ih hlexeme (Prod.ext hmore hwords)
        exact ⟨rest', rfl, hrest⟩

/-- Texts that start with no blank have the same words only if they are cut alike. -/
theorem cutWords_eq_of_wordsOf {cs cs' : List Char} (h : wordsOf cs = wordsOf cs')
    (hcs : ∀ c ∈ cs.head?, isBlank c = false) (hcs' : ∀ c ∈ cs'.head?, isBlank c = false) :
    cutWords cs = cutWords cs' := by
  cases cs with
  | nil =>
    have hgap : IsGap cs' := wordsOf_eq_nil_iff.mp h.symm
    rw [cutWords_eq_nil hgap, cutWords]
  | cons c cs =>
    cases cs' with
    | nil =>
      have hgap : IsGap (c :: cs) := wordsOf_eq_nil_iff.mp h
      rw [cutWords_eq_nil hgap, cutWords]
    | cons c' cs' =>
      rw [wordsOf_char (hcs c rfl), wordsOf_char (hcs' c' rfl)] at h
      exact Prod.ext (List.cons.inj h).1 (List.cons.inj h).2

theorem SameRuns.cutWords_eq {body body' : List Char} (h : SameRuns body body')
    {stop stop' : List Char} (hstop : IsGap stop) (hstop' : IsGap stop') :
    cutWords (body ++ stop) = cutWords (body' ++ stop') := by
  induction h with
  | nil => rw [List.nil_append, List.nil_append, cutWords_eq_nil hstop, cutWords_eq_nil hstop']
  | char hc _ ih => rw [List.cons_append, List.cons_append, cutWords_char hc, cutWords_char hc, ih]
  | run hgap hne hgap' hne' _ ih =>
    rw [List.append_assoc, List.append_assoc, cutWords_gap hgap hne, cutWords_gap hgap' hne',
      wordsOf_eq_of_cutWords ih]

/-- Texts that are cut alike are the same but for blanks. -/
theorem exists_sameRuns {cs cs' : List Char} (h : cutWords cs = cutWords cs') :
    ∃ body stop body' stop', cs = body ++ stop ∧ cs' = body' ++ stop' ∧ IsGap stop ∧
      IsGap stop' ∧ SameRuns body body' := by
  induction hlength : cs.length using Nat.strongRecOn generalizing cs cs' with
  | ind n ih =>
    obtain ⟨gap, rest, rfl, hgap, hrest⟩ := exists_gap cs
    obtain ⟨gap', rest', rfl, hgap', hrest'⟩ := exists_gap cs'
    have hwords : wordsOf rest = wordsOf rest' := by
      have hboth := wordsOf_eq_of_cutWords h
      rwa [wordsOf_gap hgap, wordsOf_gap hgap'] at hboth
    have hcut := cutWords_eq_of_wordsOf hwords hrest hrest'
    cases rest with
    | nil =>
      have hblank : IsGap rest' := wordsOf_eq_nil_iff.mp hwords.symm
      exact ⟨[], gap ++ [], [], gap' ++ rest', rfl, rfl, by rwa [List.append_nil],
        List.forall_mem_append.mpr ⟨hgap', hblank⟩, .nil⟩
    | cons c rest =>
      have hc := hrest c rfl
      obtain ⟨rest', rfl, hmore⟩ :=
        exists_of_cutWords_append (List.forall_mem_singleton.mpr hc) hcut
      have hlt : rest.length < n := by
        simp only [List.length_append, List.length_cons] at hlength
        omega
      obtain ⟨body, stop, body', stop', rfl, rfl, hstop, hstop', hbody⟩ := ih _ hlt hmore rfl
      have hiff : gap = [] ↔ gap' = [] := by
        rw [gap_eq_nil_iff hgap hc, h]
        exact (gap_eq_nil_iff hgap' hc _).symm
      by_cases hne : gap = []
      · obtain rfl := hne
        obtain rfl := hiff.mp rfl
        exact ⟨c :: body, stop, c :: body', stop', rfl, rfl, hstop, hstop', .char hc hbody⟩
      · exact ⟨gap ++ c :: body, stop, gap' ++ c :: body', stop', by simp, by simp, hstop, hstop',
          .run hgap hne hgap' (mt hiff.mpr hne) (.char hc hbody)⟩

/-- Texts are the same but for blanks exactly if they have the same words. -/
theorem respaced_iff {text text' : String} :
    Respaced text text' ↔ wordsOf text.toList = wordsOf text'.toList := by
  constructor
  · rintro ⟨start, body, stop, start', body', stop', htext, htext', hstart, hstop, hstart', hstop',
      hbody⟩
    rw [htext, htext', wordsOf_gap hstart, wordsOf_gap hstart',
      wordsOf_eq_of_cutWords (hbody.cutWords_eq hstop hstop')]
  · intro h
    obtain ⟨start, rest, htext, hstart, hrest⟩ := exists_gap text.toList
    obtain ⟨start', rest', htext', hstart', hrest'⟩ := exists_gap text'.toList
    rw [htext, htext', wordsOf_gap hstart, wordsOf_gap hstart'] at h
    obtain ⟨body, stop, body', stop', rfl, rfl, hstop, hstop', hbody⟩ :=
      exists_sameRuns (cutWords_eq_of_wordsOf h hrest hrest')
    exact ⟨start, body, stop, start', body', stop', htext, htext', hstart, hstop, hstart', hstop',
      hbody⟩

instance (text text' : String) : Decidable (Respaced text text') :=
  decidable_of_iff _ respaced_iff.symm

/-! ## Tokens -/

/-- The tokens have the same spellings, and the same ones touch. -/
inductive ReadAlike : List Token → List Token → Prop
  | nil : ReadAlike [] []
  | single {t t' : Token} (hspelling : t'.spelling = t.spelling) : ReadAlike [t] [t']
  | cons {t t' u u' : Token} {ts ts' : List Token} (hspelling : t'.spelling = t.spelling)
      (htouch : t'.isAdjacentTo u' = t.isAdjacentTo u) (h : ReadAlike (u :: ts) (u' :: ts')) :
      ReadAlike (t :: u :: ts) (t' :: u' :: ts')

theorem ReadAlike.map_spelling {ts ts' : List Token} (h : ReadAlike ts ts') :
    ts'.map Token.spelling = ts.map Token.spelling := by
  induction h with
  | nil => rfl
  | single hspelling => rw [List.map_singleton, List.map_singleton, hspelling]
  | cons hspelling _ _ ih => exact congrArg₂ List.cons hspelling ih

theorem ReadAlike.exists_of_cons {t : Token} {ts us : List Token} (h : ReadAlike (t :: ts) us) :
    ∃ t' ts', us = t' :: ts' ∧ t'.spelling = t.spelling ∧ ReadAlike ts ts' := by
  cases h with
  | single hspelling => exact ⟨_, _, rfl, hspelling, .nil⟩
  | cons hspelling _ h => exact ⟨_, _, rfl, hspelling, h⟩

theorem ReadAlike.exists_of_append {ts us vs : List Token} (h : ReadAlike (ts ++ us) vs) :
    ∃ ts' us', vs = ts' ++ us' ∧ ReadAlike ts ts' ∧ ReadAlike us us' := by
  induction ts generalizing vs with
  | nil => exact ⟨[], vs, rfl, .nil, h⟩
  | cons t ts ih =>
    obtain ⟨t', vs, rfl, hspelling, hmore⟩ := h.exists_of_cons
    obtain ⟨ts', us', rfl, hts, hus⟩ := ih hmore
    refine ⟨t' :: ts', us', rfl, ?_, hus⟩
    cases hts with
    | nil => exact .single hspelling
    | single hspelling' =>
      cases h with
      | cons _ htouch _ => exact .cons hspelling htouch (.single hspelling')
    | cons hspelling' htouch' hts =>
      cases h with
      | cons _ htouch _ => exact .cons hspelling htouch (.cons hspelling' htouch' hts)

/-- Texts that are cut alike start with the same character or with blanks. -/
theorem head?_of_cutWords {cs cs' : List Char} (h : cutWords cs = cutWords cs') :
    ∀ c ∈ cs'.head?, isBlank c = true ∨ c ∈ cs.head? := by
  intro c hc
  cases hblank : isBlank c with
  | true => exact .inl rfl
  | false =>
    obtain ⟨rest', rfl⟩ : ∃ rest', cs' = [c] ++ rest' := List.head?_eq_some_iff.mp hc
    obtain ⟨rest, rfl, -⟩ := exists_of_cutWords_append (List.forall_mem_singleton.mpr hblank) h.symm
    exact .inr rfl

/-- Where a text has a piece, another text with the same words has one too. -/
theorem Piece.StandsBetween.exists_alike {before after : List Char} {p : Piece}
    (h : p.StandsBetween before after) {cs' : List Char}
    (hwords : wordsOf (p.chars ++ after) = wordsOf cs') (before' : List Char) :
    ∃ (p' : Piece) (after' : List Char), cs' = p'.chars ++ after' ∧
      p'.StandsBetween before' after' ∧ p'.token.spelling = p.token.spelling ∧
      cutWords after = cutWords after' ∧
      (cutWords (p.chars ++ after) = cutWords cs' → (p'.gap = [] ↔ p.gap = [])) := by
  have hlexeme := h.longest.isLexeme
  obtain ⟨c, lexeme, htext⟩ := List.exists_cons_of_ne_nil hlexeme.ne_nil
  have hc : isBlank c = false := hlexeme.not_blank c (htext ▸ List.mem_cons_self)
  obtain ⟨gap', rest', rfl, hgap', hrest'⟩ := exists_gap cs'
  rw [Piece.chars, List.append_assoc] at hwords ⊢
  rw [wordsOf_gap h.blank, wordsOf_gap hgap'] at hwords
  have hcut := cutWords_eq_of_wordsOf hwords (by simpa [htext] using hc) hrest'
  obtain ⟨after', rfl, hafter⟩ := exists_of_cutWords_append hlexeme.not_blank hcut
  let place := placeAfter (before' ++ gap')
  refine ⟨⟨gap', p.token.kind, p.token.text, place.line, place.column⟩, after', ?_,
    ⟨hgap', rfl, h.longest.of_next (head?_of_cutWords hafter), h.no_leading_zero⟩, rfl, hafter, ?_⟩
  · rw [Piece.chars, List.append_assoc]
  · intro hboth
    rw [htext] at hboth
    show gap' = [] ↔ p.gap = []
    rw [gap_eq_nil_iff hgap' hc (lexeme ++ after'), gap_eq_nil_iff h.blank hc (lexeme ++ after)]
    exact not_congr (by rw [← List.cons_append, ← List.cons_append, hboth])

/-- A text is read as another one with the same words. -/
theorem Reads.exists_readAlike {before cs rest : List Char} {pieces : List Piece}
    (h : Reads before cs pieces rest) (hrest : IsGap rest) {cs' : List Char}
    (hwords : wordsOf cs = wordsOf cs') (before' : List Char) :
    ∃ pieces' rest', Reads before' cs' pieces' rest' ∧ IsGap rest' ∧
      ReadAlike (pieces.map Piece.token) (pieces'.map Piece.token) ∧
      (cutWords cs = cutWords cs' →
        ∀ p ∈ pieces.head?, ∀ p' ∈ pieces'.head?, (p'.gap = [] ↔ p.gap = [])) := by
  induction pieces generalizing before cs before' cs' with
  | nil =>
    have hgap : IsGap cs' := by
      rw [h.eq_append] at hwords
      exact wordsOf_eq_nil_iff.mp (hwords.symm.trans (wordsOf_eq_nil_iff.mpr hrest))
    exact ⟨[], cs', .nil, hgap, .nil, by simp⟩
  | cons p pieces ih =>
    obtain ⟨after, rfl, hp, hpieces⟩ := reads_cons_iff.mp h
    obtain ⟨p', after', rfl, hp', hspelling, hafter, hgap⟩ := hp.exists_alike hwords before'
    obtain ⟨pieces', rest', hpieces', hrest', halike, htouch⟩ :=
      ih hpieces (wordsOf_eq_of_cutWords hafter) (before' ++ p'.chars)
    have h' : Reads before' (p'.chars ++ after') (p' :: pieces') rest' :=
      reads_cons_iff.mpr ⟨after', rfl, hp', hpieces'⟩
    refine ⟨p' :: pieces', rest', h', hrest', ?_, by simpa using hgap⟩
    cases pieces with
    | nil =>
      cases pieces' with
      | nil => exact .single hspelling
      | cons q' pieces' => cases halike.map_spelling
    | cons q pieces =>
      cases pieces' with
      | nil => cases halike.map_spelling
      | cons q' pieces' =>
        -- two tokens touch if there is no gap between them, and the texts have gaps alike
        have hiff : p.token.isAdjacentTo q.token = true ↔ q.gap = [] :=
          @Reads.isAdjacentTo_iff _ _ _ [] _ _ _ h
        have hiff' : p'.token.isAdjacentTo q'.token = true ↔ q'.gap = [] :=
          @Reads.isAdjacentTo_iff _ _ _ [] _ _ _ h'
        refine .cons hspelling (Bool.eq_iff_iff.mpr ?_) halike
        rw [hiff, hiff']
        exact htouch hafter q rfl q' rfl

/-- Texts with the same words have tokens that differ in their places only. -/
theorem exists_readAlike {text text' : String} (hwords : wordsOf text.toList = wordsOf text'.toList)
    {ts : List Token} (h : tokenize text = .ok ts) :
    ∃ ts', tokenize text' = .ok ts' ∧ ReadAlike ts ts' := by
  obtain ⟨pieces, gap, hreads, rfl⟩ := tokenize_eq_ok_iff.mp h
  obtain ⟨pieces', gap', hreads', hgap', halike, -⟩ :=
    hreads.reads.exists_readAlike (by rw [List.append_nil]; exact hreads.blank) hwords []
  have hupTo : ReadsUpTo text' pieces' gap' [] := ⟨by rwa [List.append_nil], hgap'⟩
  exact ⟨_, hupTo.tokenize_eq_ok, halike⟩

end ProgramQuery
