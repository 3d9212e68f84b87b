import ProgramQuery.Proofs.LongestLexemes

/-!
# A text is its tokens and the blanks between them

A text is a sequence of pieces, each a token with the blanks before it, up to a rest at which the
text ends or no token starts. The line and the column of a token are counted from the characters
before it, and two tokens touch exactly if no character stands between them.

## Main definitions

- `placeAfter`: the line and the column after some characters.
- `Piece`, `Reads`, `ReadsUpTo`: a text as tokens and the blanks before them.

## Main statements

- `exists_piece`, `exists_reads`: a text has one more piece or no token starts, and so it is read up
  to a place where none does.
- `Reads.scan_eq`: the walk through a text finds the tokens of its pieces.
- `isLexical_of_tokenize`: all tokens of a text are lexical.
- `length_le_of_tokenize`: a text has no more tokens than characters.
- `Reads.isAdjacentTo_iff`: tokens touch if nothing stands between them.
- `tokenize_lossless`: what `tokenize` returns, and for which texts.
-/

namespace ProgramQuery

/-! ## Places -/

/-- The place after some characters of a text: its line is one more than the number of line feeds
among them, and its column one more than the number of characters after the last of these. -/
def placeAfter (cs : List Char) : Position :=
  ⟨cs.count '\n' + 1, (cs.reverse.takeWhile (· ≠ '\n')).length + 1⟩

theorem placeAfter_concat (cs : List Char) (c : Char) :
    placeAfter (cs ++ [c]) = (placeAfter cs).after c := by
  by_cases hc : c = '\n'
  · simp [placeAfter, Position.after, hc]
  · simp [placeAfter, Position.after, hc]

theorem foldl_after_placeAfter (before cs : List Char) :
    cs.foldl Position.after (placeAfter before) = placeAfter (before ++ cs) := by
  induction cs generalizing before with
  | nil => simp
  | cons c cs ih => rw [List.foldl_cons, ← placeAfter_concat, ih, List.append_assoc]; rfl

/-- On one line only the column moves. -/
theorem Position.foldl_after {cs : List Char} (h : '\n' ∉ cs) (place : Position) :
    cs.foldl after place = ⟨place.line, place.column + cs.length⟩ := by
  induction cs generalizing place with
  | nil => rfl
  | cons c cs ih =>
    obtain ⟨hc, hcs⟩ := not_or.mp (mt List.mem_cons.mpr h)
    rw [List.foldl_cons, ih hcs, after, if_neg (Ne.symm hc), List.length_cons, Nat.add_assoc,
      Nat.add_comm 1]

theorem placeAfter_append {before cs : List Char} (h : '\n' ∉ cs) : placeAfter (before ++ cs) =
    ⟨(placeAfter before).line, (placeAfter before).column + cs.length⟩ := by
  rw [← foldl_after_placeAfter, Position.foldl_after h]

/-- Every character moves the place. -/
theorem placeAfter_append_eq_iff {before cs : List Char} :
    placeAfter (before ++ cs) = placeAfter before ↔ cs = [] := by
  constructor
  · intro h
    have hline := congrArg Position.line h
    have hfeed : '\n' ∉ cs := by
      simpa [placeAfter, List.count_eq_zero] using hline
    rw [placeAfter_append hfeed] at h
    have hcolumn := congrArg Position.column h
    simpa using hcolumn
  · rintro rfl
    rw [List.append_nil]

/-! ## Texts as pieces -/

/-- Where the token starts. -/
def Token.place (t : Token) : Position :=
  ⟨t.line, t.column⟩

/-- A token, and the characters between it and the token before. -/
structure Piece where
  /-- The characters before the token. -/
  gap : List Char
  /-- The token itself. -/
  token : Token

namespace Piece

/-- The characters of a piece. -/
def chars (p : Piece) : List Char :=
  p.gap ++ p.token.text.toList

/-- The characters of some pieces. -/
def text (pieces : List Piece) : List Char :=
  pieces.flatMap chars

/-- The piece stands after the characters `before`, and `after` follows: its gap is blank, and its
token is the longest lexeme after the gap and knows its place. -/
structure StandsBetween (before : List Char) (p : Piece) (after : List Char) : Prop where
  blank : ∀ c ∈ p.gap, isBlank c = true
  place : p.token.place = placeAfter (before ++ p.gap)
  longest : IsLongestLexeme p.token.kind p.token.text.toList (p.token.text.toList ++ after)
  no_leading_zero : p.token.kind = .integer → hasLeadingZero p.token.text.toList = false

end Piece

/-- The text `cs`, which stands after `before`, is some pieces and a rest. -/
structure Reads (before cs : List Char) (pieces : List Piece) (rest : List Char) : Prop where
  eq_append : cs = Piece.text pieces ++ rest
  standsBetween : ∀ earlier p later, pieces = earlier ++ p :: later →
    p.StandsBetween (before ++ Piece.text earlier) (Piece.text later ++ rest)

section Reads

variable {before cs rest : List Char} {p : Piece} {pieces : List Piece}

theorem Reads.nil : Reads before rest [] rest := by
  refine ⟨rfl, fun earlier p later h => ?_⟩
  exact absurd h.symm (by simp)

theorem reads_cons_iff : Reads before cs (p :: pieces) rest ↔ ∃ after, cs = p.chars ++ after ∧
    p.StandsBetween before after ∧ Reads (before ++ p.chars) after pieces rest := by
  constructor
  · intro h
    refine ⟨Piece.text pieces ++ rest, ?_, ?_, rfl, ?_⟩
    · rw [h.eq_append, Piece.text, List.flatMap_cons, List.append_assoc, Piece.text]
    · simpa [Piece.text] using h.standsBetween [] p pieces rfl
    · intro earlier q later hsplit
      have hq := h.standsBetween (p :: earlier) q later (by rw [hsplit]; rfl)
      simpa [Piece.text] using hq
  · rintro ⟨after, rfl, hp, rfl, hpieces⟩
    refine ⟨by simp [Piece.text], fun earlier q later hsplit => ?_⟩
    cases earlier with
    | nil =>
      obtain ⟨rfl, rfl⟩ := List.cons.inj hsplit
      simpa [Piece.text] using hp
    | cons p' earlier =>
      obtain ⟨rfl, hmore⟩ := List.cons.inj hsplit
      simpa [Piece.text] using hpieces earlier q later hmore

theorem Reads.standsBetween_of_mem (h : Reads before cs pieces rest) (hp : p ∈ pieces) :
    ∃ before' after', p.StandsBetween before' after' := by
  obtain ⟨earlier, later, rfl⟩ := List.append_of_mem hp
  exact ⟨_, _, h.standsBetween earlier p later rfl⟩

/-- Every piece takes up a character. -/
theorem Reads.length_le (h : Reads before cs pieces rest) : pieces.length ≤ cs.length := by
  induction pieces generalizing before cs with
  | nil => exact Nat.zero_le _
  | cons p pieces ih =>
    obtain ⟨after, rfl, hp, hpieces⟩ := reads_cons_iff.mp h
    have hle := ih hpieces
    have hpos := List.length_pos_iff.mpr hp.longest.isLexeme.ne_nil
    simp only [Piece.chars, List.length_append, List.length_cons]
    omega

end Reads

/-- The text of a token that is read fits its kind. -/
theorem Piece.StandsBetween.isLexical {before after : List Char} {p : Piece}
    (h : p.StandsBetween before after) : p.token.IsLexical where
  isName hkind := (hkind ▸ h.longest.isLexeme).isName
  isNumber hkind := ⟨h.longest.isLexeme.ne_nil, (hkind ▸ h.longest.isLexeme).all_isDigit,
    h.no_leading_zero hkind⟩
  not_blank := by
    obtain ⟨c, hc⟩ := List.exists_mem_of_ne_nil _ h.longest.isLexeme.ne_nil
    exact ⟨c, hc, h.longest.isLexeme.not_blank c hc⟩

/-! ## The walk through a text -/

/-- No line ends inside a lexeme, so after it the column is larger by the number of its
characters. -/
theorem IsLexeme.foldl_after {kind : TokenKind} {lexeme : List Char} (h : IsLexeme kind lexeme)
    (place : Position) :
    lexeme.foldl Position.after place = ⟨place.line, place.column + lexeme.length⟩ := by
  refine Position.foldl_after (fun hmem => ?_) place
  exact absurd (h.not_blank _ hmem) (by decide)

/-- The place after a piece is where its token ends. -/
theorem Piece.StandsBetween.placeAfter_chars {before after : List Char} {p : Piece}
    (h : p.StandsBetween before after) : placeAfter (before ++ p.chars) =
      ⟨p.token.line, p.token.column + p.token.text.toList.length⟩ := by
  rw [Piece.chars, ← List.append_assoc, ← foldl_after_placeAfter, h.longest.isLexeme.foldl_after,
    ← h.place, Token.place]

theorem scan_skip (place : Position) (lexeme cs : List Char) :
    scan lexeme.length place (lexeme ++ cs) = scan 0 (lexeme.foldl Position.after place) cs := by
  induction lexeme generalizing place with
  | nil => rfl
  | cons c lexeme ih => rw [List.length_cons, List.cons_append, scan, ih, List.foldl_cons]

theorem scan_gap (place : Position) {gap : List Char} (h : ∀ c ∈ gap, isBlank c = true)
    (cs : List Char) : scan 0 place (gap ++ cs) = scan 0 (gap.foldl Position.after place) cs := by
  induction gap generalizing place with
  | nil => rfl
  | cons c gap ih =>
    obtain ⟨hc, hgap⟩ := List.forall_mem_cons.mp h
    rw [List.cons_append, scan, if_pos hc, ih _ hgap, List.foldl_cons]

/-- A text of blanks has no tokens. -/
theorem scan_of_blank (place : Position) {cs : List Char} (h : ∀ c ∈ cs, isBlank c = true) :
    scan 0 place cs = .ok [] := by
  have hscan := scan_gap place h []
  rwa [List.append_nil, scan] at hscan

theorem scan_lexeme (place : Position) {kind : TokenKind} {lexeme cs : List Char}
    (h : IsLongestLexeme kind lexeme (lexeme ++ cs))
    (hzero : kind = .integer → hasLeadingZero lexeme = false) :
    scan 0 place (lexeme ++ cs) = (scan 0 ⟨place.line, place.column + lexeme.length⟩ cs).map
      (⟨kind, String.ofList lexeme, place.line, place.column⟩ :: ·) := by
  rw [← h.isLexeme.foldl_after place]
  obtain ⟨c, rest, rfl⟩ := List.exists_cons_of_ne_nil h.isLexeme.ne_nil
  have hlexeme := lexeme?_eq_some_iff.mpr h
  have hblank : ¬isBlank c = true := by simp [h.isLexeme.not_blank c List.mem_cons_self]
  have hzero : ¬(kind = .integer ∧ hasLeadingZero (c :: rest) = true) := by
    rintro ⟨hkind, htrue⟩
    rw [hzero hkind] at htrue
    cases htrue
  rw [List.cons_append] at hlexeme ⊢
  rw [scan, if_neg hblank, hlexeme]
  dsimp only
  rw [if_neg hzero, List.length_cons, Nat.add_sub_cancel, scan_skip, List.foldl_cons]
  cases scan 0 (rest.foldl Position.after (place.after c)) cs <;> rfl

/-- The tokens of the pieces are found one after another. -/
theorem Reads.scan_eq {before cs rest : List Char} {pieces : List Piece}
    (h : Reads before cs pieces rest) : scan 0 (placeAfter before) cs =
      (scan 0 (placeAfter (before ++ Piece.text pieces)) rest).map
        (pieces.map Piece.token ++ ·) := by
  induction pieces generalizing before cs with
  | nil =>
    rw [h.eq_append]
    simp only [Piece.text, List.flatMap_nil, List.nil_append, List.append_nil, List.map_nil]
    generalize scan 0 (placeAfter before) rest = outcome
    cases outcome <;> rfl
  | cons p pieces ih =>
    obtain ⟨after, rfl, hp, hpieces⟩ := reads_cons_iff.mp h
    rw [Piece.chars, List.append_assoc, scan_gap _ hp.blank, foldl_after_placeAfter, ← hp.place,
      scan_lexeme _ hp.longest hp.no_leading_zero, String.ofList_toList, Token.place,
      ← hp.placeAfter_chars, ih hpieces, List.append_assoc]
    simp only [Piece.text, List.flatMap_cons]
    cases scan 0 (placeAfter (before ++ (p.chars ++ pieces.flatMap Piece.chars))) rest <;> rfl

/-- At `cs` the walk finds no further token: the text ends, no rule matches or the digits of an
integer are too long. -/
inductive NoToken : List Char → Prop
  | atEnd : NoToken []
  | unmatched {c : Char} {cs : List Char} :
      isBlank c = false → HasNoLexeme (c :: cs) → NoToken (c :: cs)
  | leadingZero {digits cs : List Char} : IsLongestLexeme .integer digits (digits ++ cs) →
      hasLeadingZero digits = true → NoToken (digits ++ cs)

theorem exists_gap (cs : List Char) : ∃ gap rest, cs = gap ++ rest ∧
    (∀ c ∈ gap, isBlank c = true) ∧ ∀ c ∈ rest.head?, isBlank c = false := by
  refine ⟨cs.takeWhile isBlank, cs.dropWhile isBlank, List.takeWhile_append_dropWhile.symm,
    fun c hc => List.all_eq_true.mp List.all_takeWhile c hc, fun c hc => ?_⟩
  have hhead := List.head?_dropWhile_not isBlank cs
  rw [Option.mem_def.mp hc] at hhead
  exact hhead

/-- After a gap either no token starts or there is one more piece. -/
theorem exists_piece (before cs : List Char) :
    (∃ gap rest, cs = gap ++ rest ∧ (∀ c ∈ gap, isBlank c = true) ∧ NoToken rest) ∨
      ∃ (p : Piece) (after : List Char), cs = p.chars ++ after ∧ p.StandsBetween before after := by
  obtain ⟨gap, rest, rfl, hgap, hstop⟩ := exists_gap cs
  cases rest with
  | nil => exact .inl ⟨gap, [], rfl, hgap, .atEnd⟩
  | cons c rest =>
    rcases lexeme?_cases (c :: rest) with ⟨kind, lexeme, -, hlongest⟩ | ⟨-, hnone⟩
    · obtain ⟨after, hafter⟩ := hlongest.starts
      rw [← hafter] at hlongest ⊢
      by_cases hzero : kind = .integer ∧ hasLeadingZero lexeme = true
      · obtain ⟨rfl, hzero⟩ := hzero
        exact .inl ⟨gap, lexeme ++ after, rfl, hgap, .leadingZero hlongest hzero⟩
      · let place := placeAfter (before ++ gap)
        refine .inr ⟨⟨gap, kind, String.ofList lexeme, place.line, place.column⟩, after, ?_, hgap,
          rfl, ?_, fun hkind => ?_⟩
        · rw [Piece.chars, String.toList_ofList, List.append_assoc]
        · rwa [String.toList_ofList]
        · rw [String.toList_ofList]
          exact Bool.eq_false_iff.mpr fun htrue => hzero ⟨hkind, htrue⟩
    · exact .inl ⟨gap, c :: rest, rfl, hgap, .unmatched (hstop c rfl) hnone⟩

/-- Every text is read up to a place where no token starts. -/
theorem exists_reads (before cs : List Char) : ∃ pieces gap rest,
    Reads before cs pieces (gap ++ rest) ∧ (∀ c ∈ gap, isBlank c = true) ∧ NoToken rest := by
  induction hlength : cs.length using Nat.strongRecOn generalizing before cs with
  | ind n ih =>
    rcases exists_piece before cs with ⟨gap, rest, rfl, hgap, hrest⟩ | ⟨p, after, rfl, hp⟩
    · exact ⟨[], gap, rest, .nil, hgap, hrest⟩
    · -- a piece is not empty, so what comes after it is shorter
      have hlt : after.length < n := by
        have hpos := List.length_pos_iff.mpr hp.longest.isLexeme.ne_nil
        simp only [Piece.chars, List.length_append] at hlength
        omega
      obtain ⟨pieces, gap, rest, hreads, hgap, hrest⟩ :=
        ih after.length hlt (before ++ p.chars) after rfl
      exact ⟨p :: pieces, gap, rest, reads_cons_iff.mpr ⟨after, rfl, hp, hreads⟩, hgap, hrest⟩

theorem scan_unmatched (place : Position) {c : Char} {cs : List Char} (hc : isBlank c = false)
    (h : HasNoLexeme (c :: cs)) : scan 0 place (c :: cs) = .error (.unmatched place) := by
  rw [scan, if_neg (by simp [hc]), lexeme?_eq_none_iff.mpr h]

theorem scan_leadingZero (place : Position) {digits cs : List Char}
    (h : IsLongestLexeme .integer digits (digits ++ cs)) (hzero : hasLeadingZero digits = true) :
    scan 0 place (digits ++ cs) = .error (.leadingZero (String.ofList digits) place.line) := by
  have hlexeme := lexeme?_eq_some_iff.mpr h
  obtain ⟨c, rest, rfl⟩ := List.exists_cons_of_ne_nil h.isLexeme.ne_nil
  rw [List.cons_append] at hlexeme ⊢
  rw [scan, if_neg (by simp [h.isLexeme.not_blank c List.mem_cons_self]), hlexeme]
  dsimp only
  rw [if_pos ⟨rfl, hzero⟩]

/-! ## What becomes of a text -/

/-- The text is some pieces, a blank gap and a rest. -/
structure ReadsUpTo (text : String) (pieces : List Piece) (gap rest : List Char) : Prop where
  reads : Reads [] text.toList pieces (gap ++ rest)
  blank : ∀ c ∈ gap, isBlank c = true

namespace ReadsUpTo

variable {text : String} {pieces : List Piece} {gap rest : List Char}

theorem tokenize_eq (h : ReadsUpTo text pieces gap rest) : tokenize text =
    (scan 0 (placeAfter (Piece.text pieces ++ gap)) rest).map (pieces.map Piece.token ++ ·) := by
  have hstart : Position.start = placeAfter [] := rfl
  rw [tokenize, hstart, h.reads.scan_eq, scan_gap _ h.blank, foldl_after_placeAfter,
    List.nil_append]

theorem tokenize_eq_ok (h : ReadsUpTo text pieces gap []) :
    tokenize text = .ok (pieces.map Piece.token) := by
  rw [h.tokenize_eq, scan, Except.map, List.append_nil]

theorem tokenize_eq_unmatched {c : Char} (h : ReadsUpTo text pieces gap (c :: rest))
    (hc : isBlank c = false) (hnone : HasNoLexeme (c :: rest)) :
    tokenize text = .error (.unmatched (placeAfter (Piece.text pieces ++ gap))) := by
  rw [h.tokenize_eq, scan_unmatched _ hc hnone, Except.map]

theorem tokenize_eq_leadingZero {digits : List Char}
    (h : ReadsUpTo text pieces gap (digits ++ rest))
    (hlongest : IsLongestLexeme .integer digits (digits ++ rest))
    (hzero : hasLeadingZero digits = true) :
    tokenize text = .error (.leadingZero (String.ofList digits)
      (placeAfter (Piece.text pieces ++ gap)).line) := by
  rw [h.tokenize_eq, scan_leadingZero _ hlongest hzero, Except.map]

end ReadsUpTo

theorem exists_readsUpTo (text : String) :
    ∃ pieces gap rest, ReadsUpTo text pieces gap rest ∧ NoToken rest := by
  obtain ⟨pieces, gap, rest, hreads, hgap, hrest⟩ := exists_reads [] text.toList
  exact ⟨pieces, gap, rest, ⟨hreads, hgap⟩, hrest⟩

/-- The tokens of a text are those of its pieces, if only blanks follow these. -/
theorem tokenize_eq_ok_iff {text : String} {ts : List Token} : tokenize text = .ok ts ↔
    ∃ pieces gap, ReadsUpTo text pieces gap [] ∧ pieces.map Piece.token = ts := by
  constructor
  · intro h
    obtain ⟨pieces, gap, rest, hreads, hrest⟩ := exists_readsUpTo text
    cases hrest with
    | atEnd => exact ⟨pieces, gap, hreads, Except.ok.inj (hreads.tokenize_eq_ok.symm.trans h)⟩
    | unmatched hc hnone => cases (hreads.tokenize_eq_unmatched hc hnone).symm.trans h
    | leadingZero hlongest hzero =>
      cases (hreads.tokenize_eq_leadingZero hlongest hzero).symm.trans h
  · rintro ⟨pieces, gap, hreads, rfl⟩
    exact hreads.tokenize_eq_ok

theorem isLexical_of_tokenize {text : String} {ts : List Token} (h : tokenize text = .ok ts) :
    ∀ t ∈ ts, t.IsLexical := by
  obtain ⟨pieces, gap, hreads, rfl⟩ := tokenize_eq_ok_iff.mp h
  intro t ht
  obtain ⟨p, hp, rfl⟩ := List.mem_map.mp ht
  obtain ⟨before, after, hbetween⟩ := hreads.reads.standsBetween_of_mem hp
  exact hbetween.isLexical

theorem length_le_of_tokenize {text : String} {ts : List Token} (h : tokenize text = .ok ts) :
    ts.length ≤ text.length := by
  obtain ⟨pieces, gap, hreads, rfl⟩ := tokenize_eq_ok_iff.mp h
  rw [List.length_map, ← String.length_toList]
  exact hreads.reads.length_le

/-- The place of an error is where no rule matches. -/
theorem tokenize_eq_unmatched_iff {text : String} {place : Position} :
    tokenize text = .error (.unmatched place) ↔
      ∃ pieces gap c rest, ReadsUpTo text pieces gap (c :: rest) ∧ isBlank c = false ∧
        HasNoLexeme (c :: rest) ∧ place = placeAfter (Piece.text pieces ++ gap) := by
  constructor
  · intro h
    obtain ⟨pieces, gap, rest, hreads, hrest⟩ := exists_readsUpTo text
    cases hrest with
    | atEnd => cases hreads.tokenize_eq_ok.symm.trans h
    | unmatched hc hnone =>
      cases (hreads.tokenize_eq_unmatched hc hnone).symm.trans h
      exact ⟨pieces, gap, _, _, hreads, hc, hnone, rfl⟩
    | leadingZero hlongest hzero =>
      cases (hreads.tokenize_eq_leadingZero hlongest hzero).symm.trans h
  · rintro ⟨pieces, gap, c, rest, hreads, hc, hnone, rfl⟩
    exact hreads.tokenize_eq_unmatched hc hnone

theorem tokenize_eq_leadingZero_iff {text digits : String} {line : Nat} :
    tokenize text = .error (.leadingZero digits line) ↔
      ∃ pieces gap rest, ReadsUpTo text pieces gap (digits.toList ++ rest) ∧
        IsLongestLexeme .integer digits.toList (digits.toList ++ rest) ∧
        hasLeadingZero digits.toList = true ∧
        line = (placeAfter (Piece.text pieces ++ gap)).line := by
  constructor
  · intro h
    obtain ⟨pieces, gap, rest, hreads, hrest⟩ := exists_readsUpTo text
    cases hrest with
    | atEnd => cases hreads.tokenize_eq_ok.symm.trans h
    | unmatched hc hnone => cases (hreads.tokenize_eq_unmatched hc hnone).symm.trans h
    | leadingZero hlongest hzero =>
      cases (hreads.tokenize_eq_leadingZero hlongest hzero).symm.trans h
      rw [String.toList_ofList]
      exact ⟨pieces, gap, _, hreads, hlongest, hzero, rfl⟩
  · rintro ⟨pieces, gap, rest, hreads, hlongest, hzero, rfl⟩
    rw [hreads.tokenize_eq_leadingZero hlongest hzero, String.ofList_toList]

/-! ## Tokens that touch -/

theorem Token.isAdjacentTo_iff {t next : Token} :
    t.isAdjacentTo next = true ↔ ⟨t.line, t.column + t.text.toList.length⟩ = next.place := by
  rw [isAdjacentTo, Bool.and_eq_true, decide_eq_true_iff, decide_eq_true_iff, place,
    Position.mk.injEq, String.length_toList]

/-- Two tokens touch exactly if nothing stands between them. -/
theorem Reads.isAdjacentTo_iff {before cs rest : List Char} {earlier later : List Piece}
    {p q : Piece} (h : Reads before cs (earlier ++ p :: q :: later) rest) :
    p.token.isAdjacentTo q.token = true ↔ q.gap = [] := by
  have hp := h.standsBetween earlier p (q :: later) rfl
  have hq := h.standsBetween (earlier ++ [p]) q later (by simp)
  have htext : before ++ Piece.text (earlier ++ [p]) = before ++ Piece.text earlier ++ p.chars := by
    simp [Piece.text]
  -- the first token ends where the characters before the gap of the second end
  rw [Token.isAdjacentTo_iff, ← hp.placeAfter_chars, ← htext, hq.place, eq_comm,
    placeAfter_append_eq_iff]

/-- Reading a text loses nothing but blanks. The tokens of a text are its longest lexemes, one
after another and each at its place, with blanks between them; they touch if there are none. A text
has no tokens if this comes to a character at which no rule matches, whose place is then reported,
or to digits that are longer than their number. -/
theorem tokenize_lossless (text : String) :
    (∀ ts, tokenize text = .ok ts ↔
      ∃ pieces gap, ReadsUpTo text pieces gap [] ∧ pieces.map Piece.token = ts) ∧
    (∀ pieces gap rest, ReadsUpTo text pieces gap rest → ∀ earlier p q later,
      pieces = earlier ++ p :: q :: later → (p.token.isAdjacentTo q.token = true ↔ q.gap = [])) ∧
    (∀ place, tokenize text = .error (.unmatched place) ↔
      ∃ pieces gap c rest, ReadsUpTo text pieces gap (c :: rest) ∧ isBlank c = false ∧
        HasNoLexeme (c :: rest) ∧ place = placeAfter (Piece.text pieces ++ gap)) ∧
    ∀ digits line, tokenize text = .error (.leadingZero digits line) ↔
      ∃ pieces gap rest, ReadsUpTo text pieces gap (digits.toList ++ rest) ∧
        IsLongestLexeme .integer digits.toList (digits.toList ++ rest) ∧
        hasLeadingZero digits.toList = true ∧
        line = (placeAfter (Piece.text pieces ++ gap)).line := by
  refine ⟨fun ts => tokenize_eq_ok_iff, fun pieces gap rest h earlier p q later hpieces => ?_,
    fun place => tokenize_eq_unmatched_iff, fun digits line => tokenize_eq_leadingZero_iff⟩
  have hreads := h.reads
  rw [hpieces] at hreads
  exact hreads.isAdjacentTo_iff

/-- Tokens on two lines, of which some touch, and a lone sign that no rule matches. -/
theorem tokenize_lossless_twoLines :
    (∃ a b c d gap, ReadsUpTo "if\n (a1>= " [a, b, c, d] gap [] ∧
      a.token = ⟨.name, "if", 1, 1⟩ ∧ b.token = ⟨.lParen, "(", 2, 2⟩ ∧ b.gap ≠ [] ∧
      c.token = ⟨.name, "a1", 2, 3⟩ ∧ c.gap = [] ∧ d.token = ⟨.gtEq, ">=", 2, 5⟩ ∧ d.gap = []) ∧
    ∃ pieces gap c rest, ReadsUpTo "a\n b & &" pieces gap (c :: rest) ∧ isBlank c = false ∧
      HasNoLexeme (c :: rest) ∧ ⟨2, 4⟩ = placeAfter (Piece.text pieces ++ gap) := by
  have htext : tokenize "if\n (a1>= " = .ok [⟨.name, "if", 1, 1⟩, ⟨.lParen, "(", 2, 2⟩,
      ⟨.name, "a1", 2, 3⟩, ⟨.gtEq, ">=", 2, 5⟩] := rfl
  have herror : tokenize "a\n b & &" = .error (.unmatched ⟨2, 4⟩) := rfl
  obtain ⟨pieces, gap, hreads, htokens⟩ := ((tokenize_lossless "if\n (a1>= ").1 _).mp htext
  obtain ⟨a, _, rfl, ha, htokens⟩ := List.map_eq_cons_iff.mp htokens
  obtain ⟨b, _, rfl, hb, htokens⟩ := List.map_eq_cons_iff.mp htokens
  obtain ⟨c, _, rfl, hc, htokens⟩ := List.map_eq_cons_iff.mp htokens
  obtain ⟨d, rfl, hd⟩ := List.map_eq_singleton_iff.mp htokens
  have htouch := (tokenize_lossless "if\n (a1>= ").2.1 _ gap [] hreads
  have hab := htouch [] a b [c, d] rfl
  have hbc := htouch [a] b c [d] rfl
  have hcd := htouch [a, b] c d [] rfl
  rw [ha, hb] at hab
  rw [hb, hc] at hbc
  rw [hc, hd] at hcd
  refine ⟨⟨a, b, c, d, gap, hreads, ha, hb, mt hab.mpr (by decide), hc, hbc.mp (by decide), hd,
    hcd.mp (by decide)⟩, ?_⟩
  exact ((tokenize_lossless "a\n b & &").2.2.1 ⟨2, 4⟩).mp herror

end ProgramQuery
