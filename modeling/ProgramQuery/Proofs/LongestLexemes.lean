import ProgramQuery.Proofs.Lexemes

/-!
# The longest lexeme at the start of a text

The rules say which texts are lexemes. They are tried in turn, and the first that matches gives the
longest lexeme with which the text starts: a fixed lexeme stands before its own beginnings, and
words share no character with signs. Since lexemes grow one character at a time, whether a lexeme
is the longest depends on the next character only.

## Main definitions

- `IsLexeme`: the rules.
- `IsLongestLexeme`: the lexeme that they give at the start of a text.
- `HasNoLexeme`: no rule matches there.

## Main statements

- `isLongestLexeme_append_iff`: a lexeme is the longest if the next character does not continue it.
- `lexeme?_eq_some_iff`, `lexeme?_eq_none_iff`: what `lexeme?` finds.
-/

namespace ProgramQuery

/-! ## The rules -/

/-- The rules: which texts are lexemes of a kind. -/
inductive IsLexeme : TokenKind → List Char → Prop
  | fixed {text : String} {kind : TokenKind} :
      (text, kind) ∈ fixedLexemes → IsLexeme kind text.toList
  | name {c : Char} {cs : List Char} :
      c.isAlpha = true → (∀ d ∈ cs, d.isAlphanum = true) → IsLexeme .name (c :: cs)
  | integer {cs : List Char} : cs ≠ [] → (∀ d ∈ cs, d.isDigit = true) → IsLexeme .integer cs

/-- No other lexeme that starts the text is longer. -/
structure IsLongestLexeme (kind : TokenKind) (lexeme cs : List Char) : Prop where
  isLexeme : IsLexeme kind lexeme
  starts : lexeme <+: cs
  length_le : ∀ kind' lexeme', IsLexeme kind' lexeme' → lexeme' <+: cs →
    lexeme'.length ≤ lexeme.length

theorem fixedLexemes_ne : ∀ entry ∈ fixedLexemes,
    entry.2 ≠ .name ∧ entry.2 ≠ .integer ∧ entry.1.toList ≠ [] := by
  decide

theorem fixedLexemes_signs : ∀ entry ∈ fixedLexemes, ∀ c ∈ entry.1.toList,
    c.isAlphanum = false ∧ isBlank c = false := by
  have hall : fixedLexemes.all (fun entry => entry.1.toList.all fun c =>
      !c.isAlphanum && !isBlank c) = true := by decide
  intro entry hentry c hc
  have hc := List.all_eq_true.mp (List.all_eq_true.mp hall entry hentry) c hc
  simpa using hc

theorem length_fixedLexemes_le : ∀ entry ∈ fixedLexemes, entry.1.toList.length ≤ 2 := by
  decide

/-- No fixed lexeme hides a later one. -/
theorem pairwise_fixedLexemes :
    fixedLexemes.Pairwise fun entry later => ¬entry.1.toList <+: later.1.toList := by
  decide

theorem isAlphanum_eq_false_of_isBlank {c : Char} (h : isBlank c = true) :
    c.isAlphanum = false := by
  have hout : c.toNat ≤ 32 ∨ 133 ≤ c.toNat := by
    obtain ⟨range, hrange, hc⟩ := List.any_eq_true.mp h
    have hranges : ∀ range ∈ blankRanges, range.2 ≤ 32 ∨ 133 ≤ range.1 := by decide
    have := hranges range hrange
    simp only [Bool.and_eq_true, decide_eq_true_eq] at hc
    omega
  refine Bool.eq_false_iff.mpr fun halphanum => ?_
  have hin : 48 ≤ c.toNat ∧ c.toNat ≤ 122 := by
    rcases Bool.or_eq_true_iff.mp halphanum with hletter | hdigit
    · rcases Bool.or_eq_true_iff.mp hletter with hupper | hlower
      · have hge : 65 ≤ c.toNat := (of_decide_eq_true hupper).1
        have hle : c.toNat ≤ 90 := (of_decide_eq_true hupper).2
        omega
      · have hge : 97 ≤ c.toNat := of_decide_eq_true (Bool.and_eq_true_iff.mp hlower).1
        have hle : c.toNat ≤ 122 := of_decide_eq_true (Bool.and_eq_true_iff.mp hlower).2
        omega
    · have hge : 48 ≤ c.toNat := of_decide_eq_true (Bool.and_eq_true_iff.mp hdigit).1
      have hle : c.toNat ≤ 57 := of_decide_eq_true (Bool.and_eq_true_iff.mp hdigit).2
      omega
  omega

namespace IsLexeme

variable {kind kind' : TokenKind} {cs lexeme : List Char}

/-- A lexeme is made of signs or of letters and digits. -/
theorem fixed_or_word (h : IsLexeme kind lexeme) :
    (∃ text, (text, kind) ∈ fixedLexemes ∧ lexeme = text.toList) ∨
      ∀ c ∈ lexeme, c.isAlphanum = true := by
  cases h with
  | fixed hfixed => exact .inl ⟨_, hfixed, rfl⟩
  | name hc hcs => exact .inr (List.forall_mem_cons.mpr ⟨by simp [Char.isAlphanum, hc], hcs⟩)
  | integer _ hcs => exact .inr fun c hc => by simp [Char.isAlphanum, hcs c hc]

theorem ne_nil (h : IsLexeme kind lexeme) : lexeme ≠ [] := by
  cases h with
  | fixed hfixed => exact (fixedLexemes_ne _ hfixed).2.2
  | name => exact List.cons_ne_nil _ _
  | integer hne => exact hne

theorem not_blank (h : IsLexeme kind lexeme) : ∀ c ∈ lexeme, isBlank c = false := by
  intro c hc
  rcases h.fixed_or_word with ⟨text, hfixed, rfl⟩ | hword
  · exact (fixedLexemes_signs _ hfixed c hc).2
  · refine Bool.eq_false_iff.mpr fun hblank => ?_
    have halphanum := hword c hc
    rw [isAlphanum_eq_false_of_isBlank hblank] at halphanum
    cases halphanum

theorem fixed_of_sign {c : Char} (h : IsLexeme kind (c :: cs)) (hc : c.isAlphanum = false) :
    ∃ text, (text, kind) ∈ fixedLexemes ∧ c :: cs = text.toList := by
  refine h.fixed_or_word.resolve_right fun hword => ?_
  rw [hword c List.mem_cons_self] at hc
  cases hc

/-- A letter starts a name, and a digit an integer. -/
theorem kind_eq_of_isAlphanum {c : Char} (h : IsLexeme kind (c :: cs))
    (hc : c.isAlphanum = true) : kind = if c.isAlpha then .name else .integer := by
  generalize hlexeme : c :: cs = lexeme at h
  cases h with
  | fixed hfixed =>
    rw [(fixedLexemes_signs _ hfixed c (by rw [← hlexeme]; exact List.mem_cons_self)).1] at hc
    cases hc
  | name hd =>
    obtain ⟨rfl, -⟩ := List.cons.inj hlexeme
    rw [if_pos hd]
  | integer _ hdigits =>
    have hdigit := hdigits c (hlexeme ▸ List.mem_cons_self)
    refine (if_neg fun halpha => ?_).symm
    rw [isDigit_eq_false_of_isAlpha halpha] at hdigit
    cases hdigit

theorem isName {text : String} (h : IsLexeme .name text.toList) : IsName text := by
  generalize htext : text.toList = lexeme at h
  cases h with
  | fixed hfixed => exact absurd rfl (fixedLexemes_ne _ hfixed).1
  | name hc hcs => exact ⟨_, _, htext, hc, List.all_eq_true.mpr hcs⟩

theorem all_isDigit (h : IsLexeme .integer lexeme) : lexeme.all Char.isDigit = true := by
  cases h with
  | fixed hfixed => exact absurd rfl (fixedLexemes_ne _ hfixed).2.1
  | integer _ hdigits => exact List.all_eq_true.mpr hdigits

/-- A text is a lexeme of one kind only. -/
theorem kind_unique (h : IsLexeme kind lexeme) (h' : IsLexeme kind' lexeme) : kind = kind' := by
  have hunique : ∀ entry ∈ fixedLexemes, ∀ entry' ∈ fixedLexemes,
      entry.1.toList = entry'.1.toList → entry.2 = entry'.2 := by decide
  obtain ⟨c, cs, rfl⟩ := List.exists_cons_of_ne_nil h.ne_nil
  cases hc : c.isAlphanum with
  | true => rw [h.kind_eq_of_isAlphanum hc, h'.kind_eq_of_isAlphanum hc]
  | false =>
    obtain ⟨text, hfixed, htext⟩ := h.fixed_of_sign hc
    obtain ⟨text', hfixed', htext'⟩ := h'.fixed_of_sign hc
    exact hunique _ hfixed _ hfixed' (htext.symm.trans htext')

/-- A lexeme grows one character at a time: if it goes on after a nonempty part, then already the
next character makes a lexeme of that part. -/
theorem exists_concat {c : Char} (hne : lexeme ≠ []) (h : IsLexeme kind (lexeme ++ c :: cs)) :
    ∃ kind', IsLexeme kind' (lexeme ++ [c]) := by
  generalize hlong : lexeme ++ c :: cs = long at h
  obtain ⟨d, rest, rfl⟩ := List.exists_cons_of_ne_nil hne
  cases h with
  | @fixed text kind hfixed =>
    -- a fixed lexeme has at most two characters
    have hlength := length_fixedLexemes_le _ hfixed
    have hcs : cs = [] := by
      rw [← hlong] at hlength
      refine List.length_eq_zero_iff.mp ?_
      simp only [List.length_append, List.length_cons] at hlength
      omega
    rw [← hcs, hlong]
    exact ⟨kind, .fixed hfixed⟩
  | name hd hds =>
    obtain ⟨rfl, rfl⟩ := List.cons.inj hlong
    refine ⟨.name, .name hd fun e he => hds e ?_⟩
    simp only [List.append_eq, List.mem_append, List.mem_cons, List.not_mem_nil, or_false] at he ⊢
    exact he.imp_right .inl
  | integer _ hdigits =>
    subst hlong
    refine ⟨.integer, .integer (by simp) fun e he => hdigits e ?_⟩
    simp only [List.mem_append, List.mem_cons, List.not_mem_nil, or_false] at he ⊢
    exact he.imp_right .inl

end IsLexeme

/-! ## The longest lexeme -/

section Longest

variable {kind : TokenKind} {lexeme rest cs : List Char}

/-- Whether a lexeme is the longest depends on the next character only. -/
theorem isLongestLexeme_append_iff :
    IsLongestLexeme kind lexeme (lexeme ++ rest) ↔
      IsLexeme kind lexeme ∧ ∀ c ∈ rest.head?, ∀ kind', ¬IsLexeme kind' (lexeme ++ [c]) := by
  constructor
  · intro h
    refine ⟨h.isLexeme, fun c hc kind' hlonger => ?_⟩
    obtain ⟨tail, rfl⟩ := List.head?_eq_some_iff.mp hc
    have hle := h.length_le kind' _ hlonger ⟨tail, by simp⟩
    rw [List.length_append, List.length_singleton] at hle
    omega
  · rintro ⟨hlexeme, hnext⟩
    refine ⟨hlexeme, List.prefix_append _ _, fun kind' lexeme' h' hstarts => ?_⟩
    refine Nat.le_of_not_lt fun hlt => ?_
    -- a longer lexeme goes on with the next character
    obtain ⟨more, rfl⟩ := List.prefix_of_prefix_length_le (List.prefix_append lexeme rest) hstarts
      (Nat.le_of_lt hlt)
    cases more with
    | nil => simp at hlt
    | cons c more =>
      obtain ⟨tail, htail⟩ := (List.prefix_append_right_inj lexeme).mp hstarts
      obtain ⟨kind'', hconcat⟩ := h'.exists_concat hlexeme.ne_nil
      exact hnext c (by rw [← htail]; rfl) kind'' hconcat

/-- A longest lexeme stays the longest before the same character, a blank or the end. -/
theorem IsLongestLexeme.of_next {rest' : List Char}
    (h : IsLongestLexeme kind lexeme (lexeme ++ rest))
    (hnext : ∀ c ∈ rest'.head?, isBlank c = true ∨ c ∈ rest.head?) :
    IsLongestLexeme kind lexeme (lexeme ++ rest') := by
  obtain ⟨hlexeme, hlongest⟩ := isLongestLexeme_append_iff.mp h
  refine isLongestLexeme_append_iff.mpr ⟨hlexeme, fun c hc kind' hlonger => ?_⟩
  rcases hnext c hc with hblank | hc
  · rw [hlonger.not_blank c (List.mem_append_right _ List.mem_cons_self)] at hblank
    cases hblank
  · exact hlongest c hc kind' hlonger

theorem IsLongestLexeme.unique {kind' : TokenKind} {lexeme' : List Char}
    (h : IsLongestLexeme kind lexeme cs) (h' : IsLongestLexeme kind' lexeme' cs) :
    kind = kind' ∧ lexeme = lexeme' := by
  have hlength : lexeme.length = lexeme'.length :=
    Nat.le_antisymm (h'.length_le _ _ h.isLexeme h.starts) (h.length_le _ _ h'.isLexeme h'.starts)
  obtain rfl : lexeme = lexeme' :=
    (List.prefix_of_prefix_length_le h.starts h'.starts (Nat.le_of_eq hlength)).eq_of_length hlength
  exact ⟨h.isLexeme.kind_unique h'.isLexeme, rfl⟩

/-- What matches first among the fixed lexemes is the longest. -/
theorem isLongestLexeme_of_find? {text : String}
    (h : (fixedLexemes.find? fun entry => entry.1.toList.isPrefixOf cs) = some (text, kind)) :
    IsLongestLexeme kind text.toList cs := by
  obtain ⟨hstarts, earlier, later, hsplit, hearlier⟩ := List.find?_eq_some_iff_append.mp h
  have hmem : (text, kind) ∈ fixedLexemes := List.mem_of_find?_eq_some h
  have hstarts : text.toList <+: cs := List.isPrefixOf_iff_prefix.mp hstarts
  refine ⟨.fixed hmem, hstarts, fun kind' lexeme' h' hstarts' => ?_⟩
  refine Nat.le_of_not_lt fun hlt => ?_
  have hbegins : text.toList <+: lexeme' :=
    List.prefix_of_prefix_length_le hstarts hstarts' (Nat.le_of_lt hlt)
  rcases h'.fixed_or_word with ⟨text', hmem', rfl⟩ | hword
  · -- an earlier entry would match first, and a later one is not hidden
    rw [hsplit, List.mem_append, List.mem_cons] at hmem'
    rcases hmem' with hmem' | heq | hmem'
    · have hno := hearlier _ hmem'
      rw [List.isPrefixOf_iff_prefix.mpr hstarts'] at hno
      cases hno
    · rw [(Prod.mk.inj heq).1] at hlt
      exact Nat.lt_irrefl _ hlt
    · have hpairwise := pairwise_fixedLexemes
      rw [hsplit] at hpairwise
      have hlater := (List.pairwise_cons.mp (List.pairwise_append.mp hpairwise).2.1).1
      exact hlater _ hmem' hbegins
  · obtain ⟨c, rest, htext⟩ := List.exists_cons_of_ne_nil (fixedLexemes_ne _ hmem).2.2
    have hc : c ∈ text.toList := htext ▸ List.mem_cons_self
    have halphanum := hword c (hbegins.subset hc)
    rw [(fixedLexemes_signs _ hmem c hc).1] at halphanum
    cases halphanum

/-- A word that goes on as far as the characters allow is the longest lexeme, if no lexeme has
other characters. -/
theorem isLongestLexeme_takeWhile {p : Char → Bool} (hlexeme : IsLexeme kind (cs.takeWhile p))
    (h : ∀ kind' lexeme', IsLexeme kind' lexeme' → lexeme' <+: cs → ∀ c ∈ lexeme', p c = true) :
    IsLongestLexeme kind (cs.takeWhile p) cs := by
  refine ⟨hlexeme, List.takeWhile_prefix p, fun kind' lexeme' h' hstarts => ?_⟩
  obtain ⟨rest, rfl⟩ := hstarts
  rw [List.takeWhile_append_of_pos (h kind' lexeme' h' (List.prefix_append _ _))]
  simp

end Longest

/-- No rule matches at the start of the text. -/
def HasNoLexeme (cs : List Char) : Prop :=
  ∀ kind lexeme, IsLexeme kind lexeme → ¬lexeme <+: cs

section Words

variable {c : Char} {cs : List Char}
  (hsigns : ∀ entry ∈ fixedLexemes, ¬entry.1.toList <+: c :: cs)

include hsigns

/-- Without a sign in front, all lexemes are words. -/
theorem isAlphanum_of_mem_lexeme {kind : TokenKind} {lexeme : List Char}
    (h : IsLexeme kind lexeme) (hstarts : lexeme <+: c :: cs) :
    ∀ d ∈ lexeme, d.isAlphanum = true := by
  rcases h.fixed_or_word with ⟨text, hmem, rfl⟩ | hword
  · exact absurd hstarts (hsigns _ hmem)
  · exact hword

theorem isLongestLexeme_name (halpha : c.isAlpha = true) :
    IsLongestLexeme .name ((c :: cs).takeWhile Char.isAlphanum) (c :: cs) := by
  refine isLongestLexeme_takeWhile ?_ fun kind lexeme => isAlphanum_of_mem_lexeme hsigns
  rw [List.takeWhile_cons_of_pos (by simp [Char.isAlphanum, halpha])]
  exact .name halpha fun d hd => List.all_eq_true.mp List.all_takeWhile d hd

theorem isLongestLexeme_integer (halpha : ¬c.isAlpha = true) (hdigit : c.isDigit = true) :
    IsLongestLexeme .integer ((c :: cs).takeWhile Char.isDigit) (c :: cs) := by
  refine isLongestLexeme_takeWhile ?_ fun kind lexeme h hstarts => ?_
  · refine .integer ?_ fun d hd => List.all_eq_true.mp List.all_takeWhile d hd
    rw [List.takeWhile_cons_of_pos hdigit]
    exact List.cons_ne_nil _ _
  · cases h with
    | fixed hmem => exact absurd hstarts (hsigns _ hmem)
    | name hd => exact absurd ((List.cons_prefix_cons.mp hstarts).1 ▸ hd) halpha
    | integer _ hdigits => exact hdigits

theorem hasNoLexeme_of_not_isAlphanum (hc : ¬c.isAlphanum = true) : HasNoLexeme (c :: cs) := by
  intro kind lexeme h hstarts
  obtain ⟨d, rest, rfl⟩ := List.exists_cons_of_ne_nil h.ne_nil
  obtain rfl := (List.cons_prefix_cons.mp hstarts).1
  exact hc (isAlphanum_of_mem_lexeme hsigns h hstarts d List.mem_cons_self)

end Words

/-- The first rule that matches gives the longest lexeme. -/
theorem lexeme?_cases (cs : List Char) :
    (∃ kind lexeme, lexeme? cs = some (kind, lexeme) ∧ IsLongestLexeme kind lexeme cs) ∨
      lexeme? cs = none ∧ HasNoLexeme cs := by
  unfold lexeme?
  split
  · rename_i text kind hfind
    exact .inl ⟨kind, text.toList, rfl, isLongestLexeme_of_find? hfind⟩
  · rename_i hfind
    have hsigns : ∀ entry ∈ fixedLexemes, ¬entry.1.toList <+: cs := fun entry hmem hstarts =>
      List.find?_eq_none.mp hfind entry hmem (List.isPrefixOf_iff_prefix.mpr hstarts)
    cases cs with
    | nil => exact .inr ⟨rfl, fun kind lexeme h hstarts => h.ne_nil (List.prefix_nil.mp hstarts)⟩
    | cons c cs =>
      dsimp only
      split
      · rename_i halpha
        exact .inl ⟨_, _, rfl, isLongestLexeme_name hsigns halpha⟩
      · rename_i halpha
        split
        · rename_i hdigit
          exact .inl ⟨_, _, rfl, isLongestLexeme_integer hsigns halpha hdigit⟩
        · rename_i hdigit
          refine .inr ⟨rfl, hasNoLexeme_of_not_isAlphanum hsigns ?_⟩
          simp [Char.isAlphanum, halpha, hdigit]

theorem lexeme?_eq_some_iff {kind : TokenKind} {lexeme cs : List Char} :
    lexeme? cs = some (kind, lexeme) ↔ IsLongestLexeme kind lexeme cs := by
  rcases lexeme?_cases cs with ⟨kind', lexeme', heq, hlongest⟩ | ⟨heq, hnone⟩
  · rw [heq]
    constructor
    · intro h
      obtain ⟨rfl, rfl⟩ := Prod.mk.inj (Option.some.inj h)
      exact hlongest
    · intro h
      obtain ⟨rfl, rfl⟩ := hlongest.unique h
      rfl
  · rw [heq]
    exact ⟨nofun, fun h => absurd h.starts (hnone _ _ h.isLexeme)⟩

theorem lexeme?_eq_none_iff {cs : List Char} : lexeme? cs = none ↔ HasNoLexeme cs := by
  rcases lexeme?_cases cs with ⟨kind, lexeme, heq, hlongest⟩ | ⟨heq, hnone⟩
  · rw [heq]
    exact ⟨nofun, fun h => absurd hlongest.starts (h _ _ hlongest.isLexeme)⟩
  · exact ⟨fun _ => hnone, fun _ => heq⟩

end ProgramQuery
