import ProgramQuery.Text.Numeral
import ProgramQuery.Token.Lexer

/-!
# Names and numbers as texts

The values that queries compare are texts. Names and numbers come from tokens, so a name starts
with a letter and a number has no idle zero. Hence no text is both, and a number is the only text
that denotes what it denotes.

## Main definitions

- `IsName`, `IsNumber`: the texts of names and of integers.
- `Token.IsLexical`: the text of a token fits its kind.

## Main statements

- `append_stop_inj`: a sign shows where the letters before it end.
- `isNumber_toString`: the text of a number is a number.
- `numeral?_toString`, `toString_of_numeral?`: numerals and numbers determine each other.
-/

namespace ProgramQuery

/-- A letter, and after it letters and digits. -/
def IsName (s : String) : Prop :=
  ∃ c cs, s.toList = c :: cs ∧ c.isAlpha = true ∧ cs.all Char.isAlphanum = true

/-- One or more digits, with a leading zero only if it is alone. -/
structure IsNumber (s : String) : Prop where
  ne_nil : s.toList ≠ []
  all_isDigit : s.toList.all Char.isDigit = true
  no_leading_zero : hasLeadingZero s.toList = false

/-- The text of the token fits its kind, and is not blank. -/
structure Token.IsLexical (t : Token) : Prop where
  isName : t.kind = .name → IsName t.text
  isNumber : t.kind = .integer → IsNumber t.text
  not_blank : ∃ c ∈ t.text.toList, isBlank c = false

/-! ## Letters and digits -/

theorem takeWhile_append_cons {α : Type} {p : α → Bool} {l r : List α} {a : α}
    (hl : ∀ c ∈ l, p c = true) (ha : p a = false) : (l ++ a :: r).takeWhile p = l := by
  rw [List.takeWhile_append_of_pos hl, List.takeWhile_cons_of_neg (by simp [ha]), List.append_nil]

/-- Two texts that start with letters of some sort and stop at a sign have the same start. -/
theorem append_stop_inj {p : Char → Bool} {l r l' r' : List Char} {a a' : Char}
    (hl : ∀ c ∈ l, p c = true) (hl' : ∀ c ∈ l', p c = true) (ha : p a = false) (ha' : p a' = false)
    (h : l ++ a :: r = l' ++ a' :: r') : l = l' ∧ r = r' := by
  have hstart : l = l' := by
    rw [← takeWhile_append_cons hl ha (r := r), h, takeWhile_append_cons hl' ha']
  subst hstart
  exact ⟨rfl, (List.cons.inj (List.append_cancel_left h)).2⟩

theorem IsName.isAlphanum {s : String} (h : IsName s) : ∀ c ∈ s.toList, c.isAlphanum = true := by
  obtain ⟨c, cs, hs, hc, hcs⟩ := h
  rw [hs]
  exact List.forall_mem_cons.mpr ⟨by simp [Char.isAlphanum, hc], List.all_eq_true.mp hcs⟩

theorem IsNumber.isAlphanum {s : String} (h : IsNumber s) :
    ∀ c ∈ s.toList, c.isAlphanum = true := by
  intro c hc
  simp [Char.isAlphanum, List.all_eq_true.mp h.all_isDigit c hc]

/-! ## Blank texts -/

theorem trimBlanks_ne_nil {cs : List Char} {c : Char} (hc : c ∈ cs) (hblank : isBlank c = false) :
    trimBlanks cs ≠ [] := by
  have hdrop : ∀ l : List Char, c ∈ l → c ∈ l.dropWhile isBlank := by
    intro l hl
    rw [← List.takeWhile_append_dropWhile (p := isBlank) (l := l), List.mem_append] at hl
    rcases hl with hl | hl
    · have := List.all_eq_true.mp List.all_takeWhile c hl
      rw [hblank] at this
      cases this
    · exact hl
  have hmem : c ∈ trimBlanks cs := by
    rw [trimBlanks, List.mem_reverse]
    exact hdrop _ (List.mem_reverse.mpr (hdrop cs hc))
  exact List.ne_nil_of_mem hmem

theorem trimmed_ne_empty {s : String} {c : Char} (hc : c ∈ s.toList) (hblank : isBlank c = false) :
    trimmed s ≠ "" := by
  intro h
  refine trimBlanks_ne_nil hc hblank ?_
  have hlist := congrArg String.toList h
  simpa [trimmed] using hlist

/-! ## Names are no numerals -/

theorem isDigit_eq_false_of_isAlpha {c : Char} (h : c.isAlpha = true) : c.isDigit = false := by
  have hletter : 65 ≤ c.toNat := by
    rcases Bool.or_eq_true_iff.mp h with hupper | hlower
    · exact (of_decide_eq_true hupper).1
    · have hle : 97 ≤ c.toNat := of_decide_eq_true (Bool.and_eq_true_iff.mp hlower).1
      omega
  refine Bool.eq_false_iff.mpr fun hdigit => ?_
  have hle : c.toNat ≤ 57 := of_decide_eq_true (Bool.and_eq_true_iff.mp hdigit).2
  omega

theorem not_isNumber_of_isName {s : String} (h : IsName s) : ¬IsNumber s := by
  obtain ⟨c, cs, hs, hc, -⟩ := h
  intro hn
  have hdigit := hn.all_isDigit
  rw [hs, List.all_cons, isDigit_eq_false_of_isAlpha hc] at hdigit
  cases hdigit

theorem unsignedDigits_eq {c : Char} {cs : List Char} (h : c ≠ '+') :
    unsignedDigits (c :: cs) = c :: cs := by
  unfold unsignedDigits
  split
  · rename_i heq
    exact absurd (List.cons.inj heq).1 h
  · rfl

theorem numeral?_of_isName {s : String} (h : IsName s) : numeral? s = none := by
  obtain ⟨c, cs, hs, hc, -⟩ := h
  have hplus : c ≠ '+' := by
    rintro rfl
    exact absurd hc (by decide)
  rw [numeral?, hs, unsignedDigits_eq hplus]
  exact if_neg fun hall => by
    simp [List.all_cons, isDigit_eq_false_of_isAlpha hc] at hall

theorem ne_wildcard_of_isName {s : String} (h : IsName s) : s ≠ "_" := by
  rintro rfl
  obtain ⟨c, cs, hs, hc, -⟩ := h
  have hchar : '_' = c := (List.cons.inj hs).1
  exact absurd hc (hchar ▸ by decide)

/-! ## Numbers and what they denote -/

theorem ne_plus_of_isDigit {c : Char} (h : c.isDigit = true) : c ≠ '+' := by
  rintro rfl
  exact absurd h (by decide)

/-- A number is a numeral if what it denotes is in the range. -/
theorem IsNumber.numeral?_eq {s : String} (h : IsNumber s) :
    numeral? s = if digitsValue s.toList < numeralBound then some (digitsValue s.toList)
      else none := by
  have hne := h.ne_nil
  have hall := h.all_isDigit
  obtain ⟨c, cs, hs⟩ := List.exists_cons_of_ne_nil hne
  have hc : c.isDigit = true := by
    rw [hs, List.all_cons, Bool.and_eq_true] at hall
    exact hall.1
  have hdigits : unsignedDigits s.toList = s.toList := by
    rw [hs, unsignedDigits_eq (ne_plus_of_isDigit hc)]
  simp only [numeral?, hdigits, hne, hall, ne_eq, not_false_eq_true, true_and]

/-- The digits of a positive number do not start with a zero. -/
theorem exists_toDigits_eq_cons {n : Nat} (h : 0 < n) :
    ∃ c cs, Nat.toDigits 10 n = c :: cs ∧ c ≠ '0' := by
  induction n using Nat.strongRecOn with
  | ind n ih =>
    by_cases hlt : n < 10
    · refine ⟨Nat.digitChar n, [], Nat.toDigits_of_lt_base hlt, ?_⟩
      intro heq
      have hvalue := congrArg Char.toNat heq
      rw [Nat.toNat_digitChar_of_lt_ten hlt] at hvalue
      have hzero : '0'.toNat = 48 := rfl
      omega
    · -- the digits of the tenth come first
      obtain ⟨c, cs, hcs, hc⟩ := ih (n / 10) (by omega) (by omega)
      refine ⟨c, cs ++ Nat.toDigits 10 (n % 10), ?_, hc⟩
      have happend := Nat.toDigits_append_toDigits (b := 10) (n := n / 10) (d := n % 10)
        (by decide) (by omega) (by omega)
      rw [Nat.div_add_mod] at happend
      rw [← happend, hcs, List.cons_append]

/-- The text of a number is a number. -/
theorem isNumber_toString (n : Nat) : IsNumber (toString n) := by
  have hlist : (toString n).toList = Nat.toDigits 10 n := Nat.toList_repr
  constructor
  · rw [hlist]
    exact Nat.toDigits_ne_nil
  · rw [hlist, List.all_eq_true]
    intro c hc
    exact Nat.isDigit_of_mem_toDigits (by decide) (by decide) hc
  · rw [hlist]
    rcases Nat.eq_zero_or_pos n with rfl | hpos
    · rfl
    · obtain ⟨c, cs, hcs, hc⟩ := exists_toDigits_eq_cons hpos
      rw [hcs]
      unfold hasLeadingZero
      split
      · next heq => exact absurd (List.cons.inj heq).1 hc
      · rfl

theorem digitsValue_toString (n : Nat) : digitsValue (toString n).toList = n := by
  have hlist : (toString n).toList = Nat.toDigits 10 n := Nat.toList_repr
  rw [hlist]
  exact Nat.ofDigitChars_ten_toDigits

/-- The text of a number is a numeral that denotes it. -/
theorem numeral?_toString {n : Nat} (h : n < numeralBound) : numeral? (toString n) = some n := by
  rw [(isNumber_toString n).numeral?_eq, digitsValue_toString, if_pos h]

theorem digitChar_of_isDigit {c : Char} (h : c.isDigit = true) :
    c.toNat - '0'.toNat < 10 ∧ Nat.digitChar (c.toNat - '0'.toNat) = c := by
  simp only [Char.isDigit, Bool.and_eq_true, decide_eq_true_eq, UInt32.le_iff_toNat_le] at h
  have hbounds : 48 ≤ c.toNat ∧ c.toNat ≤ 57 := h
  have hlt : c.toNat - '0'.toNat < 10 := by
    have : '0'.toNat = 48 := rfl
    omega
  refine ⟨hlt, Char.toNat_inj.mp ?_⟩
  rw [Nat.toNat_digitChar_of_lt_ten hlt]
  have : '0'.toNat = 48 := rfl
  omega

/-- Digits after the text of a positive number make the text of the number they denote. -/
theorem toDigits_append {cs : List Char} {n : Nat} (hn : 0 < n)
    (hall : cs.all Char.isDigit = true) :
    Nat.toDigits 10 n ++ cs =
      Nat.toDigits 10 (cs.foldl (fun value d => 10 * value + (d.toNat - '0'.toNat)) n) := by
  induction cs generalizing n with
  | nil => simp
  | cons c cs ih =>
    rw [List.all_cons, Bool.and_eq_true] at hall
    obtain ⟨hlt, hchar⟩ := digitChar_of_isDigit hall.1
    have hstep : Nat.toDigits 10 n ++ [c] =
        Nat.toDigits 10 (10 * n + (c.toNat - '0'.toNat)) := by
      rw [← Nat.toDigits_append_toDigits (by decide) hn hlt, Nat.toDigits_of_lt_base hlt, hchar]
    rw [List.foldl_cons, ← ih (by omega) hall.2, ← hstep, List.append_assoc, List.singleton_append]

/-- A number is the text of what it denotes. -/
theorem toString_of_numeral? {s : String} {n : Nat} (hs : IsNumber s) (h : numeral? s = some n) :
    toString n = s := by
  rw [hs.numeral?_eq] at h
  split at h
  · obtain rfl := Option.some.inj h
    obtain ⟨c, cs, hlist⟩ := List.exists_cons_of_ne_nil hs.ne_nil
    have hall := hs.all_isDigit
    have hzero := hs.no_leading_zero
    rw [hlist, List.all_cons, Bool.and_eq_true] at hall
    rw [hlist] at hzero
    obtain ⟨hlt, hchar⟩ := digitChar_of_isDigit hall.1
    apply String.toList_inj.mp
    have htext : (toString (digitsValue s.toList)).toList =
        Nat.toDigits 10 (digitsValue s.toList) :=
      Nat.toList_repr
    rw [htext, hlist]
    have hvalue : digitsValue (c :: cs) =
        cs.foldl (fun value d => 10 * value + (d.toNat - '0'.toNat)) (c.toNat - '0'.toNat) := by
      simp [digitsValue]
    rw [hvalue]
    rcases Nat.eq_zero_or_pos (c.toNat - '0'.toNat) with h0 | hpos
    · -- A zero in front stands alone.
      have hc : c = '0' := by
        rw [← hchar, h0]
        rfl
      subst hc
      cases cs with
      | nil => rfl
      | cons d cs => cases hzero
    · rw [← toDigits_append hpos hall.2, Nat.toDigits_of_lt_base hlt, hchar]
      rfl
  · cases h

end ProgramQuery
