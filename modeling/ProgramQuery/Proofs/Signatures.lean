import ProgramQuery.Proofs.PlanCover
import ProgramQuery.Proofs.QueryTyping

/-!
# Signatures of clauses

The edges of a plan are found by texts that are put together from the arguments of clauses. Where
the arguments are spelled as queries have them, such a text can be taken apart again: names have
only letters and digits, so the sign after a name shows where the name ends.

## Main definitions and statements

- `Clause.IsWritten`: the arguments of a clause are spelled as those of queries are.
- `signaturesAgree_of_isWritten`: clauses with the same signature are about the same synonyms.
-/

namespace ProgramQuery

/-! ## Arguments -/

/-- Whether a character is none of those that separate the parts of a clause. -/
def isInner (c : Char) : Bool :=
  c ≠ '(' && c ≠ ',' && c ≠ ')'

theorem isInner_of_isAlphanum {c : Char} (h : c.isAlphanum = true) : isInner c = true := by
  have hne : ∀ d : Char, d.isAlphanum = false → c ≠ d := by
    rintro d hd rfl
    rw [hd] at h
    cases h
  simp [isInner, hne '(' (by decide), hne ',' (by decide), hne ')' (by decide)]

/-- Arguments with a name, digits or an underscore for a text, each where it belongs. -/
inductive Argument.IsWritten : Argument → Prop where
  | synonym {sort : ArgumentKind} {x : String} (hrole : sort.role = .synonym) (hname : IsName x) :
      IsWritten ⟨sort, x⟩
  | name {s : String} (hname : IsName s) : IsWritten ⟨.name, s⟩
  | number {s : String} (hdigits : s.toList.all Char.isDigit = true) : IsWritten ⟨.number, s⟩
  | wildcard : IsWritten ⟨.wildcard, "_"⟩

theorem Argument.IsTyped.isWritten {declared : Declarations} {a : Argument}
    (h : a.IsTyped declared) : a.IsWritten := by
  cases h with
  | synonym hdeclared hname hfits => exact .synonym (EntityKind.role_of_fits hfits) hname
  | name hname => exact .name hname
  | number hnumber => exact .number hnumber.all_isDigit
  | wildcard => exact .wildcard

namespace Argument.IsWritten

variable {a b : Argument}

theorem role_ne_invalid (h : a.IsWritten) : a.role ≠ .invalid := by
  cases h with
  | synonym hrole hname =>
    intro hinvalid
    cases hrole.symm.trans hinvalid
  | name | number | wildcard => exact Role.noConfusion

/-- The text of a synonym is its name, and an attribute after a dot if there is one. -/
theorem exists_text_eq (h : a.IsWritten) (hrole : a.role = .synonym) :
    IsName a.value ∧ ∃ rest, a.text.toList = a.value.toList ++ rest ∧
      (∀ c ∈ rest, isInner c = true) ∧ (rest = [] ∨ ∃ cs, rest = '.' :: cs) := by
  cases h with
  | @synonym sort x hrole hname =>
    refine ⟨hname, ?_⟩
    have hplain : ∃ rest, x.toList = x.toList ++ rest ∧ (∀ c ∈ rest, isInner c = true) ∧
        (rest = [] ∨ ∃ cs, rest = '.' :: cs) := ⟨[], by simp⟩
    have hattr : ∀ s : String, (∀ c ∈ s.toList, isInner c = true) → (∃ cs, s.toList = '.' :: cs) →
        ∃ rest, (x ++ s).toList = x.toList ++ rest ∧ (∀ c ∈ rest, isInner c = true) ∧
          (rest = [] ∨ ∃ cs, rest = '.' :: cs) := by
      intro s hinner hdot
      exact ⟨s.toList, String.toList_append, hinner, .inr hdot⟩
    cases sort with
    | stmtSynonym | varSynonym | procSynonym | constSynonym => exact hplain
    | readVariable | printVariable =>
      exact hattr ".varName" (List.all_eq_true.mp (by decide)) ⟨_, rfl⟩
    | calledProcedure => exact hattr ".procName" (List.all_eq_true.mp (by decide)) ⟨_, rfl⟩
    | name | number | wildcard | invalid => cases hrole
  | name | number | wildcard => cases hrole

theorem isInner_text (h : a.IsWritten) : ∀ c ∈ a.text.toList, isInner c = true := by
  by_cases hrole : a.role = .synonym
  · obtain ⟨hname, rest, htext, hrest, -⟩ := h.exists_text_eq hrole
    rw [htext, List.forall_mem_append]
    exact ⟨fun c hc => isInner_of_isAlphanum (hname.isAlphanum c hc), hrest⟩
  · cases h with
    | synonym hsynonym hname => exact absurd hsynonym hrole
    | @name s hname =>
      simp only [text, String.toList_append, List.forall_mem_append]
      refine ⟨⟨?_, fun c hc => isInner_of_isAlphanum (hname.isAlphanum c hc)⟩, ?_⟩ <;>
        exact List.all_eq_true.mp (by decide)
    | @number s hdigits =>
      intro c hc
      exact isInner_of_isAlphanum (by simp [Char.isAlphanum, List.all_eq_true.mp hdigits c hc])
    | wildcard => exact fun c hc => by simpa [text] using List.mem_singleton.mp hc ▸ by decide

theorem role_eq_synonym (h : a.IsWritten) {c : Char} {cs : List Char}
    (htext : a.text.toList = c :: cs) (hc : c.isAlpha = true) : a.role = .synonym := by
  cases h with
  | synonym hrole hname => exact hrole
  | @name s hname =>
    simp only [text, String.toList_append] at htext
    obtain ⟨rfl, -⟩ := List.cons.inj htext
    exact absurd hc (by decide)
  | @number s hdigits =>
    have htext : s.toList = c :: cs := htext
    rw [htext, List.all_cons, isDigit_eq_false_of_isAlpha hc] at hdigits
    cases hdigits
  | wildcard =>
    obtain ⟨rfl, -⟩ := List.cons.inj htext
    exact absurd hc (by decide)

theorem synonym_of_text_eq (ha : a.IsWritten) (hb : b.IsWritten)
    (htext : a.text = b.text) (hrole : a.role = .synonym) :
    b.role = .synonym ∧ a.value = b.value := by
  obtain ⟨hname, rest, hatext, -, hstop⟩ := ha.exists_text_eq hrole
  have hbrole : b.role = .synonym := by
    obtain ⟨c, cs, hvalue, hc, -⟩ := hname
    have hbtext : b.text.toList = c :: (cs ++ rest) := by
      rw [← htext, hatext, hvalue, List.cons_append]
    exact hb.role_eq_synonym hbtext hc
  refine ⟨hbrole, ?_⟩
  obtain ⟨hname', rest', hbtext, -, hstop'⟩ := hb.exists_text_eq hbrole
  have hstart : ∀ {s : String} {r : List Char}, IsName s → (r = [] ∨ ∃ cs, r = '.' :: cs) →
      (s.toList ++ r).takeWhile Char.isAlphanum = s.toList := by
    rintro s r hs (rfl | ⟨cs, rfl⟩)
    · rw [List.takeWhile_append_of_pos hs.isAlphanum, List.takeWhile_nil, List.append_nil]
    · exact takeWhile_append_cons hs.isAlphanum (by decide)
  apply String.toList_inj.mp
  rw [← hstart hname hstop, ← hatext, htext, hbtext, hstart hname' hstop']

end Argument.IsWritten

/-! ## Clauses -/

theorem isInner_label (kind : ClauseKind) : ∀ c ∈ kind.label.toList, isInner c = true := by
  cases kind <;> exact List.all_eq_true.mp (by decide)

/-- Clauses whose two arguments are written. -/
structure Clause.IsWritten (c : Clause) : Prop where
  left : c.left.IsWritten
  right : c.right.IsWritten

theorem Clause.IsTyped.isWritten {declared : Declarations} {c : Clause} (h : c.IsTyped declared) :
    c.IsWritten :=
  ⟨h.left.isWritten, h.right.isWritten⟩

theorem Clause.IsWritten.isInvalid_eq_false {c : Clause} (h : c.IsWritten) :
    c.isInvalid = false := by
  simp [Clause.isInvalid, h.left.role_ne_invalid, h.right.role_ne_invalid]

/-- Clauses with the same text have arguments with the same texts. -/
theorem Clause.text_inj {c d : Clause} (hc : c.IsWritten) (hd : d.IsWritten)
    (h : c.text = d.text) :
    c.left.text = d.left.text ∧ c.right.text = d.right.text := by
  -- What comes after the right argument starts with a separator.
  have hend : ∀ e : Clause, ∃ stop cs, isInner stop = false ∧
      ((if e.pattern = "" then "" else ", \"" ++ e.pattern ++ "\"") ++ ")").toList =
        stop :: cs := by
    intro e
    split
    · exact ⟨')', [], by decide, by simp⟩
    · refine ⟨',', ' ' :: '"' :: (e.pattern.toList ++ ['"', ')']), by decide, ?_⟩
      simp [String.toList_append]
  have hform : ∀ e : Clause, ∃ stop cs, isInner stop = false ∧ e.text.toList =
      e.kind.label.toList ++ '(' :: (e.left.text.toList ++ ',' :: ' ' ::
        (e.right.text.toList ++ stop :: cs)) := by
    intro e
    obtain ⟨stop, cs, hstop, htail⟩ := hend e
    refine ⟨stop, cs, hstop, ?_⟩
    rw [← htail]
    simp [Clause.text, String.toList_append]
  obtain ⟨stop, cs, hstop, hctext⟩ := hform c
  obtain ⟨stop', cs', hstop', hdtext⟩ := hform d
  have hlist := congrArg String.toList h
  rw [hctext, hdtext] at hlist
  obtain ⟨-, hlist⟩ := append_stop_inj (isInner_label _) (isInner_label _) (by decide) (by decide)
    hlist
  obtain ⟨hleft, hlist⟩ := append_stop_inj hc.left.isInner_text hd.left.isInner_text (by decide)
    (by decide) hlist
  obtain ⟨hright, -⟩ := append_stop_inj hc.right.isInner_text hd.right.isInner_text hstop hstop'
    (List.cons.inj hlist).2
  exact ⟨String.toList_inj.mp hleft, String.toList_inj.mp hright⟩

theorem pairSignature_eq (a b : String) :
    ∃ x y, pairSignature a b = x ++ "-" ++ y ∧ ((x, y) = (a, b) ∨ (x, y) = (b, a)) := by
  unfold pairSignature
  split
  · exact ⟨b, a, rfl, .inr rfl⟩
  · exact ⟨a, b, rfl, .inl rfl⟩

/-- A pair of names can be read off its signature, up to the order. -/
theorem pairSignature_inj {a b a' b' : String} (ha : IsName a) (hb : IsName b) (ha' : IsName a')
    (hb' : IsName b') (h : pairSignature a b = pairSignature a' b') :
    (a, b) = (a', b') ∨ (a, b) = (a', b').swap := by
  obtain ⟨x, y, hxy, hends⟩ := pairSignature_eq a b
  obtain ⟨x', y', hxy', hends'⟩ := pairSignature_eq a' b'
  have hx : IsName x ∧ IsName x' := by
    constructor
    · rcases hends with heq | heq <;> obtain ⟨rfl, rfl⟩ := Prod.mk.inj heq <;> assumption
    · rcases hends' with heq | heq <;> obtain ⟨rfl, rfl⟩ := Prod.mk.inj heq <;> assumption
  have hlist : x.toList ++ '-' :: y.toList = x'.toList ++ '-' :: y'.toList := by
    have hlist := congrArg String.toList ((hxy.symm.trans h).trans hxy')
    simpa [String.toList_append] using hlist
  obtain ⟨hxx, hyy⟩ := append_stop_inj hx.1.isAlphanum hx.2.isAlphanum (by decide) (by decide) hlist
  obtain rfl := String.toList_inj.mp hxx
  obtain rfl := String.toList_inj.mp hyy
  rcases hends with heq | heq <;> rcases hends' with heq' | heq' <;>
    obtain ⟨rfl, rfl⟩ := Prod.mk.inj heq <;> obtain ⟨rfl, rfl⟩ := Prod.mk.inj heq' <;> simp

/-- The signature of a clause about one synonym has an underscore, and that of a pair has none. -/
theorem pairSignature_ne {a b : String} (ha : IsName a) (hb : IsName b) (s : String) :
    pairSignature a b ≠ "hash_" ++ s := by
  intro h
  obtain ⟨x, y, hxy, hends⟩ := pairSignature_eq a b
  have hmem : '_' ∈ (pairSignature a b).toList := by
    rw [h, String.toList_append]
    exact List.mem_append_left _ (by decide)
  have hno : ∀ {z : String}, IsName z → '_' ∉ z.toList := fun hz hc =>
    absurd (hz.isAlphanum _ hc) (by decide)
  rw [hxy] at hmem
  simp only [String.toList_append, List.mem_append] at hmem
  rcases hends with heq | heq <;> obtain ⟨rfl, rfl⟩ := Prod.mk.inj heq <;>
    rcases hmem with (hmem | hmem) | hmem
  · exact hno ha hmem
  · exact absurd hmem (by decide)
  · exact hno hb hmem
  · exact hno hb hmem
  · exact absurd hmem (by decide)
  · exact hno ha hmem

/-- Clauses have the same signature only if they are about the same synonyms. -/
theorem signaturesAgree_of_isWritten {clauses : List Clause}
    (h : ∀ c ∈ clauses, c.IsWritten) : SignaturesAgree clauses := by
  intro c hc d hd p o hp ho hsig
  have hct := h c hc
  have hdt := h d hd
  rcases Clause.placement?_cases hp with ⟨hl, hr, hps, hpe⟩ | ⟨hps, hpe⟩ <;>
    rcases Clause.placement?_cases ho with ⟨hl', hr', hos, hoe⟩ | ⟨hos, hoe⟩ <;>
    rw [hps, hos] at hsig
  · rw [hpe, hoe]
    exact pairSignature_inj (hct.left.exists_text_eq hl).1 (hct.right.exists_text_eq hr).1
      (hdt.left.exists_text_eq hl').1 (hdt.right.exists_text_eq hr').1 hsig
  · exact absurd hsig
      (pairSignature_ne (hct.left.exists_text_eq hl).1 (hct.right.exists_text_eq hr).1 _)
  · exact absurd hsig.symm
      (pairSignature_ne (hdt.left.exists_text_eq hl').1 (hdt.right.exists_text_eq hr').1 _)
  · -- The texts are the same, so the synonym is on the same side in both.
    have htext : c.text = d.text := by
      apply String.toList_inj.mp
      have hlist := congrArg String.toList hsig
      simpa [String.toList_append] using hlist
    obtain ⟨hleft, hright⟩ := Clause.text_inj hct hdt htext
    rcases hpe with ⟨hl, hr, hpe⟩ | ⟨hl, hr, hpe⟩
    · obtain ⟨hl', hvalue⟩ := hct.left.synonym_of_text_eq hdt.left hleft hl
      rcases hoe with ⟨-, -, hoe⟩ | ⟨hno, -, -⟩
      · exact .inl (by rw [hpe, hoe, hvalue])
      · exact absurd hl' hno
    · obtain ⟨hr', hvalue⟩ := hct.right.synonym_of_text_eq hdt.right hright hr
      rcases hoe with ⟨-, hno, -⟩ | ⟨-, -, hoe⟩
      · exact absurd hr' hno
      · exact .inl (by rw [hpe, hoe, hvalue])

theorem signaturesAgree_of_isTyped {declared : Declarations} {clauses : List Clause}
    (h : ∀ c ∈ clauses, c.IsTyped declared) : SignaturesAgree clauses :=
  signaturesAgree_of_isWritten fun c hc => (h c hc).isWritten

end ProgramQuery
