import ProgramQuery.Proofs.ProgramGrammar

/-!
# Tokens that end too early begin a program

Reading fails in one of two ways: it finds a token that cannot stand where it is, or the tokens come
to an end while more is needed. In the second case there is always a continuation that makes the
tokens a program. Up to the end every token has been taken by a rule of the grammar, so the rules
that are still open can be closed, each with some tokens that fit.

The attempt to read a condition as a comparison fails in the second way too, and the tokens may then
be no beginning of a comparison. But that failure is dropped, and another rule is tried.

## Main definitions

- `Grammar.Begins`: the tokens can be continued to something that is derived.
- `Grammar.MissesMore`: reading has come to the end of the tokens and needs more.
- `Grammar.IsCompletable`: where a reader misses more, the tokens begin what it reads.

## Main statements

- `Grammar.isCompletable_readExpression`, `Grammar.isCompletable_readCondition`,
  `Grammar.isCompletable_readStatement`: this holds of every reader.
- `exists_completion_of_atEnd`: tokens that end too early can be completed to a program.
-/

namespace ProgramQuery

namespace Grammar

section Readers

variable {α β : Type}

/-- The tokens can be continued to something that is derived. -/
def Begins (derived : List Token → α → Prop) (ts : List Token) : Prop :=
  ∃ us a, derived (ts ++ us) a

/-- Reading has come to the end of the tokens and needs more. -/
def MissesMore (result : Except SyntaxError α) : Prop :=
  ∃ expected, result = .error (.atEnd expected)

/-- Where a reader misses more, the tokens begin what it reads, if there are at most `bound`. -/
def IsCompletable (derived : List Token → α → Prop) (bound : Nat)
    (reader : List Token → Except SyntaxError β) : Prop :=
  ∀ ⦃ts : List Token⦄, ts.length ≤ bound → MissesMore (reader ts) → Begins derived ts

theorem not_missesMore_ok {a : α} : ¬MissesMore (.ok a) := by
  rintro ⟨expected, h⟩
  cases h

/-- More is missed in the first of two steps, or in the second. -/
theorem MissesMore.of_bind {x : Except SyntaxError α} {f : α → Except SyntaxError β}
    (h : MissesMore (x >>= f)) : MissesMore x ∨ ∃ a, x = .ok a ∧ MissesMore (f a) := by
  obtain ⟨expected, h⟩ := h
  rcases of_bind_eq_error h with h | ⟨a, hx, h⟩
  · exact .inl ⟨expected, h⟩
  · exact .inr ⟨a, hx, expected, h⟩

/-- A reader of a single token misses more only where there is none. -/
theorem eq_nil_of_readToken {read? : Token → Option α} {expected : Expected}
    {wrong : Expected → Token → SyntaxError} (hwrong : ∀ t e, wrong expected t ≠ .atEnd e)
    {ts : List Token} (h : MissesMore (readToken read? expected wrong ts)) : ts = [] := by
  obtain ⟨e, h⟩ := h
  cases ts with
  | nil => rfl
  | cons t ts =>
    rw [readToken] at h
    split at h
    · cases h
    · exact absurd (Except.error.inj h) (hwrong t e)

end Readers

theorem eq_nil_of_readKind {kind : TokenKind} {ts : List Token}
    (h : MissesMore (readKind kind ts)) : ts = [] :=
  eq_nil_of_readToken (by simp) h

theorem eq_nil_of_readKeyword {word : String} {ts : List Token}
    (h : MissesMore (readKeyword word ts)) : ts = [] :=
  eq_nil_of_readToken (by simp) h

/-! ## Tokens that fit -/

/-- A token to continue with. -/
def filler (kind : TokenKind) (text : String) : Token :=
  { kind, text, line := 1, column := 1 }

theorem begins_factor : Begins Factor [] :=
  ⟨[filler .name "x"], _, .name rfl⟩

theorem begins_expression : Begins Expression [] :=
  ⟨[filler .name "x"], _, .single (.single (.name rfl))⟩

theorem begins_condition : Begins Condition [] := by
  have hleft : Side [filler .name "x"] _ := .name rfl
  have hsign : ((filler .gt ">").kind, NodeKind.greater) ∈ comparisonSigns := List.mem_cons_self
  have hright : Side [filler .name "y"] _ := .name rfl
  have hcondition := Condition.comparison hleft hsign hright
  exact ⟨_, _, hcondition⟩

theorem begins_statement : Begins Statement [] := by
  have hmem : ("read", NodeKind.read) ∈ namedStatements := List.mem_cons_self
  exact ⟨[filler .name "read", filler .name "x", filler .semicolon ";"], _,
    .named hmem (by decide) rfl rfl⟩

/-! ## Expressions -/

section Chain

variable {operator : TokenKind → Option NodeKind} {signs : List (TokenKind × NodeKind)}
  (hoperator : Names operator signs) {operand : Reader Node} {derived : List Token → Node → Prop}
  (hsound : IsSound derived operand) {m : Nat} (hoperand : IsCompletable derived m operand)

include hoperator hsound hoperand

/-- A chain that misses its last operand is continued by it. -/
theorem begins_of_readOperations {bound : Nat} {left : Node} {done ts : List Token}
    (hleft : Chain signs derived done left) (hm : ts.length ≤ m)
    (h : MissesMore (readOperations operator operand bound left ts)) :
    Begins (Chain signs derived) (done ++ ts) := by
  induction bound generalizing left done ts with
  | zero => exact absurd h not_missesMore_ok
  | succ bound ih =>
    cases ts with
    | nil => exact absurd h not_missesMore_ok
    | cons t ts =>
      rw [List.length_cons] at hm
      rw [readOperations] at h
      split at h
      · exact absurd h not_missesMore_ok
      · next kind hkind =>
        have hsign := (hoperator _ _).mp hkind
        rcases h.of_bind with hmisses | ⟨⟨right, rest⟩, hright, hmisses⟩
        · obtain ⟨us, right, hright⟩ := hoperand (by omega) hmisses
          exact ⟨us, _, by simpa using hleft.operation hsign hright⟩
        · obtain ⟨used, rfl, hused⟩ := hsound hright
          rw [List.length_append] at hm
          simpa using ih (hleft.operation hsign hused) (by omega) hmisses

theorem isCompletable_readChain (bound : Nat) :
    IsCompletable (Chain signs derived) m (readChain operator operand bound) := by
  intro ts hm h
  rcases h.of_bind with hmisses | ⟨⟨first, rest⟩, hfirst, hmisses⟩
  · obtain ⟨us, n, hn⟩ := hoperand hm hmisses
    exact ⟨us, n, .single hn⟩
  · obtain ⟨used, rfl, hused⟩ := hsound hfirst
    rw [List.length_append] at hm
    exact begins_of_readOperations hoperator hsound hoperand (.single hused) (by omega) hmisses

end Chain

theorem isCompletable_readSum {factor : Reader Node} (hsound : IsSound Factor factor) {m : Nat}
    (hfactor : IsCompletable Factor m factor) (bound : Nat) :
    IsCompletable Expression m (readSum factor bound) :=
  isCompletable_readChain names_sumOperator (isSound_readChain names_productOperator hsound bound)
    (isCompletable_readChain names_productOperator hsound hfactor bound) bound

theorem isCompletable_readFactor (bound : Nat) :
    IsCompletable Factor bound (readFactor bound) := by
  induction bound with
  | zero =>
    intro ts hlength _
    obtain rfl := List.length_eq_zero_iff.mp (Nat.le_zero.mp hlength)
    exact begins_factor
  | succ bound ih =>
    intro ts hlength h
    cases ts with
    | nil => exact begins_factor
    | cons t ts =>
      rw [List.length_cons] at hlength
      rw [readFactor] at h
      split at h
      · exact absurd h not_missesMore_ok
      · exact absurd h not_missesMore_ok
      · next hkind =>
        -- the parenthesis is closed after the expression inside
        have hclosed : ∀ us n, Expression (ts ++ us) n → Begins Factor (t :: ts) := fun us n hn =>
          ⟨us ++ [filler .rParen ")"], n, by simpa using Factor.parenthesised hkind hn rfl⟩
        rcases h.of_bind with hmisses | ⟨⟨inner, rest⟩, hinner, hmisses⟩
        · obtain ⟨us, n, hn⟩ :=
            isCompletable_readSum (isSound_readFactor bound) ih bound (by omega) hmisses
          exact hclosed us n hn
        · obtain ⟨used, hts, hused⟩ := isSound_readSum (isSound_readFactor bound) bound hinner
          rcases hmisses.of_bind with hmisses | ⟨_, _, hmisses⟩
          · rw [eq_nil_of_readKind hmisses] at hts
            exact hclosed [] inner (by simpa [hts] using hused)
          · exact absurd hmisses not_missesMore_ok
      · obtain ⟨expected, h⟩ := h
        cases h

theorem isCompletable_readExpression (bound : Nat) :
    IsCompletable Expression bound (readExpression bound) :=
  isCompletable_readSum (isSound_readFactor bound) (isCompletable_readFactor bound) bound

/-! ## Conditions -/

/-- `"(" inner ")"`. -/
def Parenthesised (inner : List Token → Node → Prop) (ts : List Token) (n : Node) : Prop :=
  ∃ opening us closing, ts = opening :: us ++ [closing] ∧ opening.kind = .lParen ∧ inner us n ∧
    closing.kind = .rParen

theorem begins_parenthesised {inner : List Token → Node → Prop} (h : Begins inner []) :
    Begins (Parenthesised inner) [] := by
  obtain ⟨us, n, hn⟩ := h
  exact ⟨filler .lParen "(" :: us ++ [filler .rParen ")"], n, _, us, _, rfl, rfl, hn, rfl⟩

section Parenthesised

variable {inner : Reader Node} {derived : List Token → Node → Prop}
  (hsound : IsSound derived inner)

include hsound

theorem isSound_readParenthesised :
    IsSound (Parenthesised derived) (readParenthesised inner) := by
  intro ts n rest h
  obtain ⟨opening, used, closing, rfl, hopening, hused, hclosing⟩ := of_readParenthesised hsound h
  exact ⟨opening :: used ++ [closing], by simp,
    opening, used, closing, rfl, hopening, hused, hclosing⟩

theorem isCompletable_readParenthesised (hne : Begins derived []) {bound : Nat}
    (hinner : IsCompletable derived bound inner) :
    IsCompletable (Parenthesised derived) (bound + 1) (readParenthesised inner) := by
  intro ts hlength h
  have hclosed : ∀ opening us vs n, opening.kind = .lParen → derived (us ++ vs) n →
      Begins (Parenthesised derived) (opening :: us) := fun opening us vs n hopening hn =>
    ⟨vs ++ [filler .rParen ")"], n, opening, us ++ vs, filler .rParen ")", by simp, hopening, hn,
      rfl⟩
  rcases h.of_bind with hmisses | ⟨⟨opening, rest⟩, hopening, hmisses⟩
  · obtain rfl := eq_nil_of_readKind hmisses
    exact begins_parenthesised hne
  · obtain ⟨rfl, hkind⟩ := of_readKind hopening
    rw [List.length_cons] at hlength
    rcases hmisses.of_bind with hmisses | ⟨⟨tree, rest'⟩, htree, hmisses⟩
    · obtain ⟨vs, n, hn⟩ := hinner (by omega) hmisses
      exact hclosed opening rest vs n hkind hn
    · obtain ⟨used, hrest, hused⟩ := hsound htree
      rcases hmisses.of_bind with hmisses | ⟨_, _, hmisses⟩
      · rw [eq_nil_of_readKind hmisses, List.append_nil] at hrest
        exact hclosed opening rest [] tree hkind (by rwa [List.append_nil, hrest])
      · exact absurd hmisses not_missesMore_ok

end Parenthesised

theorem Condition.of_negation {sign : Token} {ts : List Token} {n : Node} (hsign : sign.kind = .not)
    (h : Parenthesised Condition ts n) :
    Condition (sign :: ts) ⟨.not, some sign.line, "", "", [n]⟩ := by
  obtain ⟨opening, us, closing, rfl, hopening, hinner, hclosing⟩ := h
  exact .negation hsign hopening hinner hclosing

theorem Condition.of_connection {sign : Token} {kind : NodeKind} {ts us : List Token}
    {left right : Node} (hleft : Parenthesised Condition ts left)
    (hsign : (sign.kind, kind) ∈ connectiveSigns) (hright : Parenthesised Condition us right) :
    Condition (ts ++ sign :: us) (.binary kind sign.line left right) := by
  obtain ⟨opening, ts, closing, rfl, hopening, hinner, hclosing⟩ := hleft
  obtain ⟨opening', us, closing', rfl, hopening', hinner', hclosing'⟩ := hright
  simpa using Condition.connection hopening hinner hclosing hsign hopening' hinner' hclosing'

/-- A comparison that misses more has its sign, so it can be completed. -/
theorem begins_of_readComparison? {bound : Nat} {ts : List Token} (hlength : ts.length ≤ bound)
    (h : MissesMore (readComparison? bound ts)) : Begins Condition ts := by
  unfold readComparison? at h
  split at h
  · next left sign rest hleft =>
    obtain ⟨used, rfl, hused⟩ := isSound_readExpression bound hleft
    rw [List.length_append, List.length_cons] at hlength
    split at h
    · exact absurd h not_missesMore_ok
    · next kind hkind =>
      rcases h.of_bind with hmisses | ⟨_, _, hmisses⟩
      · obtain ⟨us, right, hright⟩ := isCompletable_readExpression bound (by omega) hmisses
        have hcondition := Condition.comparison (.expression hused)
          ((names_comparisonOperator _ _).mp hkind) (.expression hright)
        exact ⟨us, _, by simpa using hcondition⟩
      · exact absurd hmisses not_missesMore_ok
  · exact absurd h not_missesMore_ok

theorem isCompletable_readCondition (bound : Nat) :
    IsCompletable Condition bound (readCondition bound) := by
  induction bound with
  | zero =>
    intro ts hlength _
    obtain rfl := List.length_eq_zero_iff.mp (Nat.le_zero.mp hlength)
    exact begins_condition
  | succ bound ih =>
    intro ts hlength h
    have hsound := isSound_readParenthesised (isSound_readCondition bound)
    have hcompletable :=
      isCompletable_readParenthesised (isSound_readCondition bound) begins_condition ih
    -- what is put for a second condition that has not begun
    obtain ⟨second, n, hsecond⟩ := begins_parenthesised begins_condition
    have hsign : ((filler .andAnd "&&").kind, NodeKind.and) ∈ connectiveSigns := List.mem_cons_self
    cases ts with
    | nil => exact begins_condition
    | cons t ts =>
      rw [readCondition] at h
      rcases h.of_bind with hmisses | ⟨comparison?, -, hmisses⟩
      · exact begins_of_readComparison? hlength hmisses
      cases comparison? with
      | some comparison => exact absurd hmisses not_missesMore_ok
      | none =>
        dsimp only at hmisses
        split at hmisses
        · next hnot =>
          rw [List.length_cons] at hlength
          rcases hmisses.of_bind with hmisses | ⟨_, _, hmisses⟩
          · obtain ⟨us, n, hn⟩ := hcompletable (by omega) hmisses
            exact ⟨us, _, .of_negation hnot hn⟩
          · exact absurd hmisses not_missesMore_ok
        · rcases hmisses.of_bind with hmisses | ⟨⟨left, rest⟩, hleft, hmisses⟩
          · obtain ⟨us, left, hleft⟩ := hcompletable hlength hmisses
            exact ⟨us ++ filler .andAnd "&&" :: second, _,
              by simpa using Condition.of_connection hleft hsign hsecond⟩
          obtain ⟨used, hts, hused⟩ := hsound hleft
          rw [hts] at hlength ⊢
          rw [List.length_append] at hlength
          rcases hmisses.of_bind with hmisses | ⟨⟨⟨kind, line⟩, rest'⟩, hkind, hmisses⟩
          · have hrest : rest = [] := eq_nil_of_readToken (by simp) hmisses
            rw [hrest, List.append_nil]
            exact ⟨filler .andAnd "&&" :: second, _, .of_connection hused hsign hsecond⟩
          obtain ⟨sign, hrest, hsign', -⟩ := of_readConnective hkind
          dsimp only at hrest hmisses
          rw [hrest, List.length_cons] at hlength
          rw [hrest]
          rcases hmisses.of_bind with hmisses | ⟨_, _, hmisses⟩
          · obtain ⟨us, right, hright⟩ := hcompletable (by omega) hmisses
            exact ⟨us, _, by simpa using Condition.of_connection hused hsign' hright⟩
          · exact absurd hmisses not_missesMore_ok

theorem isCompletable_readParenthesised_readCondition (bound : Nat) :
    IsCompletable (Parenthesised Condition) (bound + 1) (readParenthesised (readCondition bound)) :=
  isCompletable_readParenthesised (isSound_readCondition bound) begins_condition
    (isCompletable_readCondition bound)

/-! ## Statements -/

theorem begins_of_readNamed {kind : NodeKind} {word : Token} {text : String}
    (hmem : (text, kind) ∈ namedStatements) (hword : word.isWord text = true) {ts : List Token}
    (h : MissesMore (readNamed kind word ts)) : Begins Statement (word :: ts) := by
  rcases h.of_bind with hmisses | ⟨⟨name, rest⟩, hname, hmisses⟩
  · obtain rfl := eq_nil_of_readKind hmisses
    exact ⟨[filler .name "x", filler .semicolon ";"], _, .named hmem hword rfl rfl⟩
  obtain ⟨rfl, hkind⟩ := of_readKind hname
  rcases hmisses.of_bind with hmisses | ⟨_, _, hmisses⟩
  · have hrest : rest = [] := eq_nil_of_readKind hmisses
    rw [hrest]
    exact ⟨[filler .semicolon ";"], _, .named hmem hword hkind rfl⟩
  · exact absurd hmisses not_missesMore_ok

theorem isCompletable_readAssignment (bound : Nat) :
    IsCompletable Statement (bound + 2) (readAssignment bound) := by
  intro ts hlength h
  -- the parts that have not begun are a sign, an expression and a semicolon
  have hfilled : ∀ target sign us vs n, target.kind = .name → sign.kind = .singleEq →
      Expression (us ++ vs) n → Begins Statement (target :: sign :: us) :=
    fun target sign us vs n htarget hsign hn => ⟨vs ++ [filler .semicolon ";"], _,
      by simpa using Statement.assign htarget hsign hn (rfl : (filler .semicolon ";").kind = _)⟩
  rcases h.of_bind with hmisses | ⟨⟨target, ts₁⟩, htarget, h₁⟩
  · obtain rfl := eq_nil_of_readKind hmisses
    exact begins_statement
  obtain ⟨rfl, hname⟩ := of_readKind htarget
  rw [List.length_cons] at hlength
  rcases h₁.of_bind with hmisses | ⟨⟨sign, ts₂⟩, hsign, h₂⟩
  · obtain rfl := eq_nil_of_readKind hmisses
    obtain ⟨vs, n, hn⟩ := begins_expression
    obtain ⟨us, n, hn⟩ := hfilled target (filler .singleEq "=") [] vs n hname rfl hn
    exact ⟨filler .singleEq "=" :: us, n, hn⟩
  obtain ⟨rfl, heq⟩ := of_readKind hsign
  rw [List.length_cons] at hlength
  rcases h₂.of_bind with hmisses | ⟨⟨value, ts₃⟩, hvalue, h₃⟩
  · obtain ⟨vs, n, hn⟩ := isCompletable_readExpression bound (by omega) hmisses
    exact hfilled target sign ts₂ vs n hname heq hn
  obtain ⟨used, hts₂, hused⟩ := isSound_readExpression bound hvalue
  rcases h₃.of_bind with hmisses | ⟨_, _, hmisses⟩
  · rw [eq_nil_of_readKind hmisses, List.append_nil] at hts₂
    exact hfilled target sign ts₂ [] value hname heq (by rwa [List.append_nil, hts₂])
  · exact absurd hmisses not_missesMore_ok

theorem Repeated.single {α : Type} {item : List Token → α → Prop} {ts : List Token} {a : α}
    (h : item ts a) : Repeated item ts [a] := by
  simpa using Repeated.cons h .nil

theorem begins_block : Begins (Block Statement) [] := by
  obtain ⟨us, n, hn⟩ := begins_statement
  have hopening : (filler .lBrace "\x7b").kind = .lBrace := rfl
  have hclosing : (filler .rBrace "\x7d").kind = .rBrace := rfl
  exact ⟨_, _, .intro hopening (List.cons_ne_nil n []) (.single hn) hclosing⟩

theorem Statement.of_whileLoop {word : Token} {ts us : List Token} {condition body : Node}
    (hword : word.isWord "while" = true) (hcondition : Parenthesised Condition ts condition)
    (hbody : Block Statement us body) :
    Statement (word :: ts ++ us) ⟨.whileLoop, some word.line, "", "", [condition, body]⟩ := by
  obtain ⟨opening, ts, closing, rfl, hopening, hinner, hclosing⟩ := hcondition
  simpa using Statement.whileLoop hword hopening hinner hclosing hbody

theorem Statement.of_ifElse {word word' word'' : Token} {ts us vs : List Token}
    {condition accepted refused : Node} (hword : word.isWord "if" = true)
    (hcondition : Parenthesised Condition ts condition) (hthen : word'.isWord "then" = true)
    (haccepted : Block Statement us accepted) (helse : word''.isWord "else" = true)
    (hrefused : Block Statement vs refused) :
    Statement (word :: ts ++ word' :: us ++ word'' :: vs)
      ⟨.ifElse, some word.line, "", "", [condition, accepted, refused]⟩ := by
  obtain ⟨opening, ts, closing, rfl, hopening, hinner, hclosing⟩ := hcondition
  simpa using
    Statement.ifElse hword hopening hinner hclosing hthen haccepted helse hrefused

section Blocks

variable {statement : Reader Node} (hsound : IsSound Statement statement) {m : Nat}
  (hstatement : IsCompletable Statement m statement)

include hsound hstatement

/-- Statements that end before a closing brace are the first of some statements. -/
theorem begins_of_readStatements {bound : Nat} {ts : List Token} (hm : ts.length ≤ m)
    (hbound : ts.length ≤ bound) (h : MissesMore (readStatements statement bound ts)) :
    ∃ us body, body ≠ [] ∧ Repeated Statement (ts ++ us) body := by
  induction bound generalizing ts with
  | zero =>
    obtain rfl := List.length_eq_zero_iff.mp (Nat.le_zero.mp hbound)
    obtain ⟨us, n, hn⟩ := begins_statement
    exact ⟨us, [n], List.cons_ne_nil n [], .single hn⟩
  | succ bound ih =>
    rw [readStatements] at h
    rcases h.of_bind with hmisses | ⟨⟨first, ts₁⟩, hfirst, hmisses⟩
    · obtain ⟨us, n, hn⟩ := hstatement hm hmisses
      exact ⟨us, [n], List.cons_ne_nil n [], .single hn⟩
    obtain ⟨used, hts, hused⟩ := hsound hfirst
    cases ts₁ with
    | nil => exact ⟨[], [first], List.cons_ne_nil first [], .single (by simpa [hts] using hused)⟩
    | cons t ts₁ =>
      obtain ⟨u, us, rfl, -⟩ := hused.exists_name
      simp only [hts, List.cons_append, List.length_cons, List.length_append] at hm hbound
      dsimp only at hmisses
      split at hmisses
      · exact absurd hmisses not_missesMore_ok
      · rcases hmisses.of_bind with hmisses | ⟨_, _, hmisses⟩
        · obtain ⟨vs, body, -, hbody⟩ :=
            ih (by rw [List.length_cons]; omega) (by rw [List.length_cons]; omega) hmisses
          refine ⟨vs, first :: body, List.cons_ne_nil first body, ?_⟩
          rw [hts, List.append_assoc]
          exact .cons hused hbody
        · exact absurd hmisses not_missesMore_ok

theorem isCompletable_readBlock :
    IsCompletable (Block Statement) (m + 1) (readBlock statement m) := by
  intro ts hlength h
  rcases h.of_bind with hmisses | ⟨⟨opening, rest⟩, hopening, hmisses⟩
  · obtain rfl := eq_nil_of_readKind hmisses
    exact begins_block
  obtain ⟨rfl, hkind⟩ := of_readKind hopening
  rw [List.length_cons] at hlength
  rcases hmisses.of_bind with hmisses | ⟨_, _, hmisses⟩
  · obtain ⟨us, body, hne, hbody⟩ :=
      begins_of_readStatements hsound hstatement (by omega) (by omega) hmisses
    have hclosing : (filler .rBrace "\x7d").kind = .rBrace := rfl
    exact ⟨us ++ [filler .rBrace "\x7d"], _, by simpa using Block.intro hkind hne hbody hclosing⟩
  · exact absurd hmisses not_missesMore_ok

theorem begins_of_readWhile {word : Token} (hword : word.isWord "while" = true) {ts : List Token}
    (hm : ts.length ≤ m) (h : MissesMore (readWhile statement m word ts)) :
    Begins Statement (word :: ts) := by
  obtain ⟨block, body, hbody⟩ := begins_block
  rcases h.of_bind with hmisses | ⟨⟨condition, ts₁⟩, hcondition, h₁⟩
  · obtain ⟨us, n, hn⟩ :=
      isCompletable_readParenthesised_readCondition m (Nat.le_succ_of_le hm) hmisses
    exact ⟨us ++ block, _, by simpa using Statement.of_whileLoop hword hn hbody⟩
  obtain ⟨used, rfl, hused⟩ := isSound_readParenthesised (isSound_readCondition m) hcondition
  rw [List.length_append] at hm
  rcases h₁.of_bind with hmisses | ⟨_, _, hmisses⟩
  · obtain ⟨us, n, hn⟩ := isCompletable_readBlock hsound hstatement (by omega) hmisses
    exact ⟨us, _, by simpa using Statement.of_whileLoop hword hused hn⟩
  · exact absurd hmisses not_missesMore_ok

theorem begins_of_readIf {word : Token} (hword : word.isWord "if" = true) {ts : List Token}
    (hm : ts.length ≤ m) (h : MissesMore (readIf statement m word ts)) :
    Begins Statement (word :: ts) := by
  obtain ⟨block, body, hbody⟩ := begins_block
  have hthen : (filler .name "then").isWord "then" = true := by decide
  have helse : (filler .name "else").isWord "else" = true := by decide
  rcases h.of_bind with hmisses | ⟨⟨condition, ts₁⟩, hcondition, h₁⟩
  · obtain ⟨us, n, hn⟩ :=
      isCompletable_readParenthesised_readCondition m (Nat.le_succ_of_le hm) hmisses
    exact ⟨us ++ filler .name "then" :: block ++ filler .name "else" :: block, _,
      by simpa using Statement.of_ifElse hword hn hthen hbody helse hbody⟩
  obtain ⟨used, rfl, hused⟩ := isSound_readParenthesised (isSound_readCondition m) hcondition
  rw [List.length_append] at hm
  rcases h₁.of_bind with hmisses | ⟨⟨word', ts₂⟩, hword', h₂⟩
  · obtain rfl := eq_nil_of_readKeyword hmisses
    exact ⟨filler .name "then" :: block ++ filler .name "else" :: block, _,
      by simpa using Statement.of_ifElse hword hused hthen hbody helse hbody⟩
  obtain ⟨rfl, hthen⟩ := of_readKeyword hword'
  rw [List.length_cons] at hm
  rcases h₂.of_bind with hmisses | ⟨⟨accepted, ts₃⟩, haccepted, h₃⟩
  · obtain ⟨us, n, hn⟩ := isCompletable_readBlock hsound hstatement (by omega) hmisses
    exact ⟨us ++ filler .name "else" :: block, _,
      by simpa using Statement.of_ifElse hword hused hthen hn helse hbody⟩
  obtain ⟨used', rfl, hused'⟩ := isSound_readBlock hsound m haccepted
  rw [List.length_append] at hm
  rcases h₃.of_bind with hmisses | ⟨⟨word'', ts₄⟩, hword'', h₄⟩
  · obtain rfl := eq_nil_of_readKeyword hmisses
    exact ⟨filler .name "else" :: block, _,
      by simpa using Statement.of_ifElse hword hused hthen hused' helse hbody⟩
  obtain ⟨rfl, helse⟩ := of_readKeyword hword''
  rw [List.length_cons] at hm
  rcases h₄.of_bind with hmisses | ⟨_, _, hmisses⟩
  · obtain ⟨us, n, hn⟩ := isCompletable_readBlock hsound hstatement (by omega) hmisses
    exact ⟨us, _, by simpa using Statement.of_ifElse hword hused hthen hused' helse hn⟩
  · exact absurd hmisses not_missesMore_ok

end Blocks

theorem isCompletable_readStatement (bound : Nat) :
    IsCompletable Statement bound (readStatement bound) := by
  induction bound with
  | zero =>
    intro ts hlength _
    obtain rfl := List.length_eq_zero_iff.mp (Nat.le_zero.mp hlength)
    exact begins_statement
  | succ bound ih =>
    intro ts hlength h
    rw [readStatement] at h
    split at h
    · exact isCompletable_readAssignment bound (by omega) h
    · rcases h.of_bind with hmisses | ⟨⟨word, ts₁⟩, hword, h₁⟩
      · obtain rfl := eq_nil_of_readKind hmisses
        exact begins_statement
      obtain ⟨rfl, hkind⟩ := of_readKind hword
      have hm : ts₁.length ≤ bound := Nat.le_of_succ_le_succ hlength
      have hisWord : ∀ {text}, word.text = text → word.isWord text = true :=
        fun htext => isWord_iff.mpr ⟨hkind, htext⟩
      have hsound := isSound_readStatement bound
      dsimp only at h₁
      split at h₁
      · next htext => exact begins_of_readNamed (by simp [namedStatements]) (hisWord htext) h₁
      · next htext => exact begins_of_readNamed (by simp [namedStatements]) (hisWord htext) h₁
      · next htext => exact begins_of_readNamed (by simp [namedStatements]) (hisWord htext) h₁
      · next htext => exact begins_of_readWhile hsound ih (hisWord htext) hm h₁
      · next htext => exact begins_of_readIf hsound ih (hisWord htext) hm h₁
      · obtain ⟨expected, h₁⟩ := h₁
        cases h₁

/-! ## Programs -/

theorem begins_procedure : Begins Procedure [] := by
  obtain ⟨block, body, hbody⟩ := begins_block
  exact ⟨filler .name "procedure" :: filler .name "p" :: block, _, .intro (by decide) rfl hbody⟩

theorem isCompletable_readProcedure (bound : Nat) :
    IsCompletable Procedure (bound + 3) (readProcedure bound) := by
  intro ts hlength h
  obtain ⟨block, body, hbody⟩ := begins_block
  rcases h.of_bind with hmisses | ⟨⟨word, ts₁⟩, hword, h₁⟩
  · obtain rfl := eq_nil_of_readKeyword hmisses
    exact begins_procedure
  obtain ⟨rfl, hword'⟩ := of_readKeyword hword
  rcases h₁.of_bind with hmisses | ⟨⟨name, ts₂⟩, hname, h₂⟩
  · obtain rfl := eq_nil_of_readKind hmisses
    exact ⟨filler .name "p" :: block, _, .intro hword' rfl hbody⟩
  obtain ⟨rfl, hname'⟩ := of_readKind hname
  simp only [List.length_cons] at hlength
  rcases h₂.of_bind with hmisses | ⟨_, _, hmisses⟩
  · obtain ⟨us, n, hn⟩ := isCompletable_readBlock (isSound_readStatement bound)
      (isCompletable_readStatement bound) (by omega) hmisses
    exact ⟨us, _, .intro hword' hname' hn⟩
  · exact absurd hmisses not_missesMore_ok

/-- Procedures that end too early are the first of some procedures. -/
theorem begins_of_readProcedures {bound : Nat} {ts : List Token} (hbound : ts.length ≤ bound)
    (h : MissesMore (readProcedures bound ts)) :
    ∃ us procedures, procedures ≠ [] ∧ Repeated Procedure (ts ++ us) procedures := by
  induction bound generalizing ts with
  | zero =>
    obtain rfl := List.length_eq_zero_iff.mp (Nat.le_zero.mp hbound)
    obtain ⟨us, n, hn⟩ := begins_procedure
    exact ⟨us, [n], List.cons_ne_nil n [], .single hn⟩
  | succ bound ih =>
    rw [readProcedures] at h
    rcases h.of_bind with hmisses | ⟨⟨first, ts₁⟩, hfirst, h₁⟩
    · obtain ⟨us, n, hn⟩ := isCompletable_readProcedure (bound + 1) (by omega) hmisses
      exact ⟨us, [n], List.cons_ne_nil n [], .single hn⟩
    obtain ⟨used, rfl, hused⟩ := isSound_readProcedure (bound + 1) hfirst
    cases ts₁ with
    | nil => exact absurd h₁ not_missesMore_ok
    | cons t ts₁ =>
      rcases h₁.of_bind with hmisses | ⟨_, _, hmisses⟩
      · have hlength : (t :: ts₁).length ≤ bound := by
          cases hused
          simp only [List.length_append, List.length_cons] at hbound ⊢
          omega
        obtain ⟨us, procedures, -, hprocedures⟩ := ih hlength hmisses
        refine ⟨us, first :: procedures, List.cons_ne_nil first procedures, ?_⟩
        rw [List.append_assoc]
        exact .cons hused hprocedures
      · exact absurd hmisses not_missesMore_ok

end Grammar

/-- Tokens on which reading comes to the end and needs more begin a program, which has further
tokens. -/
theorem exists_completion_of_atEnd {ts : List Token} {expected : Expected}
    (h : parseProgram ts = .error (.atEnd expected)) :
    ∃ us ≠ [], ∃ tree, parseProgram (ts ++ us) = .ok tree := by
  rcases Grammar.MissesMore.of_bind ⟨expected, h⟩ with hmisses | ⟨_, _, hmisses⟩
  · obtain ⟨us, procedures, hne, hderived⟩ :=
      Grammar.begins_of_readProcedures (Nat.le_refl _) hmisses
    have hread : parseProgram (ts ++ us) = .ok ⟨.program, none, "", "", procedures⟩ := by
      rw [parseProgram, Grammar.readProcedures_eq hderived hne (Nat.le_refl _)]
      rfl
    refine ⟨us, ?_, _, hread⟩
    rintro rfl
    rw [List.append_nil, h] at hread
    cases hread
  · exact absurd hmisses Grammar.not_missesMore_ok

/-- The tokens of a text, if it has any. -/
def tokensOf (text : String) : List Token :=
  (tokenize text).toOption.getD []

/-- A loop whose second comparison has its sign and an operand that is not finished. The first
parenthesis cannot be that of an expression, which is found only after the attempt to read one. -/
theorem exists_completion_of_atEnd_comparison :
    let ts := tokensOf "procedure p \x7b while ((x > y) && (z < (x +"
    parseProgram ts = .error (.atEnd .factor) ∧
      ∃ us ≠ [], ∃ tree, parseProgram (ts ++ us) = .ok tree := by
  intro ts
  have h : parseProgram ts = .error (.atEnd .factor) := rfl
  exact ⟨h, exists_completion_of_atEnd h⟩

/-- Not all tokens that begin a program are said to end too early. Here the operand is not finished
either, but no sign has come yet, so a condition in parentheses is looked for. -/
example : parseProgram (tokensOf "procedure p \x7b while ((x +") =
    .error (.wrongKind (.token .lParen) ⟨.name, "x", 1, 23⟩) :=
  rfl

end ProgramQuery
