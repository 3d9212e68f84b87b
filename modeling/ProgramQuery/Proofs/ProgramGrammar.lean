import ProgramQuery.Data.Except
import ProgramQuery.Tree.Program

/-!
# Programs are read by their grammar

The grammar of programs as a relation between lists of tokens and trees, and the proof that reading
finds exactly the trees of this relation. Words such as `while` are recognised by their place alone,
so the grammar lets every name be that of a variable or a procedure.

Only conditions need more than one token of foresight, since a parenthesis opens an operand as well
as a condition. A comparison is tried first, and past its sign there is no way back. Nothing is lost
by that: what starts like a comparison, up to the sign, is no other condition.

## Main definitions

- `Grammar.Expression`, `Grammar.Condition`, `Grammar.Statement`, `Grammar.Program`: the grammar,
  with the tree that belongs to each derivation.
- `Grammar.IsSound`, `Grammar.IsComplete`: what is read is derived, and the other way round.

## Main statements

- `Grammar.Factor.induction`, `Grammar.Statement.induction`: induction on derivations whose parts
  are chains and blocks.
- `Grammar.leavesOpen_of_condition`: no condition can be taken for an operand in parentheses.
- `parseProgram_eq_ok_iff`: reading accepts the programs of the grammar, each with its one tree.
-/

namespace ProgramQuery

/-- A list of statements between braces. -/
def Node.block (line : Nat) (statements : List Node) : Node :=
  ⟨.statementList, some line, "", "", statements⟩

namespace Grammar

/-! ## Expressions -/

/-- The signs between terms, and the operations they stand for. -/
def additiveSigns : List (TokenKind × NodeKind) :=
  [(.plus, .plus), (.minus, .minus)]

/-- The signs between factors, and the operations they stand for. -/
def multiplicativeSigns : List (TokenKind × NodeKind) :=
  [(.times, .multiply), (.div, .divide), (.mod, .modulo)]

/-- `operand { sign operand }`, grouped to the left. -/
inductive Chain (signs : List (TokenKind × NodeKind)) (operand : List Token → Node → Prop) :
    List Token → Node → Prop where
  | single {ts : List Token} {n : Node} (hoperand : operand ts n) : Chain signs operand ts n
  | operation {ts us : List Token} {sign : Token} {kind : NodeKind} {left right : Node}
      (hleft : Chain signs operand ts left) (hsign : (sign.kind, kind) ∈ signs)
      (hright : operand us right) :
      Chain signs operand (ts ++ sign :: us) (.binary kind sign.line left right)

/-- `factor = name | integer | "(" expression ")"`. -/
inductive Factor : List Token → Node → Prop where
  | name {t : Token} (ht : t.kind = .name) : Factor [t] (.ofName t)
  | integer {t : Token} (ht : t.kind = .integer) : Factor [t] (.ofInteger t)
  | parenthesised {opening closing : Token} {ts : List Token} {n : Node}
      (hopening : opening.kind = .lParen)
      (hinner : Chain additiveSigns (Chain multiplicativeSigns Factor) ts n)
      (hclosing : closing.kind = .rParen) : Factor (opening :: ts ++ [closing]) n

/-- `term = factor { ( "*" | "/" | "%" ) factor }`. -/
abbrev Term : List Token → Node → Prop :=
  Chain multiplicativeSigns Factor

/-- `expression = term { ( "+" | "-" ) term }`. -/
abbrev Expression : List Token → Node → Prop :=
  Chain additiveSigns Term

/-! ## Conditions -/

/-- The signs of comparisons, and the comparisons they stand for. -/
def comparisonSigns : List (TokenKind × NodeKind) :=
  [(.gt, .greater), (.gtEq, .greaterEq), (.lt, .less), (.ltEq, .lessEq), (.eqEq, .equal),
    (.notEq, .notEqual)]

/-- The signs between conditions, and the connectives they stand for. -/
def connectiveSigns : List (TokenKind × NodeKind) :=
  [(.andAnd, .and), (.orOr, .or)]

/-- `side = name | integer | expression`, on either side of a comparison. -/
inductive Side : List Token → Node → Prop where
  | name {t : Token} (ht : t.kind = .name) : Side [t] (.ofName t)
  | integer {t : Token} (ht : t.kind = .integer) : Side [t] (.ofInteger t)
  | expression {ts : List Token} {n : Node} (hexpression : Expression ts n) : Side ts n

/-- `condition = side sign side | "!" "(" condition ")"`
`| "(" condition ")" ( "&&" | "||" ) "(" condition ")"`. -/
inductive Condition : List Token → Node → Prop where
  | comparison {ts us : List Token} {sign : Token} {kind : NodeKind} {left right : Node}
      (hleft : Side ts left) (hsign : (sign.kind, kind) ∈ comparisonSigns)
      (hright : Side us right) :
      Condition (ts ++ sign :: us) (.binary kind sign.line left right)
  | negation {sign opening closing : Token} {ts : List Token} {inner : Node}
      (hsign : sign.kind = .not) (hopening : opening.kind = .lParen)
      (hinner : Condition ts inner) (hclosing : closing.kind = .rParen) :
      Condition (sign :: opening :: ts ++ [closing]) ⟨.not, some sign.line, "", "", [inner]⟩
  | connection {opening closing sign opening' closing' : Token} {ts us : List Token}
      {kind : NodeKind} {left right : Node}
      (hopening : opening.kind = .lParen) (hleft : Condition ts left)
      (hclosing : closing.kind = .rParen) (hsign : (sign.kind, kind) ∈ connectiveSigns)
      (hopening' : opening'.kind = .lParen) (hright : Condition us right)
      (hclosing' : closing'.kind = .rParen) :
      Condition (opening :: ts ++ closing :: sign :: opening' :: us ++ [closing'])
        (.binary kind sign.line left right)

/-! ## Statements and programs -/

/-- `{ item }`: any number of items. -/
inductive Repeated {α : Type} (item : List Token → α → Prop) : List Token → List α → Prop where
  | nil : Repeated item [] []
  | cons {ts us : List Token} {a : α} {as : List α} (hitem : item ts a)
      (hrest : Repeated item us as) : Repeated item (ts ++ us) (a :: as)

/-- `block = "{" statement { statement } "}"`. -/
inductive Block (statement : List Token → Node → Prop) : List Token → Node → Prop where
  | intro {opening closing : Token} {ts : List Token} {body : List Node}
      (hopening : opening.kind = .lBrace) (hne : body ≠ []) (hbody : Repeated statement ts body)
      (hclosing : closing.kind = .rBrace) :
      Block statement (opening :: ts ++ [closing]) (.block opening.line body)

/-- The words of the statements about a single name, and what they stand for. -/
def namedStatements : List (String × NodeKind) :=
  [("read", .read), ("print", .print), ("call", .call)]

/-- `statement = ( "read" | "print" | "call" ) name ";" | "while" "(" condition ")" block`
`| "if" "(" condition ")" "then" block "else" block | name "=" expression ";"`. -/
inductive Statement : List Token → Node → Prop where
  | named {word name semicolon : Token} {text : String} {kind : NodeKind}
      (hmem : (text, kind) ∈ namedStatements) (hword : word.isWord text = true)
      (hname : name.kind = .name) (hsemicolon : semicolon.kind = .semicolon) :
      Statement [word, name, semicolon] ⟨kind, some word.line, "", "", [.ofName name]⟩
  | whileLoop {word opening closing : Token} {ts us : List Token} {condition body : Node}
      (hword : word.isWord "while" = true) (hopening : opening.kind = .lParen)
      (hcondition : Condition ts condition) (hclosing : closing.kind = .rParen)
      (hbody : Block Statement us body) :
      Statement (word :: opening :: ts ++ closing :: us)
        ⟨.whileLoop, some word.line, "", "", [condition, body]⟩
  | ifElse {word opening closing word' word'' : Token} {ts us vs : List Token}
      {condition accepted refused : Node}
      (hword : word.isWord "if" = true) (hopening : opening.kind = .lParen)
      (hcondition : Condition ts condition) (hclosing : closing.kind = .rParen)
      (hthen : word'.isWord "then" = true) (haccepted : Block Statement us accepted)
      (helse : word''.isWord "else" = true) (hrefused : Block Statement vs refused) :
      Statement (word :: opening :: ts ++ closing :: word' :: us ++ word'' :: vs)
        ⟨.ifElse, some word.line, "", "", [condition, accepted, refused]⟩
  | assign {target sign semicolon : Token} {ts : List Token} {value : Node}
      (htarget : target.kind = .name) (hsign : sign.kind = .singleEq)
      (hvalue : Expression ts value) (hsemicolon : semicolon.kind = .semicolon) :
      Statement (target :: sign :: ts ++ [semicolon])
        ⟨.assign, some sign.line, target.text, "", [.ofName target, value]⟩

/-- `procedure = "procedure" name block`. -/
inductive Procedure : List Token → Node → Prop where
  | intro {word name : Token} {ts : List Token} {body : Node}
      (hword : word.isWord "procedure" = true) (hname : name.kind = .name)
      (hbody : Block Statement ts body) :
      Procedure (word :: name :: ts) ⟨.procedure, some word.line, name.text, "", [body]⟩

/-- `program = procedure { procedure }`. -/
inductive Program : List Token → Node → Prop where
  | intro {ts : List Token} {procedures : List Node} (hne : procedures ≠ [])
      (hprocedures : Repeated Procedure ts procedures) :
      Program ts ⟨.program, none, "", "", procedures⟩

/-! ## Induction on derivations -/

/-- The expression in parentheses is a chain of chains of factors, for which the property holds. -/
theorem Factor.induction {motive : List Token → Node → Prop}
    (name : ∀ {t : Token}, t.kind = .name → motive [t] (.ofName t))
    (integer : ∀ {t : Token}, t.kind = .integer → motive [t] (.ofInteger t))
    (parenthesised : ∀ {opening closing : Token} {ts : List Token} {n : Node},
      opening.kind = .lParen → Chain additiveSigns (Chain multiplicativeSigns motive) ts n →
      closing.kind = .rParen → motive (opening :: ts ++ [closing]) n)
    {ts : List Token} {n : Node} (h : Factor ts n) : motive ts n :=
  @Factor.rec (fun ts n _ => motive ts n)
    (fun ts n _ => Chain additiveSigns (Chain multiplicativeSigns motive) ts n)
    (fun ts n _ => Chain multiplicativeSigns motive ts n)
    name integer (fun hopening _ hclosing ih => parenthesised hopening ih hclosing)
    (fun _ ih => .single ih) (fun _ hsign _ ihl ihr => .operation ihl hsign ihr)
    (fun _ ih => .single ih) (fun _ hsign _ ihl ihr => .operation ihl hsign ihr) ts n h

/-- The blocks in a statement are made of statements for which the property holds. -/
theorem Statement.induction {motive : List Token → Node → Prop}
    (named : ∀ {word name semicolon : Token} {text : String} {kind : NodeKind},
      (text, kind) ∈ namedStatements → word.isWord text = true → name.kind = .name →
      semicolon.kind = .semicolon →
      motive [word, name, semicolon] ⟨kind, some word.line, "", "", [.ofName name]⟩)
    (whileLoop : ∀ {word opening closing : Token} {ts us : List Token} {condition body : Node},
      word.isWord "while" = true → opening.kind = .lParen → Condition ts condition →
      closing.kind = .rParen → Block motive us body →
      motive (word :: opening :: ts ++ closing :: us)
        ⟨.whileLoop, some word.line, "", "", [condition, body]⟩)
    (ifElse : ∀ {word opening closing word' word'' : Token} {ts us vs : List Token}
      {condition accepted refused : Node},
      word.isWord "if" = true → opening.kind = .lParen → Condition ts condition →
      closing.kind = .rParen → word'.isWord "then" = true → Block motive us accepted →
      word''.isWord "else" = true → Block motive vs refused →
      motive (word :: opening :: ts ++ closing :: word' :: us ++ word'' :: vs)
        ⟨.ifElse, some word.line, "", "", [condition, accepted, refused]⟩)
    (assign : ∀ {target sign semicolon : Token} {ts : List Token} {value : Node},
      target.kind = .name → sign.kind = .singleEq → Expression ts value →
      semicolon.kind = .semicolon →
      motive (target :: sign :: ts ++ [semicolon])
        ⟨.assign, some sign.line, target.text, "", [.ofName target, value]⟩)
    {ts : List Token} {n : Node} (h : Statement ts n) : motive ts n :=
  @Statement.rec (fun ts n _ => motive ts n) (fun ts n _ => Block motive ts n)
    (fun ts ns _ => Repeated motive ts ns) named
    (fun hword hopening hcondition hclosing _ ih =>
      whileLoop hword hopening hcondition hclosing ih)
    (fun hword hopening hcondition hclosing hthen _ helse _ ih ih' =>
      ifElse hword hopening hcondition hclosing hthen ih helse ih')
    assign (fun hopening hne _ hclosing ih => .intro hopening hne ih hclosing)
    .nil (fun _ _ ih ih' => .cons ih ih') ts n h

/-- All items have what each has that is derived from some of the tokens. -/
theorem forall_of_repeated {α : Type} {item : List Token → α → Prop} {ts : List Token} {as : List α}
    (h : Repeated item ts as) {P : α → Prop} (hitem : ∀ us a, us ⊆ ts → item us a → P a) :
    ∀ a ∈ as, P a := by
  induction h with
  | nil => exact List.forall_mem_nil _
  | cons ha _ ih =>
    refine List.forall_mem_cons.mpr ⟨hitem _ _ (List.subset_append_left _ _) ha, ih ?_⟩
    exact fun us a hus => hitem us a (List.subset_append_of_subset_right _ hus)

/-! ## Readers and derivations -/

section Readers

variable {ε α : Type}

/-- All that is read is derived from the tokens that are taken. -/
def IsSound (derived : List Token → α → Prop)
    (reader : List Token → Except ε (α × List Token)) : Prop :=
  ∀ ⦃ts : List Token⦄ ⦃a : α⦄ ⦃rest : List Token⦄, reader ts = .ok (a, rest) →
    ∃ used, ts = used ++ rest ∧ derived used a

/-- All that is derived from up to `bound` tokens is read from them, if what comes after them does
not carry it on. -/
def IsComplete (derived : List Token → α → Prop) (stops : List Token → Prop) (bound : Nat)
    (reader : List Token → Except ε (α × List Token)) : Prop :=
  ∀ ⦃ts : List Token⦄ ⦃a : α⦄, derived ts a → ts.length ≤ bound → ∀ ⦃rest : List Token⦄,
    stops rest → reader (ts ++ rest) = .ok (a, rest)

/-- Anything may come after what shows its own end. -/
def anything (_ : List Token) : Prop :=
  True

/-- The first of the tokens is not one of the signs. -/
def Stops (signs : List (TokenKind × NodeKind)) (ts : List Token) : Prop :=
  ∀ t ∈ ts.head?, ∀ kind, (t.kind, kind) ∉ signs

end Readers

section SingleTokens

variable {α : Type} {read? : Token → Option α} {expected : Expected}
  {wrong : Expected → Token → SyntaxError} {t : Token} {ts rest : List Token} {a : α}

theorem readToken_cons (h : read? t = some a) :
    readToken read? expected wrong (t :: ts) = .ok (a, ts) := by
  rw [readToken, h]

theorem exists_of_readToken (h : readToken read? expected wrong ts = .ok (a, rest)) :
    ∃ t, ts = t :: rest ∧ read? t = some a := by
  cases ts with
  | nil => cases h
  | cons t ts =>
    rw [readToken] at h
    split at h
    · next hread =>
      obtain ⟨rfl, rfl⟩ := Prod.mk.inj (Except.ok.inj h)
      exact ⟨t, rfl, hread⟩
    · cases h

end SingleTokens

theorem readKind_of_kind {kind : TokenKind} {t : Token} (h : t.kind = kind) (ts : List Token) :
    readKind kind (t :: ts) = .ok (t, ts) :=
  readToken_cons (if_pos h)

theorem readKeyword_of_isWord {word : String} {t : Token} (h : t.isWord word = true)
    (ts : List Token) : readKeyword word (t :: ts) = .ok (t, ts) :=
  readToken_cons (if_pos h)

theorem of_readKind {kind : TokenKind} {ts rest : List Token} {t : Token}
    (h : readKind kind ts = .ok (t, rest)) : ts = t :: rest ∧ t.kind = kind := by
  obtain ⟨u, rfl, hread⟩ := exists_of_readToken h
  obtain ⟨hkind, hu⟩ := Option.ite_none_right_eq_some.mp hread
  obtain rfl := Option.some.inj hu
  exact ⟨rfl, hkind⟩

theorem of_readKeyword {word : String} {ts rest : List Token} {t : Token}
    (h : readKeyword word ts = .ok (t, rest)) : ts = t :: rest ∧ t.isWord word = true := by
  obtain ⟨u, rfl, hread⟩ := exists_of_readToken h
  obtain ⟨hword, hu⟩ := Option.ite_none_right_eq_some.mp hread
  obtain rfl := Option.some.inj hu
  exact ⟨rfl, hword⟩

/-! ## Reading expressions -/

/-- The operator finds what the signs stand for. -/
def Names (operator : TokenKind → Option NodeKind) (signs : List (TokenKind × NodeKind)) : Prop :=
  ∀ token kind, operator token = some kind ↔ (token, kind) ∈ signs

theorem names_sumOperator : Names sumOperator additiveSigns := by
  intro token kind
  cases token <;> simp [sumOperator, additiveSigns, eq_comm]

theorem names_productOperator : Names productOperator multiplicativeSigns := by
  intro token kind
  cases token <;> simp [productOperator, multiplicativeSigns, eq_comm]

theorem names_comparisonOperator : Names comparisonOperator comparisonSigns := by
  intro token kind
  cases token <;> simp [comparisonOperator, comparisonSigns, eq_comm]

theorem names_connectiveOperator : Names connectiveOperator connectiveSigns := by
  intro token kind
  cases token <;> simp [connectiveOperator, connectiveSigns, eq_comm]

section Chain

variable {operator : TokenKind → Option NodeKind} {signs : List (TokenKind × NodeKind)}
  (hoperator : Names operator signs) {operand : Reader Node} {derived : List Token → Node → Prop}

include hoperator

/-- Further operands carry a chain on. -/
theorem chain_of_readOperations (hoperand : IsSound derived operand) {bound : Nat} {left n : Node}
    {done ts rest : List Token} (hleft : Chain signs derived done left)
    (h : readOperations operator operand bound left ts = .ok (n, rest)) :
    ∃ used, ts = used ++ rest ∧ Chain signs derived (done ++ used) n := by
  have hstop : ∀ {left ts done}, Chain signs derived done left →
      (.ok (left, ts) : Except SyntaxError _) = .ok (n, rest) →
        ∃ used, ts = used ++ rest ∧ Chain signs derived (done ++ used) n := by
    intro left ts done hleft h
    obtain ⟨rfl, rfl⟩ := Prod.mk.inj (Except.ok.inj h)
    exact ⟨[], rfl, by rwa [List.append_nil]⟩
  induction bound generalizing left done ts with
  | zero => exact hstop hleft h
  | succ bound ih =>
    cases ts with
    | nil => exact hstop hleft h
    | cons t ts =>
      rw [readOperations] at h
      split at h
      · exact hstop hleft h
      · next kind hkind =>
        obtain ⟨⟨right, ts'⟩, hright, h⟩ := exists_of_bind_eq_ok h
        obtain ⟨used, hts, hused⟩ := hoperand hright
        obtain ⟨more, hts', hmore⟩ := ih (hleft.operation ((hoperator _ _).mp hkind) hused) h
        exact ⟨t :: used ++ more, by simp [hts, hts'], by simpa using hmore⟩

theorem isSound_readChain (hoperand : IsSound derived operand) (bound : Nat) :
    IsSound (Chain signs derived) (readChain operator operand bound) := by
  intro ts n rest h
  obtain ⟨⟨first, ts'⟩, hfirst, h⟩ := exists_of_bind_eq_ok h
  obtain ⟨used, hts, hused⟩ := hoperand hfirst
  obtain ⟨more, hts', hmore⟩ := chain_of_readOperations hoperator hoperand (.single hused) h
  exact ⟨used ++ more, by rw [hts, hts', List.append_assoc], hmore⟩

/-- After a chain, reading goes on where the chain ends, with its tree on the left. -/
theorem exists_readChain_eq {stops : List Token → Prop} {m : Nat}
    (hoperand : IsComplete derived stops m operand)
    (hstops : ∀ t ts kind, (t.kind, kind) ∈ signs → stops (t :: ts)) {ts : List Token} {n : Node}
    (h : Chain signs derived ts n) (hm : ts.length ≤ m) :
    ∃ count ≤ ts.length, ∀ bound rest, ts.length ≤ bound → stops rest →
      readChain operator operand bound (ts ++ rest) =
        readOperations operator operand (bound - count) n rest := by
  induction h with
  | single h =>
    refine ⟨0, Nat.zero_le _, fun bound rest _ hrest => ?_⟩
    rw [readChain, hoperand h hm hrest]
    rfl
  | @operation ts us sign kind left right hleft hsign hright ih =>
    have hlength : (ts ++ sign :: us).length = ts.length + us.length + 1 := by simp; omega
    obtain ⟨count, hcount, heq⟩ := ih (by omega)
    refine ⟨count + 1, by omega, fun bound rest hbound hrest => ?_⟩
    obtain ⟨bound', hbound'⟩ : ∃ b, bound - count = b + 1 := ⟨bound - count - 1, by omega⟩
    have hright' := hoperand hright (by omega) hrest
    rw [List.append_assoc, List.cons_append, heq bound _ (by omega) (hstops _ _ _ hsign), hbound',
      readOperations]
    simp only [(hoperator _ _).mpr hsign, hright', ok_bind]
    congr 1
    omega

theorem isComplete_readChain {stops : List Token → Prop} {bound : Nat}
    (hoperand : IsComplete derived stops bound operand)
    (hstops : ∀ t ts kind, (t.kind, kind) ∈ signs → stops (t :: ts)) :
    IsComplete (Chain signs derived) (fun ts => stops ts ∧ Stops signs ts) bound
      (readChain operator operand bound) := by
  intro ts n h hlength rest hrest
  obtain ⟨count, -, heq⟩ := exists_readChain_eq hoperator hoperand hstops h hlength
  rw [heq bound rest hlength hrest.1]
  generalize bound - count = bound'
  cases bound' with
  | zero => rfl
  | succ bound' =>
    cases rest with
    | nil => rfl
    | cons t rest =>
      have hnone : operator t.kind = none := by
        refine Option.eq_none_iff_forall_ne_some.mpr fun kind hkind => ?_
        exact hrest.2 t rfl kind ((hoperator _ _).mp hkind)
      rw [readOperations, hnone]

end Chain

/-- What ends an expression. -/
def EndsExpression (ts : List Token) : Prop :=
  (anything ts ∧ Stops multiplicativeSigns ts) ∧ Stops additiveSigns ts

theorem endsExpression_cons {t : Token} {ts : List Token}
    (h : t.kind ∉ [TokenKind.plus, .minus, .times, .div, .mod]) : EndsExpression (t :: ts) := by
  simp only [List.mem_cons, List.not_mem_nil, or_false, not_or] at h
  simp [EndsExpression, Stops, anything, multiplicativeSigns, additiveSigns, h]

theorem isSound_readSum {factor : Reader Node} (hfactor : IsSound Factor factor) (bound : Nat) :
    IsSound Expression (readSum factor bound) :=
  isSound_readChain names_sumOperator
    (isSound_readChain names_productOperator hfactor bound) bound

theorem isComplete_readSum {factor : Reader Node} {bound : Nat}
    (hfactor : IsComplete Factor anything bound factor) :
    IsComplete Expression EndsExpression bound (readSum factor bound) := by
  refine isComplete_readChain names_sumOperator (isComplete_readChain names_productOperator hfactor
    fun _ _ _ _ => trivial) ?_
  -- a sign between terms is no sign between factors
  intro t ts kind hsign
  refine ⟨trivial, fun u hu kind' hkind' => ?_⟩
  obtain rfl := Option.some.inj hu
  simp only [additiveSigns, multiplicativeSigns, List.mem_cons, Prod.mk.injEq, List.not_mem_nil,
    or_false] at hsign hkind'
  rcases hsign with ⟨hsign, -⟩ | ⟨hsign, -⟩ <;> simp [hsign] at hkind'

theorem isSound_readFactor (bound : Nat) : IsSound Factor (readFactor bound) := by
  induction bound with
  | zero =>
    intro ts n rest h
    cases h
  | succ bound ih =>
    intro ts n rest h
    cases ts with
    | nil => cases h
    | cons t ts =>
      rw [readFactor] at h
      split at h
      · next hkind =>
        obtain ⟨rfl, rfl⟩ := Prod.mk.inj (Except.ok.inj h)
        exact ⟨[t], rfl, .name hkind⟩
      · next hkind =>
        obtain ⟨rfl, rfl⟩ := Prod.mk.inj (Except.ok.inj h)
        exact ⟨[t], rfl, .integer hkind⟩
      · next hkind =>
        obtain ⟨⟨inner, ts'⟩, hinner, h⟩ := exists_of_bind_eq_ok h
        obtain ⟨⟨closing, ts''⟩, hclosing, h⟩ := exists_of_bind_eq_ok h
        obtain ⟨rfl, rfl⟩ := Prod.mk.inj (Except.ok.inj h)
        obtain ⟨used, hts, hused⟩ := isSound_readSum ih bound hinner
        obtain ⟨hts', hkind'⟩ := of_readKind hclosing
        exact ⟨t :: used ++ [closing], by simp [hts, hts'], .parenthesised hkind hused hkind'⟩
      · cases h

theorem isComplete_readFactor (bound : Nat) :
    IsComplete Factor anything bound (readFactor bound) := by
  induction bound with
  | zero =>
    intro ts n h hlength rest _
    cases h <;> simp at hlength
  | succ bound ih =>
    intro ts n h hlength rest _
    cases h with
    | name ht => simp [readFactor, ht]
    | integer ht => simp [readFactor, ht]
    | @parenthesised opening closing ts _ hopening hinner hclosing =>
      have hbound : ts.length ≤ bound := by
        simp only [List.cons_append, List.length_cons, List.length_append] at hlength
        omega
      have hend : EndsExpression (closing :: rest) := endsExpression_cons (by simp [hclosing])
      have hread := isComplete_readSum ih hinner hbound hend
      simp only [List.cons_append, List.append_assoc, List.nil_append, readFactor, hopening, hread,
        ok_bind, readKind_of_kind hclosing]
      rfl

theorem isSound_readExpression (bound : Nat) : IsSound Expression (readExpression bound) :=
  isSound_readSum (isSound_readFactor bound) bound

theorem isComplete_readExpression (bound : Nat) :
    IsComplete Expression EndsExpression bound (readExpression bound) :=
  isComplete_readSum (isComplete_readFactor bound)

/-- Tokens are read as an expression, up to their end, if they are one. -/
theorem readExpression_eq_iff {ts : List Token} {n : Node} :
    readExpression ts.length ts = .ok (n, []) ↔ Expression ts n := by
  constructor
  · intro h
    obtain ⟨used, hused, hderived⟩ := isSound_readExpression _ h
    rw [List.append_nil] at hused
    rwa [hused]
  · intro h
    have hend : EndsExpression [] := by simp [EndsExpression, anything, Stops]
    have hread := isComplete_readExpression ts.length h (Nat.le_refl _) hend
    rwa [List.append_nil] at hread

/-! ## Reading conditions -/

theorem side_iff {ts : List Token} {n : Node} : Side ts n ↔ Expression ts n := by
  constructor
  · intro h
    cases h with
    | name ht => exact .single (.single (.name ht))
    | integer ht => exact .single (.single (.integer ht))
    | expression h => exact h
  · exact .expression

theorem condition_of_readComparison? {bound : Nat} {ts rest : List Token} {n : Node}
    (h : readComparison? bound ts = .ok (some (n, rest))) :
    ∃ used, ts = used ++ rest ∧ Condition used n := by
  unfold readComparison? at h
  split at h
  · next left sign ts' hleft =>
    split at h
    · cases h
    · next kind hkind =>
      obtain ⟨⟨right, ts''⟩, hright, h⟩ := exists_of_bind_eq_ok h
      obtain ⟨rfl, rfl⟩ := Prod.mk.inj (Option.some.inj (Except.ok.inj h))
      obtain ⟨used, hts, hused⟩ := isSound_readExpression bound hleft
      obtain ⟨used', hts', hused'⟩ := isSound_readExpression bound hright
      exact ⟨used ++ sign :: used', by simp [hts, hts'],
        .comparison (side_iff.mpr hused) ((names_comparisonOperator _ _).mp hkind)
          (side_iff.mpr hused')⟩
  · cases h

theorem of_readConnective {ts rest : List Token} {kind : NodeKind} {line : Nat}
    (h : readConnective ts = .ok ((kind, line), rest)) :
    ∃ sign, ts = sign :: rest ∧ (sign.kind, kind) ∈ connectiveSigns ∧ line = sign.line := by
  obtain ⟨sign, rfl, hread⟩ := exists_of_readToken h
  obtain ⟨kind', hkind, heq⟩ := Option.map_eq_some_iff.mp hread
  obtain ⟨rfl, rfl⟩ := Prod.mk.inj heq
  exact ⟨sign, rfl, (names_connectiveOperator _ _).mp hkind, rfl⟩

theorem readConnective_cons {sign : Token} {kind : NodeKind}
    (h : (sign.kind, kind) ∈ connectiveSigns) (ts : List Token) :
    readConnective (sign :: ts) = .ok ((kind, sign.line), ts) :=
  readToken_cons (by rw [(names_connectiveOperator _ _).mpr h, Option.map_some])

section Parenthesised

variable {inner : Reader Node} {derived : List Token → Node → Prop}

theorem of_readParenthesised (hinner : IsSound derived inner) {ts rest : List Token} {n : Node}
    (h : readParenthesised inner ts = .ok (n, rest)) :
    ∃ opening used closing, ts = opening :: used ++ closing :: rest ∧ opening.kind = .lParen ∧
      derived used n ∧ closing.kind = .rParen := by
  obtain ⟨⟨opening, ts₁⟩, hopening, h⟩ := exists_of_bind_eq_ok h
  obtain ⟨⟨tree, ts₂⟩, htree, h⟩ := exists_of_bind_eq_ok h
  obtain ⟨⟨closing, ts₃⟩, hclosing, h⟩ := exists_of_bind_eq_ok h
  obtain ⟨rfl, rfl⟩ := Prod.mk.inj (Except.ok.inj h)
  obtain ⟨hts, hkind⟩ := of_readKind hopening
  obtain ⟨used, hts₁, hused⟩ := hinner htree
  obtain ⟨hts₂, hkind'⟩ := of_readKind hclosing
  exact ⟨opening, used, closing, by simp [hts, hts₁, hts₂], hkind, hused, hkind'⟩

theorem readParenthesised_eq {bound : Nat}
    (hinner : IsComplete derived EndsExpression bound inner) {opening closing : Token}
    {ts : List Token} {n : Node} (hopening : opening.kind = .lParen) (h : derived ts n)
    (hclosing : closing.kind = .rParen) (hbound : ts.length ≤ bound) (rest : List Token) :
    readParenthesised inner (opening :: (ts ++ closing :: rest)) = .ok (n, rest) := by
  have hend : EndsExpression (closing :: rest) := endsExpression_cons (by simp [hclosing])
  simp only [readParenthesised, readKind_of_kind hopening, ok_bind, hinner h hbound hend,
    readKind_of_kind hclosing]
  rfl

end Parenthesised

theorem isSound_readCondition (bound : Nat) : IsSound Condition (readCondition bound) := by
  induction bound with
  | zero =>
    intro ts n rest h
    cases h
  | succ bound ih =>
    intro ts n rest h
    cases ts with
    | nil => cases h
    | cons t ts =>
      rw [readCondition] at h
      obtain ⟨comparison?, hcomparison, h⟩ := exists_of_bind_eq_ok h
      cases comparison? with
      | some comparison =>
        obtain rfl := Except.ok.inj h
        exact condition_of_readComparison? hcomparison
      | none =>
        dsimp only at h
        split at h
        · next hnot =>
          obtain ⟨⟨inner, ts₁⟩, hinner, h⟩ := exists_of_bind_eq_ok h
          obtain ⟨rfl, rfl⟩ := Prod.mk.inj (Except.ok.inj h)
          obtain ⟨opening, used, closing, hts, hopening, hused, hclosing⟩ :=
            of_readParenthesised ih hinner
          exact ⟨t :: opening :: used ++ [closing], by simp [hts],
            .negation hnot hopening hused hclosing⟩
        · obtain ⟨⟨left, ts₁⟩, hleft, h⟩ := exists_of_bind_eq_ok h
          obtain ⟨⟨⟨kind, line⟩, ts₂⟩, hkind, h⟩ := exists_of_bind_eq_ok h
          obtain ⟨⟨right, ts₃⟩, hright, h⟩ := exists_of_bind_eq_ok h
          obtain ⟨rfl, rfl⟩ := Prod.mk.inj (Except.ok.inj h)
          obtain ⟨opening, used, closing, hts, hopening, hused, hclosing⟩ :=
            of_readParenthesised ih hleft
          obtain ⟨sign, hts₁, hsign, rfl⟩ := of_readConnective hkind
          obtain ⟨opening', used', closing', hts₂, hopening', hused', hclosing'⟩ :=
            of_readParenthesised ih hright
          dsimp only at hts₁ hts₂
          exact ⟨opening :: used ++ closing :: sign :: opening' :: used' ++ [closing'],
            by simp [hts, hts₁, hts₂],
            .connection hopening hused hclosing hsign hopening' hused' hclosing'⟩

/-- In front of the tokens an expression cannot be read, or it ends before the sign of a comparison.
In both cases a parenthesis that was opened before it is not closed after it. -/
def LeavesOpen (bound : Nat) (ts : List Token) : Prop :=
  (∃ e, readExpression bound ts = .error e) ∨
    ∃ left sign us kind, readExpression bound ts = .ok (left, sign :: us) ∧
      (sign.kind, kind) ∈ comparisonSigns

theorem readExpression_eq_error {bound : Nat} {ts : List Token} {e : SyntaxError}
    (h : readFactor bound ts = .error e) : readExpression bound ts = .error e := by
  rw [readExpression, readSum, readChain, readChain, h]
  rfl

theorem exists_readExpression_of_not {t : Token} (ht : t.kind = .not) (bound : Nat)
    (ts : List Token) : ∃ e, readExpression bound (t :: ts) = .error e := by
  cases bound with
  | zero => exact ⟨_, readExpression_eq_error rfl⟩
  | succ bound => exact ⟨_, readExpression_eq_error (by rw [readFactor, ht])⟩

theorem exists_readExpression_of_leavesOpen {opening : Token} (hopening : opening.kind = .lParen)
    {bound : Nat} {ts : List Token} (h : LeavesOpen bound ts) :
    ∃ e, readExpression (bound + 1) (opening :: ts) = .error e := by
  rcases h with ⟨e, he⟩ | ⟨left, sign, us, kind, hleft, hsign⟩
  · refine ⟨e, readExpression_eq_error ?_⟩
    rw [readExpression] at he
    simp only [readFactor, hopening, he]
    rfl
  · have hsign : sign.kind ≠ .rParen := by
      intro heq
      simp [heq, comparisonSigns] at hsign
    refine ⟨.wrongKind (.token .rParen) sign, readExpression_eq_error ?_⟩
    rw [readExpression] at hleft
    simp only [readFactor, hopening, hleft, ok_bind, readKind, readToken, if_neg hsign]
    rfl

theorem endsExpression_of_comparison {sign : Token} {kind : NodeKind} {ts : List Token}
    (h : (sign.kind, kind) ∈ comparisonSigns) : EndsExpression (sign :: ts) := by
  refine endsExpression_cons ?_
  simp only [comparisonSigns, List.mem_cons, Prod.mk.injEq, List.not_mem_nil, or_false] at h
  rcases h with ⟨h, -⟩ | ⟨h, -⟩ | ⟨h, -⟩ | ⟨h, -⟩ | ⟨h, -⟩ | ⟨h, -⟩ <;> simp [h]

/-- No condition can be taken for the inside of an operand in parentheses. -/
theorem leavesOpen_of_condition {ts : List Token} {n : Node} (h : Condition ts n) {bound : Nat}
    (hbound : ts.length ≤ bound) (rest : List Token) : LeavesOpen bound (ts ++ rest) := by
  induction h generalizing bound rest with
  | @comparison ts us sign kind left right hleft hsign hright =>
    refine .inr ⟨left, sign, us ++ rest, kind, ?_, hsign⟩
    rw [List.length_append] at hbound
    rw [List.append_assoc, List.cons_append]
    exact isComplete_readExpression bound (side_iff.mp hleft) (by omega)
      (endsExpression_of_comparison hsign)
  | negation hsign => exact .inl (exists_readExpression_of_not hsign bound _)
  | connection hopening hleft hclosing hsign hopening' hright hclosing' ihl =>
    -- the first parenthesis is opened for a condition, so it is not closed after an expression
    cases bound with
    | zero => simp at hbound
    | succ bound =>
      rw [List.append_assoc, List.append_assoc, List.cons_append]
      simp only [List.cons_append, List.length_cons, List.length_append] at hbound
      exact .inl (exists_readExpression_of_leavesOpen hopening (ihl (by omega) _))

theorem readComparison?_eq_none {bound : Nat} {ts : List Token}
    (h : ∃ e, readExpression bound ts = .error e) : readComparison? bound ts = .ok none := by
  obtain ⟨e, he⟩ := h
  rw [readComparison?, he]

theorem readCondition_of_readComparison? {bound : Nat} {ts : List Token} {read : Node × List Token}
    (h : readComparison? (bound + 1) ts = .ok (some read)) :
    readCondition (bound + 1) ts = .ok read := by
  cases ts with
  | nil => cases h
  | cons t ts =>
    rw [readCondition, h]
    rfl

theorem isComplete_readCondition (bound : Nat) :
    IsComplete Condition EndsExpression bound (readCondition bound) := by
  induction bound with
  | zero =>
    intro ts n h hlength rest hrest
    cases h <;> simp at hlength
  | succ bound ih =>
    intro ts n h hlength rest hrest
    cases h with
    | @comparison ts us sign kind left right hleft hsign hright =>
      rw [List.length_append, List.length_cons] at hlength
      rw [List.append_assoc, List.cons_append]
      apply readCondition_of_readComparison?
      have hend : EndsExpression (sign :: (us ++ rest)) := endsExpression_of_comparison hsign
      have hl := isComplete_readExpression (bound + 1) (side_iff.mp hleft) (by omega) hend
      have hr := isComplete_readExpression (bound + 1) (side_iff.mp hright) (by omega) hrest
      simp only [readComparison?, hl, (names_comparisonOperator _ _).mpr hsign, hr, ok_bind]
      rfl
    | @negation sign opening closing ts inner hsign hopening hinner hclosing =>
      simp only [List.cons_append, List.length_cons, List.length_append] at hlength
      have hnone := readComparison?_eq_none
        (exists_readExpression_of_not hsign (bound + 1) (opening :: (ts ++ closing :: rest)))
      have hread := readParenthesised_eq ih hopening hinner hclosing (by omega) rest
      simp only [List.cons_append, List.append_assoc, List.nil_append, readCondition, hnone,
        ok_bind, if_pos hsign, hread]
      rfl
    | @connection opening closing sign opening' closing' ts us kind left right hopening hleft
        hclosing hsign hopening' hright hclosing' =>
      simp only [List.cons_append, List.append_assoc, List.length_cons, List.length_append]
        at hlength
      have hopen := leavesOpen_of_condition hleft (by omega : ts.length ≤ bound)
        (closing :: sign :: opening' :: (us ++ closing' :: rest))
      have hnone := readComparison?_eq_none (exists_readExpression_of_leavesOpen hopening hopen)
      have hl := readParenthesised_eq ih hopening hleft hclosing (by omega)
        (sign :: opening' :: (us ++ closing' :: rest))
      have hr := readParenthesised_eq ih hopening' hright hclosing' (by omega) rest
      have hnot : opening.kind ≠ .not := by simp [hopening]
      simp only [List.cons_append, List.append_assoc, List.nil_append, readCondition, hnone,
        ok_bind, if_neg hnot, hl, readConnective_cons hsign, hr]
      rfl

/-! ## Reading statements -/

theorem isWord_iff {t : Token} {word : String} :
    t.isWord word = true ↔ t.kind = .name ∧ t.text = word := by
  simp [Token.isWord]

theorem Statement.exists_name {ts : List Token} {n : Node} (h : Statement ts n) :
    ∃ t us, ts = t :: us ∧ t.kind = .name := by
  cases h with
  | named hmem hword => exact ⟨_, _, rfl, (isWord_iff.mp hword).1⟩
  | whileLoop hword => exact ⟨_, _, rfl, (isWord_iff.mp hword).1⟩
  | ifElse hword => exact ⟨_, _, rfl, (isWord_iff.mp hword).1⟩
  | assign htarget => exact ⟨_, _, rfl, htarget⟩

theorem statement_of_readNamed {kind : NodeKind} {word : Token} {text : String}
    (hmem : (text, kind) ∈ namedStatements) (hword : word.isWord text = true)
    {ts rest : List Token} {n : Node} (h : readNamed kind word ts = .ok (n, rest)) :
    ∃ used, ts = used ++ rest ∧ Statement (word :: used) n := by
  obtain ⟨⟨name, ts₁⟩, hname, h⟩ := exists_of_bind_eq_ok h
  obtain ⟨⟨semicolon, ts₂⟩, hsemicolon, h⟩ := exists_of_bind_eq_ok h
  obtain ⟨rfl, rfl⟩ := Prod.mk.inj (Except.ok.inj h)
  obtain ⟨hts, hkind⟩ := of_readKind hname
  obtain ⟨hts₁, hkind'⟩ := of_readKind hsemicolon
  exact ⟨[name, semicolon], by simp [hts, hts₁], .named hmem hword hkind hkind'⟩

theorem isSound_readAssignment (bound : Nat) : IsSound Statement (readAssignment bound) := by
  intro ts n rest h
  obtain ⟨⟨target, ts₁⟩, htarget, h⟩ := exists_of_bind_eq_ok h
  obtain ⟨⟨sign, ts₂⟩, hsign, h⟩ := exists_of_bind_eq_ok h
  obtain ⟨⟨value, ts₃⟩, hvalue, h⟩ := exists_of_bind_eq_ok h
  obtain ⟨⟨semicolon, ts₄⟩, hsemicolon, h⟩ := exists_of_bind_eq_ok h
  obtain ⟨rfl, rfl⟩ := Prod.mk.inj (Except.ok.inj h)
  obtain ⟨hts, hname⟩ := of_readKind htarget
  obtain ⟨hts₁, heq⟩ := of_readKind hsign
  obtain ⟨used, hts₂, hused⟩ := isSound_readExpression bound hvalue
  obtain ⟨hts₃, hend⟩ := of_readKind hsemicolon
  exact ⟨target :: sign :: used ++ [semicolon], by simp [hts, hts₁, hts₂, hts₃],
    .assign hname heq hused hend⟩

section Blocks

variable {statement : Reader Node}

theorem of_readStatements (hstatement : IsSound Statement statement) {bound : Nat}
    {ts rest : List Token} {body : List Node}
    (h : readStatements statement bound ts = .ok (body, rest)) :
    ∃ used closing, ts = used ++ closing :: rest ∧ closing.kind = .rBrace ∧ body ≠ [] ∧
      Repeated Statement used body := by
  induction bound generalizing ts body with
  | zero => cases h
  | succ bound ih =>
    rw [readStatements] at h
    obtain ⟨⟨first, ts₁⟩, hfirst, h⟩ := exists_of_bind_eq_ok h
    obtain ⟨used, hts, hused⟩ := hstatement hfirst
    cases ts₁ with
    | nil => cases h
    | cons t ts₁ =>
      dsimp only at h
      split at h
      · next hclosing =>
        obtain ⟨rfl, rfl⟩ := Prod.mk.inj (Except.ok.inj h)
        exact ⟨used ++ [], t, by simp [hts], hclosing, by simp, .cons hused .nil⟩
      · obtain ⟨⟨others, ts₂⟩, hothers, h⟩ := exists_of_bind_eq_ok h
        obtain ⟨rfl, rfl⟩ := Prod.mk.inj (Except.ok.inj h)
        obtain ⟨used', closing, hts', hclosing, -, hused'⟩ := ih hothers
        exact ⟨used ++ used', closing, by simp [hts, hts'], hclosing, by simp, .cons hused hused'⟩

theorem isSound_readBlock (hstatement : IsSound Statement statement) (bound : Nat) :
    IsSound (Block Statement) (readBlock statement bound) := by
  intro ts n rest h
  obtain ⟨⟨opening, ts₁⟩, hopening, h⟩ := exists_of_bind_eq_ok h
  obtain ⟨⟨body, ts₂⟩, hbody, h⟩ := exists_of_bind_eq_ok h
  obtain ⟨rfl, rfl⟩ := Prod.mk.inj (Except.ok.inj h)
  obtain ⟨hts, hkind⟩ := of_readKind hopening
  obtain ⟨used, closing, hts₁, hclosing, hne, hused⟩ := of_readStatements hstatement hbody
  exact ⟨opening :: used ++ [closing], by simp [hts, hts₁], .intro hkind hne hused hclosing⟩

theorem statement_of_readWhile (hstatement : IsSound Statement statement) {bound : Nat}
    {word : Token} (hword : word.isWord "while" = true) {ts rest : List Token} {n : Node}
    (h : readWhile statement bound word ts = .ok (n, rest)) :
    ∃ used, ts = used ++ rest ∧ Statement (word :: used) n := by
  obtain ⟨⟨condition, ts₁⟩, hcondition, h⟩ := exists_of_bind_eq_ok h
  obtain ⟨⟨body, ts₂⟩, hbody, h⟩ := exists_of_bind_eq_ok h
  obtain ⟨rfl, rfl⟩ := Prod.mk.inj (Except.ok.inj h)
  obtain ⟨opening, used, closing, hts, hopening, hused, hclosing⟩ :=
    of_readParenthesised (isSound_readCondition bound) hcondition
  obtain ⟨used', hts₁, hused'⟩ := isSound_readBlock hstatement bound hbody
  exact ⟨opening :: used ++ closing :: used', by simp [hts, hts₁],
    .whileLoop hword hopening hused hclosing hused'⟩

theorem statement_of_readIf (hstatement : IsSound Statement statement) {bound : Nat}
    {word : Token} (hword : word.isWord "if" = true) {ts rest : List Token} {n : Node}
    (h : readIf statement bound word ts = .ok (n, rest)) :
    ∃ used, ts = used ++ rest ∧ Statement (word :: used) n := by
  obtain ⟨⟨condition, ts₁⟩, hcondition, h⟩ := exists_of_bind_eq_ok h
  obtain ⟨⟨word', ts₂⟩, hthen, h⟩ := exists_of_bind_eq_ok h
  obtain ⟨⟨accepted, ts₃⟩, haccepted, h⟩ := exists_of_bind_eq_ok h
  obtain ⟨⟨word'', ts₄⟩, helse, h⟩ := exists_of_bind_eq_ok h
  obtain ⟨⟨refused, ts₅⟩, hrefused, h⟩ := exists_of_bind_eq_ok h
  obtain ⟨rfl, rfl⟩ := Prod.mk.inj (Except.ok.inj h)
  obtain ⟨opening, used, closing, hts, hopening, hused, hclosing⟩ :=
    of_readParenthesised (isSound_readCondition bound) hcondition
  obtain ⟨hts₁, hthen'⟩ := of_readKeyword hthen
  obtain ⟨used₂, hts₂, hused₂⟩ := isSound_readBlock hstatement bound haccepted
  obtain ⟨hts₃, helse'⟩ := of_readKeyword helse
  obtain ⟨used₄, hts₄, hused₄⟩ := isSound_readBlock hstatement bound hrefused
  exact ⟨opening :: used ++ closing :: word' :: used₂ ++ word'' :: used₄,
    by simp [hts, hts₁, hts₂, hts₃, hts₄],
    .ifElse hword hopening hused hclosing hthen' hused₂ helse' hused₄⟩

theorem readStatements_eq {m : Nat} (hstatement : IsComplete Statement anything m statement)
    {ts : List Token} {body : List Node} (hbody : Repeated Statement ts body) (hne : body ≠ [])
    (hm : ts.length ≤ m) {bound : Nat} (hbound : ts.length ≤ bound) {closing : Token}
    (hclosing : closing.kind = .rBrace) (rest : List Token) :
    readStatements statement bound (ts ++ closing :: rest) = .ok (body, rest) := by
  induction hbody generalizing bound with
  | nil => exact absurd rfl hne
  | @cons ts us first others hfirst hothers ih =>
    obtain ⟨t, ts', hts, -⟩ := hfirst.exists_name
    have hpos : 1 ≤ ts.length := by simp [hts]
    rw [List.length_append] at hm hbound
    cases bound with
    | zero => omega
    | succ bound =>
      have hread : statement (ts ++ (us ++ closing :: rest)) = .ok (first, us ++ closing :: rest) :=
        hstatement hfirst (by omega) trivial
      rw [List.append_assoc, readStatements, hread, ok_bind]
      cases hothers with
      | nil => simp only [List.nil_append, if_pos hclosing]; rfl
      | cons hnext =>
        -- a name and no brace comes next, so another statement is read
        obtain ⟨u, us', hus, hname⟩ := hnext.exists_name
        have hbrace : u.kind ≠ .rBrace := by simp [hname]
        have hrest := @ih (by simp) (by omega) bound (by omega)
        rw [hus] at hrest ⊢
        simp only [List.cons_append] at hrest ⊢
        rw [if_neg hbrace, hrest]
        rfl

theorem isComplete_readBlock {bound : Nat}
    (hstatement : IsComplete Statement anything bound statement) :
    IsComplete (Block Statement) anything bound (readBlock statement bound) := by
  rintro _ _ ⟨hopening, hne, hbody, hclosing⟩ hlength rest -
  rename_i ts body
  simp only [List.cons_append, List.length_cons, List.length_append] at hlength
  have hbound : ts.length ≤ bound := by omega
  have hread := readStatements_eq hstatement hbody hne hbound hbound hclosing rest
  simp only [List.cons_append, List.append_assoc, List.nil_append, readBlock,
    readKind_of_kind hopening, ok_bind, hread]
  rfl

end Blocks

theorem isSound_readStatement (bound : Nat) : IsSound Statement (readStatement bound) := by
  induction bound with
  | zero =>
    intro ts n rest h
    cases h
  | succ bound ih =>
    intro ts n rest h
    rw [readStatement] at h
    split at h
    · exact isSound_readAssignment bound h
    · obtain ⟨⟨word, ts₁⟩, hword, h⟩ := exists_of_bind_eq_ok h
      obtain ⟨hts, hkind⟩ := of_readKind hword
      have hderived : (∃ used, ts₁ = used ++ rest ∧ Statement (word :: used) n) →
          ∃ used, ts = used ++ rest ∧ Statement used n := by
        rintro ⟨used, hused, h⟩
        exact ⟨word :: used, by simp [hts, hused], h⟩
      have hisWord : ∀ {text}, word.text = text → word.isWord text = true :=
        fun htext => isWord_iff.mpr ⟨hkind, htext⟩
      dsimp only at h
      split at h
      · next htext =>
        exact hderived (statement_of_readNamed (by simp [namedStatements]) (hisWord htext) h)
      · next htext =>
        exact hderived (statement_of_readNamed (by simp [namedStatements]) (hisWord htext) h)
      · next htext =>
        exact hderived (statement_of_readNamed (by simp [namedStatements]) (hisWord htext) h)
      · next htext => exact hderived (statement_of_readWhile ih (hisWord htext) h)
      · next htext => exact hderived (statement_of_readIf ih (hisWord htext) h)
      · cases h

/-- Without an equals sign in second place the first word decides. -/
theorem readStatement_eq {bound : Nat} {word next : Token} (hword : word.kind = .name)
    (hnext : next.kind ≠ .singleEq) (ts : List Token) :
    readStatement (bound + 1) (word :: next :: ts) =
      match word.text with
      | "read" => readNamed .read word (next :: ts)
      | "print" => readNamed .print word (next :: ts)
      | "call" => readNamed .call word (next :: ts)
      | "while" => readWhile (readStatement bound) bound word (next :: ts)
      | "if" => readIf (readStatement bound) bound word (next :: ts)
      | _ => .error (.wrongToken .statement word) := by
  have hstarts : startsAssignment (word :: next :: ts) = false := decide_eq_false hnext
  rw [readStatement, hstarts, readKind_of_kind hword]
  rfl

theorem readNamed_eq (kind : NodeKind) (word : Token) {name semicolon : Token}
    (hname : name.kind = .name) (hsemicolon : semicolon.kind = .semicolon) (rest : List Token) :
    readNamed kind word (name :: semicolon :: rest) =
      .ok (⟨kind, some word.line, "", "", [.ofName name]⟩, rest) := by
  rw [readNamed, readKind_of_kind hname, ok_bind]
  simp only [readKind_of_kind hsemicolon, ok_bind]
  rfl

theorem isComplete_readStatement (bound : Nat) :
    IsComplete Statement anything bound (readStatement bound) := by
  induction bound with
  | zero =>
    intro ts n h hlength rest _
    obtain ⟨t, us, rfl, -⟩ := h.exists_name
    simp at hlength
  | succ bound ih =>
    intro ts n h hlength rest _
    cases h with
    | @named word name semicolon text kind hmem hword hname hsemicolon =>
      obtain ⟨hkind, htext⟩ := isWord_iff.mp hword
      have hnext : name.kind ≠ .singleEq := by simp [hname]
      have hread := fun kind => readNamed_eq kind word hname hsemicolon rest
      simp only [namedStatements, List.mem_cons, Prod.mk.injEq, List.not_mem_nil, or_false] at hmem
      rw [List.cons_append, List.cons_append, readStatement_eq hkind hnext]
      rcases hmem with ⟨rfl, rfl⟩ | ⟨rfl, rfl⟩ | ⟨rfl, rfl⟩ <;> rw [htext] <;> exact hread _
    | @whileLoop word opening closing ts us condition body hword hopening hcondition hclosing
        hbody =>
      obtain ⟨hkind, htext⟩ := isWord_iff.mp hword
      have hnext : opening.kind ≠ .singleEq := by simp [hopening]
      simp only [List.cons_append, List.length_cons, List.length_append] at hlength
      have hread := readParenthesised_eq (isComplete_readCondition bound) hopening hcondition
        hclosing (by omega) (us ++ rest)
      have hread' : readBlock (readStatement bound) bound (us ++ rest) = .ok (body, rest) :=
        isComplete_readBlock ih hbody (by omega) trivial
      simp only [List.cons_append, List.append_assoc]
      rw [readStatement_eq hkind hnext, htext]
      simp only [readWhile, hread, ok_bind, hread']
      rfl
    | @ifElse word opening closing word' word'' ts us vs condition accepted refused hword hopening
        hcondition hclosing hthen haccepted helse hrefused =>
      obtain ⟨hkind, htext⟩ := isWord_iff.mp hword
      have hnext : opening.kind ≠ .singleEq := by simp [hopening]
      simp only [List.cons_append, List.append_assoc, List.length_cons, List.length_append]
        at hlength
      have hread := readParenthesised_eq (isComplete_readCondition bound) hopening hcondition
        hclosing (by omega) (word' :: (us ++ word'' :: (vs ++ rest)))
      have haccepted' : readBlock (readStatement bound) bound (us ++ word'' :: (vs ++ rest)) =
          .ok (accepted, word'' :: (vs ++ rest)) :=
        isComplete_readBlock ih haccepted (by omega) trivial
      have hrefused' : readBlock (readStatement bound) bound (vs ++ rest) = .ok (refused, rest) :=
        isComplete_readBlock ih hrefused (by omega) trivial
      simp only [List.cons_append, List.append_assoc]
      rw [readStatement_eq hkind hnext, htext]
      simp only [readIf, hread, ok_bind, readKeyword_of_isWord hthen, haccepted',
        readKeyword_of_isWord helse, hrefused']
      rfl
    | @assign target sign semicolon ts value htarget hsign hvalue hsemicolon =>
      simp only [List.cons_append, List.length_cons, List.length_append] at hlength
      have hend : EndsExpression (semicolon :: rest) := endsExpression_cons (by simp [hsemicolon])
      have hread := isComplete_readExpression bound hvalue (by omega) hend
      have hstarts : startsAssignment (target :: sign :: (ts ++ semicolon :: rest)) = true :=
        decide_eq_true hsign
      simp only [List.cons_append, List.append_assoc, List.nil_append]
      rw [readStatement, if_pos hstarts]
      simp only [readAssignment, readKind_of_kind htarget, ok_bind, readKind_of_kind hsign, hread,
        readKind_of_kind hsemicolon]
      rfl

/-! ## Reading programs -/

theorem isSound_readProcedure (bound : Nat) : IsSound Procedure (readProcedure bound) := by
  intro ts n rest h
  obtain ⟨⟨word, ts₁⟩, hword, h⟩ := exists_of_bind_eq_ok h
  obtain ⟨⟨name, ts₂⟩, hname, h⟩ := exists_of_bind_eq_ok h
  obtain ⟨⟨body, ts₃⟩, hbody, h⟩ := exists_of_bind_eq_ok h
  obtain ⟨rfl, rfl⟩ := Prod.mk.inj (Except.ok.inj h)
  obtain ⟨hts, hword'⟩ := of_readKeyword hword
  obtain ⟨hts₁, hkind⟩ := of_readKind hname
  obtain ⟨used, hts₂, hused⟩ := isSound_readBlock (isSound_readStatement bound) bound hbody
  exact ⟨word :: name :: used, by simp [hts, hts₁, hts₂], .intro hword' hkind hused⟩

theorem isComplete_readProcedure (bound : Nat) :
    IsComplete Procedure anything bound (readProcedure bound) := by
  rintro _ _ ⟨hword, hname, hbody⟩ hlength rest hrest
  simp only [List.length_cons] at hlength
  have hread := isComplete_readBlock (isComplete_readStatement bound) hbody (by omega) hrest
  simp only [List.cons_append, readProcedure, readKeyword_of_isWord hword, ok_bind,
    readKind_of_kind hname, hread]
  rfl

theorem of_readProcedures {bound : Nat} {ts : List Token} {procedures : List Node}
    (h : readProcedures bound ts = .ok procedures) :
    procedures ≠ [] ∧ Repeated Procedure ts procedures := by
  induction bound generalizing ts procedures with
  | zero => cases h
  | succ bound ih =>
    rw [readProcedures] at h
    obtain ⟨⟨first, ts₁⟩, hfirst, h⟩ := exists_of_bind_eq_ok h
    obtain ⟨used, hts, hused⟩ := isSound_readProcedure _ hfirst
    cases ts₁ with
    | nil =>
      obtain rfl := Except.ok.inj h
      exact ⟨by simp, hts ▸ .cons hused .nil⟩
    | cons t ts₁ =>
      obtain ⟨others, hothers, h⟩ := exists_of_bind_eq_ok h
      obtain rfl := Except.ok.inj h
      exact ⟨by simp, hts ▸ .cons hused (ih hothers).2⟩

theorem readProcedures_eq {ts : List Token} {procedures : List Node}
    (h : Repeated Procedure ts procedures) (hne : procedures ≠ []) {bound : Nat}
    (hbound : ts.length ≤ bound) : readProcedures bound ts = .ok procedures := by
  induction h generalizing bound with
  | nil => exact absurd rfl hne
  | @cons ts us first others hfirst hothers ih =>
    rw [List.length_append] at hbound
    have hpos : 1 ≤ ts.length := by
      obtain ⟨-, -, -⟩ := hfirst
      simp
    cases bound with
    | zero => omega
    | succ bound =>
      have hread : readProcedure (bound + 1) (ts ++ us) = .ok (first, us) :=
        isComplete_readProcedure (bound + 1) hfirst (by omega) trivial
      rw [readProcedures, hread, ok_bind]
      cases hothers with
      | nil => rfl
      | cons hnext =>
        have hrest := @ih (by simp) bound (by omega)
        obtain ⟨-, -, -⟩ := hnext
        simp only [List.cons_append] at hrest ⊢
        rw [hrest]
        rfl

theorem program_of_parseProgram {ts : List Token} {tree : Node} (h : parseProgram ts = .ok tree) :
    Program ts tree := by
  obtain ⟨procedures, hprocedures, h⟩ := exists_of_bind_eq_ok h
  obtain rfl := Except.ok.inj h
  obtain ⟨hne, hderived⟩ := of_readProcedures hprocedures
  exact .intro hne hderived

end Grammar

/-- Reading accepts exactly the programs of the grammar, and gives the tree that belongs to the
derivation. Every program has only one tree. -/
theorem parseProgram_eq_ok_iff (ts : List Token) :
    (∀ tree, parseProgram ts = .ok tree ↔ Grammar.Program ts tree) ∧
      ∀ tree tree', Grammar.Program ts tree → Grammar.Program ts tree' → tree = tree' := by
  have hiff : ∀ tree, parseProgram ts = .ok tree ↔ Grammar.Program ts tree := by
    intro tree
    constructor
    · exact Grammar.program_of_parseProgram
    · rintro ⟨hne, hprocedures⟩
      rw [parseProgram, Grammar.readProcedures_eq hprocedures hne (Nat.le_refl _)]
      rfl
  refine ⟨hiff, fun tree tree' h h' => ?_⟩
  exact Except.ok.inj (((hiff tree).mpr h).symm.trans ((hiff tree').mpr h'))

/-- Words of the grammar can be names. -/
example : (programTree "procedure procedure \x7b while = if; read else; \x7d").toOption =
    some ⟨.program, none, "", "", [⟨.procedure, some 1, "procedure", "", [.block 1
      [⟨.assign, some 1, "while", "", [⟨.variableRef, some 1, "while", "", []⟩,
          ⟨.variableRef, some 1, "if", "", []⟩]⟩,
        ⟨.read, some 1, "", "", [⟨.variableRef, some 1, "else", "", []⟩]⟩]]⟩]⟩ := by
  decide +kernel

end ProgramQuery
