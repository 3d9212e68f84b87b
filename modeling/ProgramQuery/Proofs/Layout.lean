import ProgramQuery.Proofs.ProgramGrammar
import ProgramQuery.Proofs.Walk

/-!
# The layout of program trees

Which trees the grammar of programs can give. Every node has the children that its kind calls for,
and all names and constants in the tree are texts of tokens that it is derived from. A statement is
derived from at least one token of its own, so there are never more statements than tokens.

## Main definitions

- `Node.IsExpression`, `Node.IsCondition`, `Node.IsStatement`, `Node.IsProgram`: the layout, over
  tokens with a given property.

## Main statements

- `Grammar.isExpression_of_expression`, `Grammar.isCondition_of_condition`,
  `Grammar.isStatement_of_statement`: what is derived has the layout.
- `isProgram_of_parseProgram`: what is read as a program has the layout of a program.
- `statementCount_le_of_parseProgram`: a program has no more statements than tokens.
-/

namespace ProgramQuery

namespace Node

section Layout

variable (good : Token → Prop)

/-- Arithmetic expressions whose names and constants are good tokens. -/
inductive IsExpression : Node → Prop where
  | name {t : Token} (htoken : good t) (hkind : t.kind = .name) : IsExpression (.ofName t)
  | integer {t : Token} (htoken : good t) (hkind : t.kind = .integer) : IsExpression (.ofInteger t)
  | operation {kind : NodeKind} {line : Nat} {left right : Node}
      (hkind : kind ∈ [NodeKind.plus, .minus, .multiply, .divide, .modulo])
      (hleft : IsExpression left) (hright : IsExpression right) :
      IsExpression (.binary kind line left right)

/-- Conditions: comparisons of expressions, and connectives between conditions. -/
inductive IsCondition : Node → Prop where
  | comparison {kind : NodeKind} {line : Nat} {left right : Node}
      (hkind : kind ∈ [NodeKind.greater, .greaterEq, .less, .lessEq, .equal, .notEqual])
      (hleft : IsExpression good left) (hright : IsExpression good right) :
      IsCondition (.binary kind line left right)
  | negation {line : Nat} {inner : Node} (hinner : IsCondition inner) :
      IsCondition ⟨.not, some line, "", "", [inner]⟩
  | connection {kind : NodeKind} {line : Nat} {left right : Node}
      (hkind : kind ∈ [NodeKind.and, .or]) (hleft : IsCondition left)
      (hright : IsCondition right) : IsCondition (.binary kind line left right)

/-- Statements. Blocks are never empty. -/
inductive IsStatement : Node → Prop where
  | named {kind : NodeKind} {line : Nat} {t : Token}
      (hkind : kind ∈ [NodeKind.read, .print, .call]) (htoken : good t) (hname : t.kind = .name) :
      IsStatement ⟨kind, some line, "", "", [.ofName t]⟩
  | assign {line : Nat} {target : Token} {value : Node} (htoken : good target)
      (hname : target.kind = .name) (hvalue : IsExpression good value) :
      IsStatement ⟨.assign, some line, target.text, "", [.ofName target, value]⟩
  | whileLoop {line blockLine : Nat} {condition : Node} {body : List Node}
      (hcondition : IsCondition good condition) (hne : body ≠ [])
      (hbody : ∀ s ∈ body, IsStatement s) :
      IsStatement ⟨.whileLoop, some line, "", "", [condition, block blockLine body]⟩
  | ifElse {line line' line'' : Nat} {condition : Node} {accepted refused : List Node}
      (hcondition : IsCondition good condition) (hne : accepted ≠ []) (hne' : refused ≠ [])
      (haccepted : ∀ s ∈ accepted, IsStatement s) (hrefused : ∀ s ∈ refused, IsStatement s) :
      IsStatement
        ⟨.ifElse, some line, "", "", [condition, block line' accepted, block line'' refused]⟩

/-- Blocks: one or more statements between braces. -/
def IsBlock (n : Node) : Prop :=
  ∃ line body, n = block line body ∧ body ≠ [] ∧ ∀ s ∈ body, IsStatement good s

/-- Procedures: a name and a block. -/
inductive IsProcedure : Node → Prop where
  | intro {line blockLine : Nat} {t : Token} {body : List Node} (htoken : good t)
      (hname : t.kind = .name) (hne : body ≠ []) (hbody : ∀ s ∈ body, IsStatement good s) :
      IsProcedure ⟨.procedure, some line, t.text, "", [block blockLine body]⟩

/-- Programs: one or more procedures. -/
inductive IsProgram : Node → Prop where
  | intro {procedures : List Node} (hne : procedures ≠ [])
      (hprocedures : ∀ p ∈ procedures, IsProcedure good p) :
      IsProgram ⟨.program, none, "", "", procedures⟩

end Layout

/-! ## Parts of expressions and conditions -/

variable {good : Token → Prop}

theorem IsExpression.at? {n m : Node} {path : Path} (h : n.IsExpression good)
    (hat : n.at? path = some m) : m.IsExpression good := by
  induction h generalizing path with
  | name htoken hkind =>
    cases path with
    | nil => exact Option.some.inj hat ▸ .name htoken hkind
    | cons i path => simp [Node.at?, Node.ofName] at hat
  | integer htoken hkind =>
    cases path with
    | nil => exact Option.some.inj hat ▸ .integer htoken hkind
    | cons i path => simp [Node.at?, Node.ofInteger] at hat
  | operation hkind hleft hright ihl ihr =>
    match path with
    | [] => exact Option.some.inj hat ▸ .operation hkind hleft hright
    | 0 :: path => exact ihl hat
    | 1 :: path => exact ihr hat
    | (i + 2) :: path => simp [Node.at?, Node.binary] at hat

theorem IsExpression.kind_eq {n : Node} (h : n.IsExpression good) :
    n.kind.isStatement = false ∧ n.kind ≠ .statementList := by
  cases h with
  | name => exact ⟨rfl, nofun⟩
  | integer => exact ⟨rfl, nofun⟩
  | @operation kind _ _ _ hkind =>
    cases kind <;> simp [Node.binary, NodeKind.isStatement] at hkind ⊢

theorem IsCondition.at? {n m : Node} {path : Path} (h : n.IsCondition good)
    (hat : n.at? path = some m) : m.IsCondition good ∨ m.IsExpression good := by
  induction h generalizing path with
  | comparison hkind hleft hright =>
    match path with
    | [] => exact .inl (Option.some.inj hat ▸ .comparison hkind hleft hright)
    | 0 :: path => exact .inr (hleft.at? hat)
    | 1 :: path => exact .inr (hright.at? hat)
    | (i + 2) :: path => simp [Node.at?, Node.binary] at hat
  | negation hinner ih =>
    match path with
    | [] => exact .inl (Option.some.inj hat ▸ .negation hinner)
    | 0 :: path => exact ih hat
    | (i + 1) :: path => simp [Node.at?] at hat
  | connection hkind hleft hright ihl ihr =>
    match path with
    | [] => exact .inl (Option.some.inj hat ▸ .connection hkind hleft hright)
    | 0 :: path => exact ihl hat
    | 1 :: path => exact ihr hat
    | (i + 2) :: path => simp [Node.at?, Node.binary] at hat

theorem IsCondition.kind_eq_of_at? {n m : Node} {path : Path} (h : n.IsCondition good)
    (hat : n.at? path = some m) : m.kind.isStatement = false ∧ m.kind ≠ .statementList := by
  rcases h.at? hat with h | h
  · cases h with
    | @comparison kind _ _ _ hkind =>
      cases kind <;> simp [Node.binary, NodeKind.isStatement] at hkind ⊢
    | negation => exact ⟨rfl, nofun⟩
    | @connection kind _ _ _ hkind =>
      cases kind <;> simp [Node.binary, NodeKind.isStatement] at hkind ⊢
  · exact h.kind_eq

section Collect

variable {β : Type} {f : Path → Node → List β}
  (hf : ∀ path m, m.kind.isStatement = false → m.kind ≠ .statementList → f path m = [])

include hf

/-- What only statements and lists of statements contribute, expressions do not. -/
theorem IsExpression.collect_eq_nil {n : Node} (h : n.IsExpression good) (path : Path) :
    collect f path n = [] := by
  refine List.eq_nil_iff_forall_not_mem.mpr fun b hb => ?_
  obtain ⟨rest, m, hat, hm⟩ := mem_collect.mp hb
  obtain ⟨hstatement, hlist⟩ := (h.at? hat).kind_eq
  simp [hf _ _ hstatement hlist] at hm

theorem IsCondition.collect_eq_nil {n : Node} (h : n.IsCondition good) (path : Path) :
    collect f path n = [] := by
  refine List.eq_nil_iff_forall_not_mem.mpr fun b hb => ?_
  obtain ⟨rest, m, hat, hm⟩ := mem_collect.mp hb
  obtain ⟨hstatement, hlist⟩ := h.kind_eq_of_at? hat
  simp [hf _ _ hstatement hlist] at hm

end Collect

/-! ## Statements and blocks inside a program -/

theorem IsStatement.isStatement_kind {n : Node} (h : n.IsStatement good) :
    n.kind.isStatement = true := by
  cases h with
  | @named kind _ _ hkind => cases kind <;> simp [NodeKind.isStatement] at hkind ⊢
  | assign => rfl
  | whileLoop => rfl
  | ifElse => rfl

theorem IsStatement.exists_of_whileLoop {n : Node} (h : n.IsStatement good)
    (hkind : n.kind = .whileLoop) : ∃ line blockLine condition body,
      n = ⟨.whileLoop, some line, "", "", [condition, block blockLine body]⟩ ∧
        condition.IsCondition good ∧ body ≠ [] ∧ ∀ s ∈ body, s.IsStatement good := by
  cases h with
  | @named kind _ _ hnamed => cases kind <;> simp at hkind hnamed
  | assign => cases hkind
  | whileLoop hcondition hne hbody => exact ⟨_, _, _, _, rfl, hcondition, hne, hbody⟩
  | ifElse => cases hkind

theorem IsStatement.exists_of_ifElse {n : Node} (h : n.IsStatement good)
    (hkind : n.kind = .ifElse) : ∃ line line' line'' condition accepted refused,
      n = ⟨.ifElse, some line, "", "",
        [condition, block line' accepted, block line'' refused]⟩ ∧
        condition.IsCondition good ∧ (accepted ≠ [] ∧ ∀ s ∈ accepted, s.IsStatement good) ∧
        (refused ≠ [] ∧ ∀ s ∈ refused, s.IsStatement good) := by
  cases h with
  | @named kind _ _ hnamed => cases kind <;> simp at hkind hnamed
  | assign => cases hkind
  | whileLoop => cases hkind
  | ifElse hcondition hne hne' haccepted hrefused =>
    exact ⟨_, _, _, _, _, _, rfl, hcondition, ⟨hne, haccepted⟩, ⟨hne', hrefused⟩⟩

/-- What a layout says of one node: statements and lists of statements have theirs, and names and
constants are texts of good tokens. -/
structure IsWellFormed (good : Token → Prop) (m : Node) : Prop where
  statement : m.kind.isStatement = true → m.IsStatement good
  block : m.kind = .statementList → m.IsBlock good
  name : m.kind = .variableRef ∨ m.kind = .procedure →
    ∃ t, good t ∧ t.kind = .name ∧ m.name = t.text
  constant : m.kind = .constant → ∃ t, good t ∧ t.kind = .integer ∧ m.constant = t.text

/-- Of most kinds of nodes the layout says nothing. -/
theorem isWellFormed_of_kind {m : Node} (hstatement : m.kind.isStatement = false)
    (hkind : m.kind ∉ [NodeKind.statementList, .variableRef, .procedure, .constant]) :
    m.IsWellFormed good := by
  simp only [List.mem_cons, List.not_mem_nil, or_false, not_or] at hkind
  constructor
  · intro h
    rw [hstatement] at h
    cases h
  · exact fun h => absurd h hkind.1
  · exact fun h => absurd h (not_or.mpr ⟨hkind.2.1, hkind.2.2.1⟩)
  · exact fun h => absurd h hkind.2.2.2

theorem IsExpression.isWellFormed {n : Node} (h : n.IsExpression good) : n.IsWellFormed good := by
  cases h with
  | @name t htoken hkind => exact ⟨nofun, nofun, fun _ => ⟨t, htoken, hkind, rfl⟩, nofun⟩
  | @integer t htoken hkind => exact ⟨nofun, nofun, nofun, fun _ => ⟨t, htoken, hkind, rfl⟩⟩
  | @operation kind _ _ _ hkind =>
    apply isWellFormed_of_kind <;> cases kind <;>
      simp [Node.binary, NodeKind.isStatement] at hkind ⊢

theorem IsCondition.isWellFormed_of_at? {n m : Node} {path : Path} (h : n.IsCondition good)
    (hat : n.at? path = some m) : m.IsWellFormed good := by
  rcases h.at? hat with h | h
  · cases h with
    | @comparison kind _ _ _ hkind =>
      apply isWellFormed_of_kind <;> cases kind <;>
        simp [Node.binary, NodeKind.isStatement] at hkind ⊢
    | negation => exact isWellFormed_of_kind rfl (by simp)
    | @connection kind _ _ _ hkind =>
      apply isWellFormed_of_kind <;> cases kind <;>
        simp [Node.binary, NodeKind.isStatement] at hkind ⊢
  · exact h.isWellFormed

theorem IsStatement.isWellFormed {n : Node} (h : n.IsStatement good) : n.IsWellFormed good := by
  have hkind := h.isStatement_kind
  refine ⟨fun _ => h, fun hk => ?_, fun hk => ?_, fun hk => ?_⟩
  · rw [hk] at hkind
    cases hkind
  · rcases hk with hk | hk <;> rw [hk] at hkind <;> cases hkind
  · rw [hk] at hkind
    cases hkind

theorem isWellFormed_of_block {line : Nat} {body : List Node} {m : Node} {path : Path}
    (hne : body ≠ []) (hbody : ∀ s ∈ body, s.IsStatement good)
    (ih : ∀ s ∈ body, ∀ {path : Path}, s.at? path = some m → m.IsWellFormed good)
    (hat : (block line body).at? path = some m) : m.IsWellFormed good := by
  cases path with
  | nil =>
    obtain rfl := Option.some.inj hat
    exact ⟨nofun, fun _ => ⟨line, body, rfl, hne, hbody⟩, nofun, nofun⟩
  | cons i path =>
    obtain ⟨s, hs, hat⟩ := Option.bind_eq_some_iff.mp hat
    exact ih s (List.mem_of_getElem? hs) hat

theorem IsStatement.isWellFormed_of_at? {n m : Node} {path : Path} (h : n.IsStatement good)
    (hat : n.at? path = some m) : m.IsWellFormed good := by
  -- the first index of the path tells which child it leads into
  induction h generalizing path with
  | named hkind htoken hname =>
    match path with
    | [] => exact Option.some.inj hat ▸ (IsStatement.named hkind htoken hname).isWellFormed
    | 0 :: path => exact ((IsExpression.name htoken hname).at? hat).isWellFormed
    | (i + 1) :: path => simp [Node.at?] at hat
  | assign htoken hname hvalue =>
    match path with
    | [] => exact Option.some.inj hat ▸ (IsStatement.assign htoken hname hvalue).isWellFormed
    | 0 :: path => exact ((IsExpression.name htoken hname).at? hat).isWellFormed
    | 1 :: path => exact (hvalue.at? hat).isWellFormed
    | (i + 2) :: path => simp [Node.at?] at hat
  | whileLoop hcondition hne hbody ih =>
    match path with
    | [] => exact Option.some.inj hat ▸ (IsStatement.whileLoop hcondition hne hbody).isWellFormed
    | 0 :: path => exact hcondition.isWellFormed_of_at? hat
    | 1 :: path => exact isWellFormed_of_block hne hbody ih hat
    | (i + 2) :: path => simp [Node.at?] at hat
  | ifElse hcondition hne hne' haccepted hrefused ih ih' =>
    match path with
    | [] =>
      exact Option.some.inj hat ▸
        (IsStatement.ifElse hcondition hne hne' haccepted hrefused).isWellFormed
    | 0 :: path => exact hcondition.isWellFormed_of_at? hat
    | 1 :: path => exact isWellFormed_of_block hne haccepted ih hat
    | 2 :: path => exact isWellFormed_of_block hne' hrefused ih' hat
    | (i + 3) :: path => simp [Node.at?] at hat

/-- Every node of a program is well-formed. -/
theorem IsProgram.isWellFormed_of_at? {tree m : Node} {path : Path} (h : tree.IsProgram good)
    (hat : tree.at? path = some m) : m.IsWellFormed good := by
  obtain ⟨hne, hprocedures⟩ := h
  match path with
  | [] =>
    obtain rfl := Option.some.inj hat
    exact isWellFormed_of_kind rfl (by simp)
  | i :: path =>
    obtain ⟨procedure, hprocedure, hat⟩ := Option.bind_eq_some_iff.mp hat
    obtain ⟨htoken, hname, hne, hbody⟩ := hprocedures procedure (List.mem_of_getElem? hprocedure)
    match path with
    | [] =>
      obtain rfl := Option.some.inj hat
      exact ⟨nofun, nofun, fun _ => ⟨_, htoken, hname, rfl⟩, nofun⟩
    | 0 :: path =>
      exact isWellFormed_of_block hne hbody (fun s hs _ hat => (hbody s hs).isWellFormed_of_at? hat)
        hat
    | (j + 1) :: path => simp [Node.at?] at hat

/-! ## Counting statements -/

/-- How many statements a tree has. -/
def statementCount (n : Node) : Nat :=
  (n.walk.filter fun entry => entry.2.kind.isStatement).length

/-- How many statements some trees have together. -/
def statementCounts (ns : List Node) : Nat :=
  ns.foldr (fun n count => n.statementCount + count) 0

@[simp]
theorem statementCounts_nil : statementCounts [] = 0 :=
  rfl

@[simp]
theorem statementCounts_cons (n : Node) (ns : List Node) :
    statementCounts (n :: ns) = n.statementCount + statementCounts ns :=
  rfl

theorem length_filter_walkFrom (i : Nat) (ns : List Node) :
    ((walkFrom i ns).filter fun entry => entry.2.kind.isStatement).length =
      statementCounts ns := by
  induction ns generalizing i with
  | nil => rfl
  | cons n ns ih =>
    simp only [walkFrom, List.filter_append, List.length_append, ih, List.filter_map,
      List.length_map, statementCounts_cons]
    rfl

theorem statementCount_mk (kind : NodeKind) (line : Option Nat) (name constant : String)
    (children : List Node) :
    statementCount ⟨kind, line, name, constant, children⟩ =
      (if kind.isStatement then 1 else 0) + statementCounts children := by
  rw [statementCount, walk, List.filter_cons, ← length_filter_walkFrom 0]
  split
  · rw [List.length_cons, Nat.add_comm]
  · rw [Nat.zero_add]

theorem statementCount_eq_zero {n : Node}
    (h : ∀ path m, n.at? path = some m → m.kind.isStatement = false) : n.statementCount = 0 := by
  rw [statementCount, List.length_eq_zero_iff, List.filter_eq_nil_iff]
  rintro ⟨path, m⟩ hmem
  simp [h path m (mem_walk.mp hmem)]

theorem IsExpression.statementCount_eq {n : Node} (h : n.IsExpression good) :
    n.statementCount = 0 :=
  statementCount_eq_zero fun _ _ hat => (h.at? hat).kind_eq.1

theorem IsCondition.statementCount_eq {n : Node} (h : n.IsCondition good) :
    n.statementCount = 0 :=
  statementCount_eq_zero fun _ _ hat => (h.kind_eq_of_at? hat).1

end Node

/-! ## The layout of what is derived -/

namespace Grammar

section Layout

variable {good : Token → Prop} {ts : List Token} {n : Node}

/-- Chains of expressions are expressions, if the signs between them stand for operations. -/
theorem isExpression_of_chain {signs : List (TokenKind × NodeKind)}
    (hsigns : ∀ entry ∈ signs,
      entry.2 ∈ [NodeKind.plus, .minus, .multiply, .divide, .modulo])
    {operand : List Token → Node → Prop}
    (hoperand : ∀ ts n, operand ts n → (∀ t ∈ ts, good t) → n.IsExpression good)
    (h : Chain signs operand ts n) (hgood : ∀ t ∈ ts, good t) : n.IsExpression good := by
  induction h with
  | single h => exact hoperand _ _ h hgood
  | operation _ hsign hright ih =>
    obtain ⟨hts, hrest⟩ := List.forall_mem_append.mp hgood
    exact .operation (hsigns _ hsign) (ih hts)
      (hoperand _ _ hright (List.forall_mem_cons.mp hrest).2)

theorem isExpression_of_sum {factor : List Token → Node → Prop}
    (hfactor : ∀ ts n, factor ts n → (∀ t ∈ ts, good t) → n.IsExpression good)
    (h : Chain additiveSigns (Chain multiplicativeSigns factor) ts n)
    (hgood : ∀ t ∈ ts, good t) : n.IsExpression good :=
  isExpression_of_chain (by decide)
    (fun _ _ h hgood => isExpression_of_chain (by decide) hfactor h hgood) h hgood

theorem isExpression_of_factor (h : Factor ts n) (hgood : ∀ t ∈ ts, good t) :
    n.IsExpression good := by
  refine Factor.induction (motive := fun ts n => (∀ t ∈ ts, good t) → n.IsExpression good)
    ?name ?integer ?parenthesised h hgood
  case name => exact fun ht hgood => .name (hgood _ List.mem_cons_self) ht
  case integer => exact fun ht hgood => .integer (hgood _ List.mem_cons_self) ht
  case parenthesised =>
    intro opening closing ts n _ hinner _ hgood
    exact isExpression_of_sum (fun _ _ h => h) hinner fun t ht => hgood t (by simp [ht])

/-- Expressions have their layout. -/
theorem isExpression_of_expression (h : Expression ts n) (hgood : ∀ t ∈ ts, good t) :
    n.IsExpression good :=
  isExpression_of_sum (fun _ _ h hgood => isExpression_of_factor h hgood) h hgood

/-- Conditions have their layout. -/
theorem isCondition_of_condition (h : Condition ts n) (hgood : ∀ t ∈ ts, good t) :
    n.IsCondition good := by
  induction h with
  | @comparison _ _ sign kind _ _ hleft hsign hright =>
    have hkind : ∀ entry ∈ comparisonSigns, entry.2 ∈
        [NodeKind.greater, .greaterEq, .less, .lessEq, .equal, .notEqual] := by decide
    obtain ⟨hts, hrest⟩ := List.forall_mem_append.mp hgood
    exact .comparison (hkind _ hsign) (isExpression_of_expression (side_iff.mp hleft) hts)
      (isExpression_of_expression (side_iff.mp hright) (List.forall_mem_cons.mp hrest).2)
  | negation _ _ _ _ ih => exact .negation (ih fun t ht => hgood t (by simp [ht]))
  | connection _ _ _ hsign _ _ _ ihl ihr =>
    have hkind : ∀ entry ∈ connectiveSigns, entry.2 ∈ [NodeKind.and, .or] := by decide
    exact .connection (hkind _ hsign) (ihl fun t ht => hgood t (by simp [ht]))
      (ihr fun t ht => hgood t (by simp [ht]))

theorem isBlock_of_block {statement : List Token → Node → Prop}
    (hstatement : ∀ ts n, statement ts n → (∀ t ∈ ts, good t) → n.IsStatement good)
    (h : Block statement ts n) (hgood : ∀ t ∈ ts, good t) : n.IsBlock good := by
  obtain ⟨-, hne, hbody, -⟩ := h
  refine ⟨_, _, rfl, hne, forall_of_repeated hbody fun us n hus h => ?_⟩
  exact hstatement us n h fun t ht => hgood t (by simp [hus ht])

/-- Statements have their layout. -/
theorem isStatement_of_statement (h : Statement ts n) (hgood : ∀ t ∈ ts, good t) :
    n.IsStatement good := by
  refine Statement.induction (motive := fun ts n => (∀ t ∈ ts, good t) → n.IsStatement good)
    ?named ?whileLoop ?ifElse ?assign h hgood
  case named =>
    intro word name semicolon text kind hmem _ hname _ hgood
    have hkind : ∀ entry ∈ namedStatements, entry.2 ∈ [NodeKind.read, .print, .call] := by decide
    exact .named (hkind _ hmem) (hgood _ (by simp)) hname
  case whileLoop =>
    intro word opening closing ts us condition body _ _ hcondition _ hbody hgood
    obtain ⟨line, body, rfl, hne, hbody⟩ :=
      isBlock_of_block (fun _ _ h => h) hbody fun t ht => hgood t (by simp [ht])
    exact .whileLoop (isCondition_of_condition hcondition fun t ht => hgood t (by simp [ht])) hne
      hbody
  case ifElse =>
    intro word opening closing word' word'' ts us vs condition accepted refused _ _ hcondition _ _
      haccepted _ hrefused hgood
    obtain ⟨line, accepted, rfl, hne, haccepted⟩ :=
      isBlock_of_block (fun _ _ h => h) haccepted fun t ht => hgood t (by simp [ht])
    obtain ⟨line', refused, rfl, hne', hrefused⟩ :=
      isBlock_of_block (fun _ _ h => h) hrefused fun t ht => hgood t (by simp [ht])
    exact .ifElse (isCondition_of_condition hcondition fun t ht => hgood t (by simp [ht])) hne hne'
      haccepted hrefused
  case assign =>
    intro target sign semicolon ts value htarget _ hvalue _ hgood
    exact .assign (hgood _ List.mem_cons_self) htarget
      (isExpression_of_expression hvalue fun t ht => hgood t (by simp [ht]))

theorem isProcedure_of_procedure (h : Procedure ts n) (hgood : ∀ t ∈ ts, good t) :
    n.IsProcedure good := by
  obtain ⟨-, hname, hbody⟩ := h
  obtain ⟨line, body, rfl, hne, hbody⟩ :=
    isBlock_of_block (fun _ _ h hgood => isStatement_of_statement h hgood) hbody fun t ht =>
      hgood t (by simp [ht])
  exact .intro (hgood _ (by simp)) hname hne hbody

end Layout

section Count

variable {ts : List Token} {n : Node}

theorem statementCount_of_condition (h : Condition ts n) : n.statementCount = 0 := by
  have hlayout : n.IsCondition fun _ => True := isCondition_of_condition h fun _ _ => trivial
  exact hlayout.statementCount_eq

theorem statementCount_of_expression (h : Expression ts n) : n.statementCount = 0 := by
  have hlayout : n.IsExpression fun _ => True := isExpression_of_expression h fun _ _ => trivial
  exact hlayout.statementCount_eq

theorem statementCount_ofName {t : Token} (ht : t.kind = .name) :
    (Node.ofName t).statementCount = 0 :=
  statementCount_of_expression (.single (.single (.name ht)))

theorem statementCounts_le_of_repeated {item : List Token → Node → Prop}
    (hitem : ∀ ts n, item ts n → n.statementCount ≤ ts.length) {ns : List Node}
    (h : Repeated item ts ns) : Node.statementCounts ns ≤ ts.length := by
  induction h with
  | nil => exact Nat.le_refl 0
  | cons hn _ ih =>
    rw [Node.statementCounts_cons, List.length_append]
    exact Nat.add_le_add (hitem _ _ hn) ih

/-- The braces of a block are tokens of its own. -/
theorem statementCount_lt_of_block {statement : List Token → Node → Prop}
    (hstatement : ∀ ts n, statement ts n → n.statementCount ≤ ts.length)
    (h : Block statement ts n) : n.statementCount < ts.length := by
  obtain ⟨-, -, hbody, -⟩ := h
  have hle := statementCounts_le_of_repeated hstatement hbody
  rw [Node.block, Node.statementCount_mk]
  simp only [NodeKind.isStatement, Bool.false_eq_true, if_false, List.cons_append,
    List.length_cons, List.length_append]
  omega

/-- A statement is derived from at least as many tokens as there are statements in it. -/
theorem statementCount_le_of_statement (h : Statement ts n) : n.statementCount ≤ ts.length := by
  refine Statement.induction (motive := fun ts n => n.statementCount ≤ ts.length)
    ?named ?whileLoop ?ifElse ?assign h
  case named =>
    intro word name semicolon text kind _ _ hname _
    rw [Node.statementCount_mk, Node.statementCounts_cons, Node.statementCounts_nil,
      statementCount_ofName hname]
    split <;> simp
  case whileLoop =>
    intro word opening closing ts us condition body _ _ hcondition _ hbody
    have hlt := statementCount_lt_of_block (fun _ _ h => h) hbody
    rw [Node.statementCount_mk, Node.statementCounts_cons, Node.statementCounts_cons,
      Node.statementCounts_nil, statementCount_of_condition hcondition]
    simp only [NodeKind.isStatement, if_true, List.cons_append, List.length_cons,
      List.length_append]
    omega
  case ifElse =>
    intro word opening closing word' word'' ts us vs condition accepted refused _ _ hcondition _ _
      haccepted _ hrefused
    have hlt := statementCount_lt_of_block (fun _ _ h => h) haccepted
    have hlt' := statementCount_lt_of_block (fun _ _ h => h) hrefused
    rw [Node.statementCount_mk, Node.statementCounts_cons, Node.statementCounts_cons,
      Node.statementCounts_cons, Node.statementCounts_nil, statementCount_of_condition hcondition]
    simp only [NodeKind.isStatement, if_true, List.cons_append, List.append_assoc,
      List.length_cons, List.length_append]
    omega
  case assign =>
    intro target sign semicolon ts value htarget _ hvalue _
    rw [Node.statementCount_mk, Node.statementCounts_cons, Node.statementCounts_cons,
      Node.statementCounts_nil, statementCount_ofName htarget, statementCount_of_expression hvalue]
    simp [NodeKind.isStatement]

theorem statementCount_le_of_procedure (h : Procedure ts n) : n.statementCount ≤ ts.length := by
  obtain ⟨-, -, hbody⟩ := h
  have hlt := statementCount_lt_of_block (fun _ _ h => statementCount_le_of_statement h) hbody
  rw [Node.statementCount_mk, Node.statementCounts_cons, Node.statementCounts_nil]
  simp only [NodeKind.isStatement, Bool.false_eq_true, if_false, List.length_cons]
  omega

end Count

end Grammar

/-- What is read as a program has the layout of a program. -/
theorem isProgram_of_parseProgram {good : Token → Prop} {ts : List Token} {tree : Node}
    (h : parseProgram ts = .ok tree) (hgood : ∀ t ∈ ts, good t) : tree.IsProgram good := by
  obtain ⟨hne, hprocedures⟩ := Grammar.program_of_parseProgram h
  refine .intro hne (Grammar.forall_of_repeated hprocedures fun us n hus h => ?_)
  exact Grammar.isProcedure_of_procedure h fun t ht => hgood t (hus ht)

/-- A program has no more statements than tokens. -/
theorem statementCount_le_of_parseProgram {ts : List Token} {tree : Node}
    (h : parseProgram ts = .ok tree) : tree.statementCount ≤ ts.length := by
  obtain ⟨-, hprocedures⟩ := Grammar.program_of_parseProgram h
  have hle := Grammar.statementCounts_le_of_repeated
    (fun _ _ h => Grammar.statementCount_le_of_procedure h) hprocedures
  rw [Node.statementCount_mk]
  simpa [NodeKind.isStatement] using hle

end ProgramQuery
