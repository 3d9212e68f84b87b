import ProgramQuery.Facts.Entity
import ProgramQuery.Proofs.AccessRules
import ProgramQuery.Proofs.ControlFlow
import ProgramQuery.Proofs.Tokenization
import ProgramQuery.Proofs.ReachingDefinitions

/-!
# The facts of a program are about that program

Whatever the facts of a program relate are statements of the program or names, and never the
one in place of the other. There are fewer statements than characters, so every statement number is
a numeral. Every assignment modifies its target, and every statement about a single name has it.

## Main definitions

- `FinRel.IsBetween`: what a relation relates.
- `Facts.IsWellFormed`: the facts are about statements and names.

## Main statements

- `isWellFormed_of_ofSource`: the facts of a program text are well-formed.
- `exists_mem_statementAccesses`: what a procedure accesses, some statement accesses.
-/

namespace ProgramQuery

/-- The relation is from elements of one sort to elements of another. -/
def FinRel.IsBetween {α β : Type} [Ord α] [Ord β] (r : FinRel α β) (P : α → Prop) (Q : β → Prop) :
    Prop :=
  ∀ a b, (a, b) ∈ r.pairs → P a ∧ Q b

/-- Whether a number is that of a statement. -/
def Facts.IsStatement (facts : Facts) (s : Nat) : Prop :=
  s ∈ facts.statements

/-- The facts relate statements of the program and names, each at its place. -/
structure Facts.IsWellFormed (facts : Facts) : Prop where
  size_lt : facts.kinds.size < numeralBound
  variableNames : ∀ x ∈ facts.variableNames, IsName x
  constants : ∀ x ∈ facts.constants, IsNumber x
  procedures : ∀ x ∈ facts.procedures, IsName x
  follows : facts.follows.IsBetween facts.IsStatement facts.IsStatement
  parent : facts.parent.IsBetween facts.IsStatement facts.IsStatement
  next : facts.next.IsBetween facts.IsStatement facts.IsStatement
  affects : facts.affects.IsBetween facts.IsStatement facts.IsStatement
  calls : facts.calls.IsBetween IsName IsName
  uses : facts.uses.IsBetween facts.IsStatement IsName
  procedureUses : facts.procedureUses.IsBetween IsName IsName
  modifies : facts.modifies.IsBetween facts.IsStatement IsName
  procedureModifies : facts.procedureModifies.IsBetween IsName IsName
  conditions : facts.conditions.IsBetween facts.IsStatement IsName
  operands : facts.operands.IsBetween facts.IsStatement IsName
  exists_operand : ∀ s kind, kind ∈ [NodeKind.call, .read, .print] →
    facts.kindOf? s = some kind → ∃ name, (s, name) ∈ facts.operands.pairs
  exists_target : ∀ s, facts.kindOf? s = some .assign → ∃ x, (s, x) ∈ facts.modifies.pairs
  occurrences : ∀ text, ∀ o ∈ facts.occurrences.getD text [],
    (o.statement, o.target) ∈ facts.modifies.pairs

/-! ## Statements -/

theorem Facts.isStatement_iff {facts : Facts} {s : Nat} :
    facts.IsStatement s ↔ 1 ≤ s ∧ s ≤ facts.kinds.size := by
  rw [Facts.IsStatement, Facts.statements, List.mem_range'_1]
  omega

theorem Facts.isStatement_of_kindOf? {facts : Facts} {s : Nat} {kind : NodeKind}
    (h : facts.kindOf? s = some kind) : facts.IsStatement s := by
  rw [isStatement_iff]
  cases s with
  | zero => cases h
  | succ s =>
    obtain ⟨hlt, -⟩ := Array.getElem?_eq_some_iff.mp h
    omega

section Gather

variable {tree : Node} {order : List String}

theorem length_statements (tree : Node) : tree.statements.length = tree.statementCount := by
  simp [Node.statements, Node.select_eq, Node.statementCount]

theorem size_kinds_gather : (Facts.gather tree order).kinds.size = tree.statementCount := by
  simp [Facts.gather, length_statements]

theorem isStatement_of_numberOf? {path : Path} {s : Nat}
    (h : (Numbering.ofTree tree).numberOf? path = some s) :
    (Facts.gather tree order).IsStatement s := by
  obtain ⟨hpos, hle⟩ := Numbering.numberOf?_bounds h
  have hcount : (Numbering.ofTree tree).count = tree.statementCount := by
    simp [Numbering.count, Numbering.paths_ofTree, Node.statementCount]
  rw [Facts.isStatement_iff, size_kinds_gather]
  omega

theorem isStatement_of_mem_statements {s : Statement} (h : s ∈ tree.statements) :
    (Facts.gather tree order).IsStatement s.number :=
  isStatement_of_numberOf? (Node.mem_statements.mp h).2.2

theorem isStatement_of_mem_membersAt {path : Path} {s : Nat}
    (h : s ∈ (Numbering.ofTree tree).membersAt tree path) :
    (Facts.gather tree order).IsStatement s := by
  unfold Numbering.membersAt at h
  split at h
  · cases h
  · obtain ⟨i, -, hnumber⟩ := List.mem_filterMap.mp h
    exact isStatement_of_numberOf? hnumber

/-- The kind of a statement is that of its node. -/
theorem exists_of_kindOf? {s : Nat} {kind : NodeKind}
    (h : (Facts.gather tree order).kindOf? s = some kind) :
    ∃ st ∈ tree.statements, st.number = s ∧ st.node.kind = kind := by
  cases s with
  | zero => cases h
  | succ i =>
    have hget : (tree.statements.map fun st => st.node.kind)[i]? = some kind := by
      simpa [Facts.gather, Facts.kindOf?, kindAt?] using h
    rw [List.getElem?_map, Option.map_eq_some_iff] at hget
    obtain ⟨st, hst, hkind⟩ := hget
    refine ⟨st, List.mem_of_getElem? hst, ?_, hkind⟩
    rw [Node.statements, List.getElem?_map, Option.map_eq_some_iff] at hst
    obtain ⟨entry, hentry, rfl⟩ := hst
    rw [List.getElem?_zipIdx, Option.map_eq_some_iff] at hentry
    obtain ⟨part, -, rfl⟩ := hentry
    exact Nat.add_comm 1 i

/-! ## Relations between statements -/

theorem mem_of_mem_neighbours {α : Type} {l : List α} {a b : α} (h : (a, b) ∈ neighbours l) :
    a ∈ l ∧ b ∈ l :=
  ⟨(List.of_mem_zip h).1, List.mem_of_mem_tail (List.of_mem_zip h).2⟩

theorem isBetween_follows : tree.follows.IsBetween (Facts.gather tree order).IsStatement
    (Facts.gather tree order).IsStatement := by
  intro a b h
  obtain ⟨path, -, h⟩ := List.mem_flatMap.mp h
  obtain ⟨ha, hb⟩ := mem_of_mem_neighbours h
  exact ⟨isStatement_of_mem_membersAt ha, isStatement_of_mem_membersAt hb⟩

theorem isBetween_parents : tree.parents.IsBetween (Facts.gather tree order).IsStatement
    (Facts.gather tree order).IsStatement := by
  intro a b h
  obtain ⟨s, hs, h⟩ := List.mem_flatMap.mp h
  obtain ⟨i, -, h⟩ := List.mem_flatMap.mp h
  obtain ⟨member, hmember, heq⟩ := List.mem_map.mp h
  obtain ⟨rfl, rfl⟩ := Prod.mk.inj heq
  exact ⟨isStatement_of_mem_statements (List.mem_filter.mp hs).1,
    isStatement_of_mem_membersAt hmember⟩

theorem isBetween_successors {good : Token → Prop} (h : tree.IsProgram good) :
    tree.successors.IsBetween (Facts.gather tree order).IsStatement
      (Facts.gather tree order).IsStatement := by
  intro a b hab
  obtain ⟨e, he, heq⟩ := List.mem_map.mp ((Node.mem_successors h).mp hab)
  obtain ⟨rfl, rfl⟩ := Prod.mk.inj heq
  obtain ⟨ha, hb⟩ := h.exists_numberOf? he
  exact ⟨isStatement_of_numberOf? ha, isStatement_of_numberOf? hb⟩

theorem isBetween_affects {good : Token → Prop} (h : tree.IsProgram good) :
    (Facts.gather tree order).affects.IsBetween (Facts.gather tree order).IsStatement
      (Facts.gather tree order).IsStatement := by
  intro a b hab
  obtain ⟨s, hs, hab⟩ := List.mem_flatMap.mp hab
  obtain ⟨d, hd, heq⟩ := List.mem_map.mp hab
  obtain ⟨rfl, rfl⟩ := Prod.mk.inj heq
  have hnext : tree.successors.IsBetween (Facts.gather tree order).IsStatement
      (Facts.gather tree order).IsStatement := isBetween_successors h
  -- A definition that arrives was made by an assignment, and assignments are statements.
  have hassign := (FlowGraph.mem_arriving_run ?_).mp (List.mem_filter.mp hd).1
  · exact ⟨FlowGraph.mem_statements_of_isAssign hassign.1, (List.mem_filter.mp hs).1⟩
  · exact fun p hp => hnext p.1 p.2 hp

/-! ## Names -/

variable (h : tree.IsProgram Token.IsLexical)

include h

theorem namesHave_isName : tree.NamesHave IsName := by
  intro path m hat hkind
  obtain ⟨t, ht, htoken, hname⟩ := (h.isWellFormed_of_at? hat).name (.inl hkind)
  exact hname ▸ ht.isName htoken

theorem isName_of_procedure {n : Node} {path : Path} (hat : tree.at? path = some n)
    (hkind : n.kind = .procedure) : IsName n.name := by
  obtain ⟨t, ht, htoken, hname⟩ := (h.isWellFormed_of_at? hat).name (.inr hkind)
  exact hname ▸ ht.isName htoken

theorem isName_of_mem_procedureNames {name : String} (hname : name ∈ tree.procedureNames) :
    IsName name := by
  obtain ⟨procedure, hmem, rfl⟩ := List.mem_map.mp hname
  obtain ⟨i, hi⟩ := List.getElem?_of_mem hmem
  have hat : tree.at? [i] = some procedure := by simp [Node.at?, hi]
  have hkind : procedure.kind = .procedure := by
    obtain ⟨-, hprocedures⟩ := h
    obtain ⟨-, -, -, -⟩ := hprocedures procedure hmem
    rfl
  exact isName_of_procedure h hat hkind

theorem isName_operandName {m : Node} {path : Path} (hat : tree.at? path = some m)
    (hkind : m.kind ∈ [NodeKind.call, .read, .print]) : IsName m.operandName := by
  have hstatement : m.kind.isStatement = true := by
    revert hkind
    cases m.kind <;> simp [NodeKind.isStatement]
  cases (h.isWellFormed_of_at? hat).statement hstatement with
  | named _ htoken hname => exact htoken.isName hname
  | assign | whileLoop | ifElse => simp at hkind

theorem isBetween_calls : tree.calls.IsBetween IsName IsName := by
  intro a b hab
  obtain ⟨procedure, hmem, hab⟩ := List.mem_flatMap.mp hab
  obtain ⟨target, htarget, heq⟩ := List.mem_map.mp hab
  obtain ⟨rfl, rfl⟩ := Prod.mk.inj heq
  refine ⟨isName_of_mem_procedureNames h (List.mem_map.mpr ⟨procedure, hmem, rfl⟩), ?_⟩
  obtain ⟨m, hm, hcall⟩ := List.mem_filterMap.mp htarget
  obtain ⟨path, hat⟩ := Node.mem_nodes.mp hm
  obtain ⟨i, hi⟩ := List.getElem?_of_mem hmem
  have hroot : tree.at? (i :: path) = some m := by simp [Node.at?, hi, hat]
  split at hcall
  · rename_i hkind
    exact Option.some.inj hcall ▸ isName_operandName h hroot (by simp [hkind])
  · cases hcall

theorem isBetween_ofStatements (access : Access) :
    ((Access.summary access tree order).ofStatements (Numbering.ofTree tree)).IsBetween
      (Facts.gather tree order).IsStatement IsName := by
  intro a b hab
  obtain ⟨entry, hentry, hab⟩ := List.mem_flatMap.mp hab
  split at hab
  · cases hab
  · rename_i number hnumber
    obtain ⟨name, hname, heq⟩ := List.mem_map.mp hab
    obtain ⟨rfl, rfl⟩ := Prod.mk.inj heq
    exact ⟨isStatement_of_numberOf? hnumber,
      (Access.namesHave_summary access (namesHave_isName h) order).byPath entry hentry _ hname⟩

theorem isBetween_ofProcedures (access : Access) :
    ((Access.summary access tree order).ofProcedures tree).IsBetween IsName IsName := by
  intro a b hab
  obtain ⟨entry, hentry, hab⟩ := List.mem_flatMap.mp hab
  split at hab
  · cases hab
  · rename_i n hat
    split at hab
    · rename_i hkind
      obtain ⟨name, hname, heq⟩ := List.mem_map.mp hab
      obtain ⟨rfl, rfl⟩ := Prod.mk.inj heq
      exact ⟨isName_of_procedure h hat hkind,
        (Access.namesHave_summary access (namesHave_isName h) order).byPath entry hentry _ hname⟩
    · cases hab

theorem isBetween_conditionVariables :
    tree.conditionVariables.IsBetween (Facts.gather tree order).IsStatement IsName := by
  intro a b hab
  obtain ⟨s, hs, hab⟩ := List.mem_flatMap.mp hab
  have hmem := (List.mem_filter.mp hs).1
  obtain ⟨name, hname, heq⟩ := List.mem_map.mp hab
  obtain ⟨rfl, rfl⟩ := Prod.mk.inj heq
  refine ⟨isStatement_of_mem_statements hmem, ?_⟩
  have hnames := (namesHave_isName h).of_at? (Node.mem_statements.mp hmem).1
  rw [List.head?_eq_getElem?] at hname
  exact Access.of_mem_childVariables hnames hname

theorem isBetween_operands :
    tree.operands.IsBetween (Facts.gather tree order).IsStatement IsName := by
  intro a b hab
  obtain ⟨s, hs, heq⟩ := List.mem_map.mp hab
  obtain ⟨rfl, rfl⟩ := Prod.mk.inj heq
  obtain ⟨hmem, hkind⟩ := List.mem_filter.mp hs
  exact ⟨isStatement_of_mem_statements hmem,
    isName_operandName h (Node.mem_statements.mp hmem).1 (of_decide_eq_true hkind)⟩

theorem isName_of_mem_ownVariables {x : String} (hx : x ∈ tree.ownVariables) : IsName x := by
  obtain ⟨n, hn, hx⟩ := List.mem_flatMap.mp hx
  obtain ⟨path, hat⟩ := Node.mem_nodes.mp hn
  split at hx
  · cases hx
  · obtain ⟨child, hchild, hx⟩ := List.mem_filterMap.mp hx
    obtain ⟨i, hi⟩ := List.getElem?_of_mem hchild
    split at hx
    · rename_i hkind
      have hnames := ((namesHave_isName h).of_at? hat).child hi
      exact Option.some.inj hx ▸ hnames [] child rfl hkind
    · cases hx

theorem isNumber_of_mem_constants {x : String} (hx : x ∈ tree.constants) : IsNumber x := by
  obtain ⟨n, hn, hx⟩ := List.mem_filterMap.mp hx
  obtain ⟨path, hat⟩ := Node.mem_nodes.mp hn
  split at hx
  · rename_i hkind
    obtain ⟨t, ht, htoken, hconstant⟩ := (h.isWellFormed_of_at? hat).constant hkind
    exact Option.some.inj hx ▸ hconstant ▸ ht.isNumber htoken
  · cases hx

/-! ## Whole programs -/

theorem occurrence_mem_modifies
    (hexact : (Access.summary .modifies tree order).IsExact tree .modifies order)
    (horder : ∀ name ∈ tree.procedureNames, name ∈ order) {text : String} {o : Occurrence}
    (ho : o ∈ (Facts.gather tree order).occurrences.getD text []) :
    (o.statement, o.target) ∈ (Facts.gather tree order).modifies.pairs := by
  have hmem : (text, o) ∈ tree.occurrences.map fun o => (o.text, o) := mem_getD_groupPairs.mp ho
  obtain ⟨o', ho', heq⟩ := List.mem_map.mp hmem
  obtain ⟨-, rfl⟩ := Prod.mk.inj heq
  obtain ⟨s, hs, hos⟩ := List.mem_flatMap.mp ho'
  obtain ⟨hs, hkind⟩ := List.mem_filter.mp hs
  have htarget :=
    Access.mem_ofStatements_of_assign h hexact horder rfl hs (of_decide_eq_true hkind)
  have ho : o'.statement = s.number ∧ o'.target = s.node.operandName := by
    unfold Statement.occurrences at hos
    unfold Node.operandName
    split at hos
    · rename_i target value rest hchildren
      rw [hchildren]
      rcases List.mem_append.mp hos with hpart | hwhole
      · obtain ⟨part, -, rfl⟩ := List.mem_map.mp hpart
        exact ⟨rfl, rfl⟩
      · obtain rfl := List.mem_singleton.mp hwhole
        exact ⟨rfl, rfl⟩
    · cases hos
  rw [ho.1, ho.2]
  exact htarget

theorem isWellFormed_gather (hcount : tree.statementCount < numeralBound)
    (hexact : (Access.summary .modifies tree order).IsExact tree .modifies order)
    (horder : ∀ name ∈ tree.procedureNames, name ∈ order) :
    (Facts.gather tree order).IsWellFormed where
  size_lt := size_kinds_gather ▸ hcount
  variableNames := fun x hx => isName_of_mem_ownVariables h (mem_ascending.mp hx)
  constants := fun x hx => isNumber_of_mem_constants h (mem_ascending.mp hx)
  procedures := fun x hx => isName_of_mem_procedureNames h (mem_ascending.mp hx)
  follows := isBetween_follows
  parent := isBetween_parents
  next := isBetween_successors h
  affects := isBetween_affects h
  calls := isBetween_calls h
  uses := isBetween_ofStatements h .uses
  procedureUses := isBetween_ofProcedures h .uses
  modifies := isBetween_ofStatements h .modifies
  procedureModifies := isBetween_ofProcedures h .modifies
  conditions := isBetween_conditionVariables h
  operands := isBetween_operands h
  exists_operand := by
    intro s kind hkind hs
    obtain ⟨st, hst, rfl, rfl⟩ := exists_of_kindOf? hs
    refine ⟨st.node.operandName, List.mem_map.mpr ⟨st, List.mem_filter.mpr ⟨hst, ?_⟩, rfl⟩⟩
    exact decide_eq_true hkind
  exists_target := by
    intro s hs
    obtain ⟨st, hst, rfl, hkind⟩ := exists_of_kindOf? hs
    exact ⟨_, Access.mem_ofStatements_of_assign h hexact horder rfl hst hkind⟩
  occurrences := fun text o ho => occurrence_mem_modifies h hexact horder ho

end Gather

/-- The facts of a program text are gathered from its tree. -/
theorem exists_of_ofSource {text : String} {facts : Facts} (h : Facts.ofSource text = .ok facts) :
    ∃ ts tree order, tokenize text = .ok ts ∧ parseProgram ts = .ok tree ∧
      tree.validate = .ok () ∧ tree.callOrder = .ok order ∧ facts = Facts.gather tree order := by
  obtain ⟨tree, htree, h⟩ := exists_of_bind_eq_ok h
  obtain ⟨ts, hts, hparse⟩ := exists_of_bind_eq_ok (eq_ok_of_mapError htree)
  obtain ⟨⟨⟩, hvalid, h⟩ := exists_of_bind_eq_ok (eq_ok_of_mapError h)
  obtain ⟨order, horder, h⟩ := exists_of_bind_eq_ok h
  exact ⟨ts, tree, order, eq_ok_of_mapError hts, eq_ok_of_mapError hparse, hvalid, horder,
    (Except.ok.inj h).symm⟩

/-- The facts of a program text are well-formed, if the text has fewer characters than there are
numerals. -/
theorem isWellFormed_of_ofSource {text : String} {facts : Facts}
    (h : Facts.ofSource text = .ok facts) (hlength : text.length < numeralBound) :
    facts.IsWellFormed := by
  obtain ⟨ts, tree, order, hts, hparse, hvalid, horder, rfl⟩ := exists_of_ofSource h
  have hcount : tree.statementCount < numeralBound :=
    calc tree.statementCount ≤ ts.length := statementCount_le_of_parseProgram hparse
      _ ≤ text.length := length_le_of_tokenize hts
      _ < numeralBound := hlength
  have hprogram := isProgram_of_parseProgram hparse (isLexical_of_tokenize hts)
  exact isWellFormed_gather hprogram hcount
    (Access.isExact_summary hprogram hvalid (calleesFirst_callOrder horder) .modifies)
    (mem_callOrder horder)

/-- What a procedure accesses, some statement accesses. -/
theorem exists_mem_statementAccesses {text : String} {facts : Facts}
    (h : Facts.ofSource text = .ok facts) {access : Access} {name x : String}
    (hx : (name, x) ∈ (facts.procedureAccesses access).pairs) :
    ∃ s, (s, x) ∈ (facts.statementAccesses access).pairs := by
  obtain ⟨ts, tree, order, hts, hparse, hvalid, horder, rfl⟩ := exists_of_ofSource h
  have hprogram := isProgram_of_parseProgram hparse (isLexical_of_tokenize hts)
  rw [Facts.procedureAccesses_gather] at hx
  rw [Facts.statementAccesses_gather]
  obtain ⟨s, hs⟩ := Access.exists_mem_ofStatements hprogram
    (Access.isExact_summary hprogram hvalid (calleesFirst_callOrder horder) access)
    (mem_callOrder horder) (FinRel.mem_image.mpr hx)
  exact ⟨s, FinRel.mem_image.mp hs⟩

end ProgramQuery
