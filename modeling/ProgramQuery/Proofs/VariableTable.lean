import ProgramQuery.Proofs.StrictLookups
import ProgramQuery.Proofs.TreePosition
import ProgramQuery.Proofs.Views
import ProgramQuery.Query.Evaluation

/-!
# The table of variables

The variables of a program are found twice. One walk lists the names below all nodes but calls. The
other one goes through the procedures, callees first, and records what the statements use and
modify; it looks only where a statement of that kind has its variables. Both find the same names.
So the table has no name that is only called, and has all variables that any relation leads to.

## Main statements

- `Node.IsStatement.exists_accesses`: a statement accesses all variables that are listed below it.
- `Accesses.mem_ownVariables`: whatever is accessed is listed.
- `variableNames_iff_accessed`: the table has the variables that some statement accesses, which are
  those that some procedure accesses.
-/

namespace ProgramQuery

namespace Node

variable {good : Token → Prop} {x : String}

theorem mem_variableNames {n : Node} : x ∈ n.variableNames ↔
    ∃ path m, n.at? path = some m ∧ m.kind = .variableRef ∧ m.name = x := by
  rw [variableNames, List.mem_filterMap]
  constructor
  · rintro ⟨m, hm, hx⟩
    obtain ⟨path, hat⟩ := mem_nodes.mp hm
    obtain ⟨hkind, hname⟩ := Option.ite_none_right_eq_some.mp hx
    exact ⟨path, m, hat, hkind, Option.some.inj hname⟩
  · rintro ⟨path, m, hat, hkind, rfl⟩
    exact ⟨m, mem_nodes.mpr ⟨path, hat⟩, if_pos hkind⟩

/-! ## What is listed below a node -/

theorem mem_ownVariables_of_at? {n m : Node} {path : Path} (hat : n.at? path = some m)
    (hx : x ∈ m.ownVariables) : x ∈ n.ownVariables := by
  obtain ⟨parent, i, k, child, hk, hchild⟩ := mem_ownVariables.mp hx
  refine mem_ownVariables.mpr ⟨path ++ parent, i, k, child, ?_, hchild⟩
  rw [at?_append, hat, Option.bind_some, hk]

theorem mem_ownVariables_iff_child {n : Node} : x ∈ n.ownVariables ↔
    ∃ m ∈ n.children,
      n.kind ≠ .call ∧ m.kind = .variableRef ∧ m.name = x ∨ x ∈ m.ownVariables := by
  constructor
  · intro hx
    obtain ⟨parent, i, k, m, hk, hm, hcall, hname⟩ := mem_ownVariables.mp hx
    cases parent with
    | nil =>
      obtain rfl := Option.some.inj hk
      exact ⟨m, List.mem_of_getElem? hm, .inl ⟨hcall, hname⟩⟩
    | cons j parent =>
      obtain ⟨child, hchild, hk⟩ := Option.bind_eq_some_iff.mp hk
      exact ⟨child, List.mem_of_getElem? hchild,
        .inr (mem_ownVariables.mpr ⟨parent, i, k, m, hk, hm, hcall, hname⟩)⟩
  · rintro ⟨m, hm, ⟨hcall, hname⟩ | hx⟩
    · obtain ⟨i, hi⟩ := List.getElem?_of_mem hm
      exact mem_ownVariables.mpr ⟨[], i, n, m, rfl, hi, hcall, hname⟩
    · obtain ⟨i, hi⟩ := List.getElem?_of_mem hm
      have hat : n.at? [i] = some m := by rw [at?, hi]; rfl
      exact mem_ownVariables_of_at? hat hx

/-- There are no calls in an operand, so all of its variables are listed. -/
theorem IsOperand.mem_variableNames_iff {n : Node} (h : n.IsOperand) :
    x ∈ n.variableNames ↔ n.kind = .variableRef ∧ n.name = x ∨ x ∈ n.ownVariables := by
  rw [mem_variableNames]
  constructor
  · rintro ⟨path, m, hat, hname⟩
    -- a variable is the operand itself, or it has a parent inside the operand
    rcases List.eq_nil_or_concat path with rfl | ⟨parent, i, rfl⟩
    · obtain rfl := Option.some.inj hat
      exact .inl hname
    · rw [List.concat_eq_append] at hat
      obtain ⟨k, hk, hm⟩ := at?_concat_eq_some_iff.mp hat
      have hcall : k.kind ≠ .call := fun hcall => by
        have hno := (h parent k hk).1
        rw [hcall] at hno
        cases hno
      exact .inr (mem_ownVariables.mpr ⟨parent, i, k, m, hk, hm, hcall, hname⟩)
  · rintro (hname | hx)
    · exact ⟨[], n, rfl, hname⟩
    · obtain ⟨parent, i, k, m, hk, hm, -, hname⟩ := mem_ownVariables.mp hx
      exact ⟨parent ++ [i], m, at?_concat_eq_some_iff.mpr ⟨k, hk, hm⟩, hname⟩

/-- Of a statement that is no call and has no blocks, all variables are listed. -/
theorem mem_ownVariables_of_operands {n : Node} (hcall : n.kind ≠ .call)
    (h : ∀ m ∈ n.children, m.IsOperand) :
    x ∈ n.ownVariables ↔ ∃ m ∈ n.children, x ∈ m.variableNames := by
  rw [mem_ownVariables_iff_child]
  refine exists_congr fun m => and_congr_right fun hm => ?_
  rw [(h m hm).mem_variableNames_iff, and_iff_right hcall]

theorem not_mem_ownVariables_call {line : Option Nat} {name constant : String} {t : Token} :
    x ∉ (⟨.call, line, name, constant, [.ofName t]⟩ : Node).ownVariables := by
  rw [mem_ownVariables_iff_child]
  rintro ⟨m, hm, ⟨hcall, -⟩ | hx⟩
  · exact hcall rfl
  · obtain rfl := List.mem_singleton.mp hm
    obtain ⟨k, hk, -⟩ := mem_ownVariables_iff_child.mp hx
    cases hk

theorem mem_ownVariables_block {line : Nat} {body : List Node}
    (hbody : ∀ s ∈ body, s.IsStatement good) :
    x ∈ (block line body).ownVariables ↔ ∃ s ∈ body, x ∈ s.ownVariables := by
  rw [mem_ownVariables_iff_child]
  refine exists_congr fun s => and_congr_right fun hs => or_iff_right ?_
  rintro ⟨-, hkind, -⟩
  have hstatement := (hbody s hs).isStatement_kind
  rw [hkind] at hstatement
  cases hstatement

/-- Below a loop or branching are the variables of its condition and what is below the statements
of its blocks. -/
theorem mem_ownVariables_container {kind : NodeKind} (hkind : kind ≠ .call) {line : Option Nat}
    {name constant : String} {condition : Node} {blocks : List Node}
    (hcondition : condition.IsOperand) (hblocks : ∀ block ∈ blocks, block.IsBlock good) :
    x ∈ (⟨kind, line, name, constant, condition :: blocks⟩ : Node).ownVariables ↔
      x ∈ condition.variableNames ∨
        ∃ block ∈ blocks, ∃ s ∈ block.children, x ∈ s.ownVariables := by
  rw [mem_ownVariables_iff_child, hcondition.mem_variableNames_iff]
  simp only [List.exists_mem_cons_iff, ne_eq, hkind, not_false_eq_true, true_and]
  refine or_congr_right (exists_congr fun block => and_congr_right fun hblock => ?_)
  obtain ⟨line, body, rfl, -, hbody⟩ := hblocks block hblock
  rw [mem_ownVariables_block hbody]
  exact or_iff_right fun hname => NodeKind.noConfusion hname.1

/-! ## Listed variables are accessed -/

theorem isOperand_ofName {t : Token} (htoken : good t) (hname : t.kind = .name) :
    (ofName t).IsOperand :=
  (IsExpression.name htoken hname).isOperand

variable {program : Node}

theorem exists_accesses_of_container {kind : NodeKind}
    (hkind : kind = .whileLoop ∨ kind = .ifElse) {line : Option Nat} {name constant : String}
    {condition : Node} {blocks : List Node} (hcondition : condition.IsCondition good)
    (hblocks : ∀ block ∈ blocks, block.IsBlock good)
    (ih : ∀ block ∈ blocks, ∀ s ∈ block.children, x ∈ s.ownVariables →
      ∃ access, Accesses program access s x)
    (hx : x ∈ (⟨kind, line, name, constant, condition :: blocks⟩ : Node).ownVariables) :
    ∃ access, Accesses program access ⟨kind, line, name, constant, condition :: blocks⟩ x := by
  have hcall : kind ≠ .call := by
    rintro rfl
    simp at hkind
  rcases (mem_ownVariables_container hcall hcondition.isOperand hblocks).mp hx with
    hx | ⟨block, hblock, s, hs, hx⟩
  · exact ⟨.uses, .tested hkind hx⟩
  · obtain ⟨access, haccess⟩ := ih block hblock s hs hx
    exact ⟨access, .nested hkind hblock hs haccess⟩

/-- A statement accesses all variables that are listed below it. -/
theorem IsStatement.exists_accesses {n : Node} (h : n.IsStatement good)
    (hx : x ∈ n.ownVariables) : ∃ access, Accesses program access n x := by
  induction h with
  | @named kind line t hkind htoken hname =>
    have hoperand := isOperand_ofName htoken hname
    by_cases hcall : kind = .call
    · subst hcall
      exact absurd hx not_mem_ownVariables_call
    · obtain ⟨m, hm, hxm⟩ := (mem_ownVariables_of_operands hcall (by simpa using hoperand)).mp hx
      obtain rfl := List.mem_singleton.mp hm
      rw [variableNames_ofName, List.mem_singleton] at hxm
      simp only [List.mem_cons, hcall, List.not_mem_nil, or_false] at hkind
      rcases hkind with rfl | rfl
      · exact ⟨.modifies, hxm ▸ .read⟩
      · exact ⟨.uses, hxm ▸ .printed⟩
  | @assign line target value htoken hname hvalue =>
    have hoperands : ∀ m ∈ [ofName target, value], m.IsOperand := by
      simpa using ⟨isOperand_ofName htoken hname, hvalue.isOperand⟩
    obtain ⟨m, hm, hxm⟩ := (mem_ownVariables_of_operands (by simp) hoperands).mp hx
    rcases List.mem_pair.mp hm with rfl | rfl
    · rw [variableNames_ofName, List.mem_singleton] at hxm
      exact ⟨.modifies, hxm ▸ .assigned⟩
    · exact ⟨.uses, .computed hxm⟩
  | whileLoop hcondition hne hbody ih =>
    refine exists_accesses_of_container (.inl rfl) hcondition (fun block hblock => ?_)
      (fun block hblock s hs => ?_) hx
    · exact ⟨_, _, List.mem_singleton.mp hblock, hne, hbody⟩
    · obtain rfl := List.mem_singleton.mp hblock
      exact ih s hs
  | ifElse hcondition hne hne' haccepted hrefused ih ih' =>
    refine exists_accesses_of_container (.inr rfl) hcondition (fun block hblock => ?_)
      (fun block hblock s hs => ?_) hx
    · rcases List.mem_pair.mp hblock with hblock | hblock
      · exact ⟨_, _, hblock, hne, haccepted⟩
      · exact ⟨_, _, hblock, hne', hrefused⟩
    · rcases List.mem_pair.mp hblock with rfl | rfl
      · exact ih s hs
      · exact ih' s hs

theorem IsProcedure.mem_ownVariables_iff {n : Node} (h : n.IsProcedure good) :
    x ∈ n.ownVariables ↔
      ∃ block ∈ n.children, ∃ s ∈ block.children, s.IsStatement good ∧ x ∈ s.ownVariables := by
  obtain ⟨-, -, -, hbody⟩ := h
  rw [mem_ownVariables_iff_child]
  simp only [List.mem_singleton, exists_eq_left]
  rw [or_iff_right (fun hname => NodeKind.noConfusion hname.2.1), mem_ownVariables_block hbody]
  exact exists_congr fun s => and_congr_right fun hs => (and_iff_right (hbody s hs)).symm

theorem IsProgram.mem_ownVariables_iff {tree : Node} (h : tree.IsProgram good) :
    x ∈ tree.ownVariables ↔ ∃ procedure ∈ tree.children, x ∈ procedure.ownVariables := by
  obtain ⟨-, hprocedures⟩ := h
  rw [mem_ownVariables_iff_child]
  refine exists_congr fun procedure => and_congr_right fun hprocedure => or_iff_right ?_
  rintro ⟨-, hkind, -⟩
  cases hprocedures procedure hprocedure
  cases hkind

/-- Every variable that is listed in a program is accessed by one of its procedures. -/
theorem IsProgram.exists_accesses {tree : Node} (h : tree.IsProgram good)
    (hx : x ∈ tree.ownVariables) :
    ∃ access, ∃ procedure ∈ tree.children, Accesses tree access procedure x := by
  obtain ⟨procedure, hprocedure, hlisted⟩ := h.mem_ownVariables_iff.mp hx
  obtain ⟨-, hprocedures⟩ := h
  have hlayout := hprocedures procedure hprocedure
  obtain ⟨block, hblock, s, hs, hstatement, hlisted⟩ := hlayout.mem_ownVariables_iff.mp hlisted
  obtain ⟨access, haccess⟩ := hstatement.exists_accesses hlisted
  refine ⟨access, procedure, hprocedure, ?_⟩
  cases hlayout
  obtain rfl := List.mem_singleton.mp hblock
  exact .body hs haccess

/-! ## Accessed variables are listed -/

theorem mem_ownVariables_of_operand {n m : Node} (hcall : n.kind ≠ .call) (hm : m ∈ n.children)
    (h : m.IsOperand) (hx : x ∈ m.variableNames) : x ∈ n.ownVariables := by
  refine mem_ownVariables_iff_child.mpr ⟨m, hm, ?_⟩
  rwa [and_iff_right hcall, ← h.mem_variableNames_iff]

theorem IsStatement.isOperand_of_child {n c : Node} {i : Nat} (h : n.IsStatement good)
    (hc : n.children[i]? = some c) (hi : n.kind.isContainer = false ∨ i = 0) : c.IsOperand := by
  refine (h.child hc).resolve_left ?_
  rintro ⟨hcontainer, hpos, -⟩
  rcases hi with hi | rfl
  · rw [hcontainer] at hi
    cases hi
  · cases hpos

/-- The first operand of a statement without blocks is a name. -/
theorem IsStatement.exists_ofName {n : Node} (h : n.IsStatement good)
    (hkind : n.kind.isContainer = false) : ∃ t, n.children[0]? = some (ofName t) := by
  cases h with
  | @named _ _ t => exact ⟨t, rfl⟩
  | @assign _ target => exact ⟨target, rfl⟩
  | whileLoop => cases hkind
  | ifElse => cases hkind

theorem IsProgram.name_mem_ownVariables {tree : Node} (h : tree.IsProgram good) {kind : NodeKind}
    {line : Option Nat} {name constant : String} {m : Node} {ms : List Node} {path : Path}
    (hstatement : kind.isStatement = true) (hcall : kind ≠ .call)
    (hcontainer : kind.isContainer = false)
    (hat : tree.at? path = some ⟨kind, line, name, constant, m :: ms⟩) :
    m.name ∈ tree.ownVariables := by
  have hlayout := (h.isWellFormed_of_at? hat).statement hstatement
  obtain ⟨t, ht⟩ := hlayout.exists_ofName hcontainer
  obtain rfl := Option.some.inj ht
  refine mem_ownVariables_of_at? hat (mem_ownVariables_iff_child.mpr ?_)
  exact ⟨_, List.mem_cons_self, .inl ⟨hcall, rfl, rfl⟩⟩

theorem IsProgram.mem_ownVariables_of_condition {tree : Node} (h : tree.IsProgram good) {n m : Node}
    {path : Path} (hat : tree.at? path = some n) (hkind : n.kind.isContainer = true)
    (hm : n.children[0]? = some m) (hx : x ∈ m.variableNames) : x ∈ tree.ownVariables := by
  have hstatement : n.kind.isStatement = true ∧ n.kind ≠ .call := by
    revert hkind
    cases n.kind <;> decide
  have hcondition :=
    ((h.isWellFormed_of_at? hat).statement hstatement.1).isOperand_of_child hm (.inr rfl)
  exact mem_ownVariables_of_at? hat
    (mem_ownVariables_of_operand hstatement.2 (List.mem_of_getElem? hm) hcondition hx)

theorem exists_at?_of_block {tree n block s : Node} {path : Path} (hat : tree.at? path = some n)
    (hblock : block ∈ n.children) (hs : s ∈ block.children) :
    ∃ path', tree.at? path' = some s := by
  obtain ⟨i, hi⟩ := List.getElem?_of_mem hblock
  obtain ⟨j, hj⟩ := List.getElem?_of_mem hs
  refine ⟨path ++ [i, j], ?_⟩
  simp [at?_append, hat, at?, hi, hj]

end Node

open Node in
/-- What is accessed by a statement or procedure of a program is listed in the program. -/
theorem Accesses.mem_ownVariables {good : Token → Prop} {program : Node} {access : Access}
    {n : Node} {x : String} {path : Path} (haccess : Accesses program access n x)
    (h : program.IsProgram good) (hat : program.at? path = some n) : x ∈ program.ownVariables := by
  -- along the rules: what is accessed elsewhere is accessed at another place of the program
  induction haccess generalizing path with
  | @computed line name constant x target value hx =>
    have hlayout := (h.isWellFormed_of_at? hat).statement rfl
    have hvalue := hlayout.isOperand_of_child (i := 1) rfl (.inl rfl)
    exact mem_ownVariables_of_at? hat (mem_ownVariables_of_operand (by simp) (by simp) hvalue hx)
  | assigned => exact h.name_mem_ownVariables rfl (by decide) rfl hat
  | printed => exact h.name_mem_ownVariables rfl (by decide) rfl hat
  | read => exact h.name_mem_ownVariables rfl (by decide) rfl hat
  | tested hkind hx =>
    exact h.mem_ownVariables_of_condition hat (by rcases hkind with rfl | rfl <;> rfl) rfl hx
  | nested hkind hblock hs _ ih =>
    obtain ⟨path', hs⟩ := exists_at?_of_block hat (List.mem_cons_of_mem _ hblock) hs
    exact ih hs
  | @called _ _ _ _ _ _ procedure hprocedure hname _ ih =>
    obtain ⟨i, hi⟩ := List.getElem?_of_mem hprocedure
    have hat : program.at? [i] = some procedure := by rw [at?, hi]; rfl
    exact ih hat
  | body hs _ ih =>
    obtain ⟨path', hs⟩ := exists_at?_of_block hat List.mem_cons_self hs
    exact ih hs

section Summary

variable {good : Token → Prop} {tree : Node} {access : Access} {order : List String}
  {s : Access.Summary} (hs : s.IsExact tree access order) (h : tree.IsProgram good) {path : Path}
  {x : String} (hhas : s.Has path x)

include hs h hhas

namespace Access.Summary

theorem IsExact.mem_ownVariables : x ∈ tree.ownVariables := by
  obtain ⟨i, procedure, rest, m, rfl, hi, -, hpart, -, haccess⟩ := (hs.has_iff path x).mp hhas
  have hat : tree.at? (i :: rest) = some m := by
    rw [Node.at?, hi]
    exact at?_of_mem_executables hpart
  exact haccess.mem_ownVariables h hat

theorem IsExact.name_mem_procedureNames {n : Node} (hat : tree.at? path = some n)
    (hkind : n.kind = .procedure) : n.name ∈ tree.procedureNames := by
  obtain ⟨i, procedure, rest, m, rfl, hi, -, hpart, hpartKind, -⟩ := (hs.has_iff path x).mp hhas
  rw [Node.at?, hi, Option.bind_some, at?_of_mem_executables hpart] at hat
  obtain rfl := Option.some.inj hat
  have hmem := List.mem_of_getElem? hi
  obtain ⟨-, hprocedures⟩ := h
  rcases eq_or_isStatement_of_mem_executables (hprocedures procedure hmem) hpart hpartKind with
    ⟨-, rfl⟩ | hm
  · exact List.mem_map_of_mem hmem
  · have hstatement := hm.isStatement_kind
    rw [hkind] at hstatement
    cases hstatement

end Access.Summary

end Summary

/-! ## The facts of a program -/

section Facts

variable {source : String} {facts : Facts} (hfacts : Facts.ofSource source = .ok facts)

include hfacts

theorem isBetween_statementAccesses (access : Access) :
    (facts.statementAccesses access).IsBetween facts.IsStatement (· ∈ facts.variableNames) := by
  obtain ⟨ts, tree, order, hts, hparse, hvalid, horder, rfl⟩ := exists_of_ofSource hfacts
  have hprogram := isProgram_of_parseProgram hparse (isLexical_of_tokenize hts)
  have hexact := Access.isExact_summary hprogram hvalid (calleesFirst_callOrder horder) access
  rw [Facts.statementAccesses_gather]
  intro s x hx
  obtain ⟨path, hnumber, hhas⟩ := Access.Summary.mem_ofStatements.mp (FinRel.mem_image.mpr hx)
  exact ⟨isStatement_of_numberOf? hnumber,
    mem_ascending.mpr (hexact.mem_ownVariables hprogram hhas)⟩

theorem isBetween_procedureAccesses (access : Access) :
    (facts.procedureAccesses access).IsBetween (· ∈ facts.procedures)
      (· ∈ facts.variableNames) := by
  obtain ⟨ts, tree, order, hts, hparse, hvalid, horder, rfl⟩ := exists_of_ofSource hfacts
  have hprogram := isProgram_of_parseProgram hparse (isLexical_of_tokenize hts)
  have hexact := Access.isExact_summary hprogram hvalid (calleesFirst_callOrder horder) access
  rw [Facts.procedureAccesses_gather]
  intro name x hx
  obtain ⟨path, n, hat, hkind, rfl, hhas⟩ :=
    Access.Summary.mem_ofProcedures.mp (FinRel.mem_image.mpr hx)
  exact ⟨mem_ascending.mpr (hexact.name_mem_procedureNames hprogram hhas hat hkind),
    mem_ascending.mpr (hexact.mem_ownVariables hprogram hhas)⟩

theorem isBetween_conditions :
    facts.conditions.IsBetween facts.IsStatement (· ∈ facts.variableNames) := by
  obtain ⟨ts, tree, order, hts, hparse, -, -, rfl⟩ := exists_of_ofSource hfacts
  have hprogram := isProgram_of_parseProgram hparse (isLexical_of_tokenize hts)
  intro s x hx
  obtain ⟨st, hst, hx⟩ := List.mem_flatMap.mp hx
  obtain ⟨hst, hkind⟩ := List.mem_filter.mp hst
  obtain ⟨x', hname, heq⟩ := List.mem_map.mp hx
  obtain ⟨rfl, rfl⟩ := Prod.mk.inj heq
  refine ⟨isStatement_of_mem_statements hst, mem_ascending.mpr ?_⟩
  rw [List.head?_eq_getElem?] at hname
  cases hcondition : st.node.children[0]? with
  | none => simp [hcondition] at hname
  | some condition =>
    rw [hcondition] at hname
    exact hprogram.mem_ownVariables_of_condition (Node.mem_statements.mp hst).1 hkind hcondition
      hname

/-- Every variable of the table is accessed by a procedure. -/
theorem exists_procedure_of_mem_variableNames {x : String} (hx : x ∈ facts.variableNames) :
    ∃ access name, (name, x) ∈ (facts.procedureAccesses access).pairs := by
  obtain ⟨ts, tree, order, hts, hparse, hvalid, horder, rfl⟩ := exists_of_ofSource hfacts
  have hprogram := isProgram_of_parseProgram hparse (isLexical_of_tokenize hts)
  obtain ⟨hnodup, -, -⟩ := validate_eq_ok_iff.mp hvalid
  obtain ⟨access, procedure, hprocedure, haccess⟩ :=
    hprogram.exists_accesses (mem_ascending.mp hx)
  have hexact := Access.isExact_summary hprogram hvalid (calleesFirst_callOrder horder) access
  refine ⟨access, procedure.name, ?_⟩
  rw [Facts.procedureAccesses_gather]
  exact FinRel.mem_image.mp (Access.mem_ofProcedures_iff hprogram hexact (mem_callOrder horder)
    hnodup hprocedure |>.mpr haccess)

end Facts

namespace Connection

/-- Relations with variables on the right. -/
inductive LeadsToVariables (facts : Facts) : Connection → Prop where
  | accesses (access : Access) : LeadsToVariables facts
      (.accesses (facts.statementAccesses access) (facts.procedureAccesses access))
  | assignments (expression : String) (asPart : Bool) :
      LeadsToVariables facts (.assignments expression asPart)
  | conditions (kind : NodeKind) : LeadsToVariables facts (.conditions kind)

theorem leadsToVariables_of_ofClause? {facts : Facts} {c : Clause} {connection : Connection}
    (hconnection : ofClause? facts c = some connection)
    (hkind : c.kind ∈ [ClauseKind.uses, .modifies, .assignExact, .assignPart, .assignAny,
      .ifPattern, .whilePattern]) : connection.LeadsToVariables facts := by
  unfold ofClause? at hconnection
  split at hconnection <;> rename_i heq <;> rw [heq] at hkind
  case h_11 => exact Option.some.inj hconnection ▸ .accesses .uses
  case h_12 => exact Option.some.inj hconnection ▸ .accesses .modifies
  case h_13 | h_14 | h_15 => exact Option.some.inj hconnection ▸ .assignments _ _
  case h_16 | h_17 => exact Option.some.inj hconnection ▸ .conditions _
  all_goals exact absurd hkind (by decide)

variable {source : String} {facts : Facts} {connection : Connection}

theorem LeadsToVariables.mem_of_rightsOf (h : connection.LeadsToVariables facts)
    (hfacts : Facts.ofSource source = .ok facts) {left v : String}
    (hv : v ∈ connection.rightsOf facts left) : v ∈ facts.variableNames := by
  unfold rightsOf at hv
  cases h with
  | accesses access =>
    cases hleft : numeral? left with
    | none =>
      rw [hleft] at hv
      exact (isBetween_procedureAccesses hfacts access _ v (FinRel.mem_image.mp hv)).2
    | some s =>
      rw [hleft] at hv
      exact (isBetween_statementAccesses hfacts access s v (FinRel.mem_image.mp hv)).2
  | assignments expression asPart =>
    cases hleft : numeral? left with
    | none =>
      rw [hleft] at hv
      cases hv
    | some s =>
      rw [hleft] at hv
      have hmem := FinRel.mem_image.mp (List.mem_of_mem_filter hv)
      exact (isBetween_statementAccesses hfacts .modifies s v hmem).2
  | conditions kind =>
    cases hleft : numeral? left with
    | none =>
      rw [hleft] at hv
      cases hv
    | some s =>
      rw [hleft] at hv
      have hmem := FinRel.mem_image.mp (List.mem_of_mem_filter hv)
      exact (isBetween_conditions hfacts s v hmem).2

theorem LeadsToVariables.mem_of_rights (h : connection.LeadsToVariables facts)
    (hfacts : Facts.ofSource source = .ok facts) {v : String}
    (hv : v ∈ connection.rights facts) : v ∈ facts.variableNames := by
  -- where the range is not kept, it is collected from the partners of all left values
  have hcollected
      (hv : v ∈ ascending ((connection.lefts facts).flatMap (connection.rightsOf facts))) :
      v ∈ facts.variableNames := by
    obtain ⟨left, -, hv⟩ := List.mem_flatMap.mp (mem_ascending.mp hv)
    exact h.mem_of_rightsOf hfacts hv
  cases h with
  | accesses access =>
    obtain ⟨s, hs⟩ := FinRel.mem_range.mp hv
    exact (isBetween_statementAccesses hfacts access s v hs).2
  | assignments expression asPart => exact hcollected hv
  | conditions kind => exact hcollected hv

end Connection

/-- The variables of a program are those that some statement uses or modifies, and those that some
procedure does. A name that stands only after calls is not a variable, and every variable that a
relation leads to is one that a synonym for variables can stand for. -/
theorem variableNames_iff_accessed {source : String} {facts : Facts}
    (hfacts : Facts.ofSource source = .ok facts) :
    (∀ v, v ∈ facts.variableNames ↔
      ∃ s ∈ facts.statements, v ∈ facts.uses.image s ∨ v ∈ facts.modifies.image s) ∧
    (∀ v, v ∈ facts.variableNames ↔ ∃ p ∈ facts.procedures,
      v ∈ facts.procedureUses.image p ∨ v ∈ facts.procedureModifies.image p) ∧
    (∀ tree v, programTree source = .ok tree →
      (∀ (path : Path) (i : Nat) (n m : Node), tree.at? path = some n →
        n.children[i]? = some m → m.kind = .variableRef → m.name = v → n.kind = .call) →
      v ∉ facts.variableNames) ∧
    ∀ (c : Clause) connection, Connection.ofClause? facts c = some connection →
      c.kind ∈ [ClauseKind.uses, .modifies, .assignExact, .assignPart, .assignAny, .ifPattern,
        .whilePattern] →
      (∀ left, ∀ v ∈ connection.rightsOf facts left, v ∈ facts.entities .variableName) ∧
        ∀ v ∈ connection.rights facts, v ∈ facts.entities .variableName := by
  refine ⟨fun v => ⟨fun hv => ?_, ?_⟩, fun v => ⟨fun hv => ?_, ?_⟩, fun tree v htree honly hv => ?_,
    fun c connection hconnection hkind => ?_⟩
  · obtain ⟨access, name, hname⟩ := exists_procedure_of_mem_variableNames hfacts hv
    obtain ⟨s, hs⟩ := exists_mem_statementAccesses hfacts hname
    refine ⟨s, (isBetween_statementAccesses hfacts access s v hs).1, ?_⟩
    cases access with
    | uses => exact .inl (FinRel.mem_image.mpr hs)
    | modifies => exact .inr (FinRel.mem_image.mpr hs)
  · rintro ⟨s, -, hv | hv⟩
    · exact (isBetween_statementAccesses hfacts .uses s v (FinRel.mem_image.mp hv)).2
    · exact (isBetween_statementAccesses hfacts .modifies s v (FinRel.mem_image.mp hv)).2
  · obtain ⟨access, name, hname⟩ := exists_procedure_of_mem_variableNames hfacts hv
    refine ⟨name, (isBetween_procedureAccesses hfacts access name v hname).1, ?_⟩
    cases access with
    | uses => exact .inl (FinRel.mem_image.mpr hname)
    | modifies => exact .inr (FinRel.mem_image.mpr hname)
  · rintro ⟨p, -, hv | hv⟩
    · exact (isBetween_procedureAccesses hfacts .uses p v (FinRel.mem_image.mp hv)).2
    · exact (isBetween_procedureAccesses hfacts .modifies p v (FinRel.mem_image.mp hv)).2
  · obtain ⟨order, rfl⟩ := exists_gather_of_ofSource htree hfacts
    obtain ⟨path, i, n, m, hn, hm, hcall, hkind, hname⟩ :=
      Node.mem_ownVariables.mp (mem_ascending.mp hv)
    exact hcall (honly path i n m hn hm hkind hname)
  · have hleads := Connection.leadsToVariables_of_ofClause? hconnection hkind
    exact ⟨fun left v => hleads.mem_of_rightsOf hfacts, fun v => hleads.mem_of_rights hfacts⟩

/-- In a program with a procedure that only calls and asks about `k`, the called name is no
variable, and what the called procedure modifies is one. -/
theorem variableNames_iff_accessed_call : ∃ tree facts,
    programTree
      "procedure m\x7bcall p; while (k>1)\x7bcall p;\x7d\x7d procedure p\x7bx=y;\x7d" = .ok tree ∧
    Facts.ofSource
      "procedure m\x7bcall p; while (k>1)\x7bcall p;\x7d\x7d procedure p\x7bx=y;\x7d" = .ok facts ∧
    facts.variableNames = ["k", "x", "y"] ∧
    (∃ s ∈ facts.statements, "x" ∈ facts.uses.image s ∨ "x" ∈ facts.modifies.image s) ∧
    (∃ p ∈ facts.procedures,
      "x" ∈ facts.procedureUses.image p ∨ "x" ∈ facts.procedureModifies.image p) ∧
    "p" ∉ facts.variableNames ∧
    "k" ∈ (Connection.conditions .whileLoop).rightsOf facts "2" ∧
    "k" ∈ facts.entities .variableName := by
  have hrun : (do
      let tree ← (programTree
        "procedure m\x7bcall p; while (k>1)\x7bcall p;\x7d\x7d procedure p\x7bx=y;\x7d").toOption
      let facts ← (Facts.ofSource
        "procedure m\x7bcall p; while (k>1)\x7bcall p;\x7d\x7d procedure p\x7bx=y;\x7d").toOption
      return decide ((∀ n ∈ tree.nodes, ∀ m ∈ n.children, m.kind = .variableRef →
          m.name = "p" → n.kind = .call) ∧
        facts.variableNames = ["k", "x", "y"] ∧
        "k" ∈ (Connection.conditions .whileLoop).rightsOf facts "2")) = some true := by
    decide +kernel
  obtain ⟨tree, htree, hrun⟩ := Option.bind_eq_some_iff.mp hrun
  obtain ⟨facts, hfacts, hrun⟩ := Option.bind_eq_some_iff.mp hrun
  obtain ⟨hcalled, hnames, hk⟩ := of_decide_eq_true (Option.some.inj hrun)
  have htree := eq_ok_of_toOption htree
  have hfacts := eq_ok_of_toOption hfacts
  obtain ⟨hstatement, hprocedure, honly, hrelated⟩ := variableNames_iff_accessed hfacts
  have hx : "x" ∈ facts.variableNames := by
    rw [hnames]
    decide
  have hp : "p" ∉ facts.variableNames := honly tree "p" htree fun path i n m hn hm =>
    hcalled n (Node.mem_nodes.mpr ⟨path, hn⟩) m (List.mem_of_getElem? hm)
  have hpattern :=
    hrelated ⟨.whilePattern, ⟨.wildcard, "_"⟩, ⟨.wildcard, "_"⟩, ""⟩ _ rfl (by decide)
  exact ⟨tree, facts, htree, hfacts, hnames, (hstatement "x").mp hx, (hprocedure "x").mp hx, hp, hk,
    hpattern.1 "2" "k" hk⟩

end ProgramQuery
