import ProgramQuery.Proofs.Accesses

/-!
# Uses and Modifies by rules

What a statement or procedure uses and modifies is the least relation that is closed under a few
rules: an assignment uses the variables of its right side and modifies its target, and so on up to
calls and procedures. What is recorded of a valid program is exactly this relation. The record is
made in one pass through the procedures, which is enough because the search through the call graph
lists every procedure after those that it calls.

## Main definitions

- `Accesses`: the rules.
- `Access.Summary.IsExact`: what is recorded of some procedures is what the rules say.

## Main statements

- `Accesses.perm`: the rules do not ask in which order the procedures are declared.
- `Access.isExact_summary`: what is recorded in an order with callees first is exact.
- `accesses_iff_recorded`: the facts of a valid program have exactly what the rules say, whatever
  the order of its procedures.
-/

namespace ProgramQuery

/-- Which variables the statements and procedures of a program access. -/
inductive Accesses (program : Node) : Access → Node → String → Prop where
  /-- An assignment uses the variables of its right side. -/
  | computed {line : Option Nat} {name constant x : String} {target value : Node}
      (hx : x ∈ value.variableNames) :
      Accesses program .uses ⟨.assign, line, name, constant, [target, value]⟩ x
  /-- An assignment modifies its target. -/
  | assigned {line : Option Nat} {name constant : String} {target value : Node} :
      Accesses program .modifies ⟨.assign, line, name, constant, [target, value]⟩ target.name
  /-- A print statement uses its variable. -/
  | printed {line : Option Nat} {name constant : String} {operand : Node} :
      Accesses program .uses ⟨.print, line, name, constant, [operand]⟩ operand.name
  /-- A read statement modifies its variable. -/
  | read {line : Option Nat} {name constant : String} {operand : Node} :
      Accesses program .modifies ⟨.read, line, name, constant, [operand]⟩ operand.name
  /-- A loop or branching uses the variables of its condition. -/
  | tested {kind : NodeKind} {line : Option Nat} {name constant x : String} {condition : Node}
      {blocks : List Node} (hkind : kind = .whileLoop ∨ kind = .ifElse)
      (hx : x ∈ condition.variableNames) :
      Accesses program .uses ⟨kind, line, name, constant, condition :: blocks⟩ x
  /-- A loop or branching accesses what a statement in one of its blocks accesses. -/
  | nested {access : Access} {kind : NodeKind} {line : Option Nat} {name constant x : String}
      {condition block s : Node} {blocks : List Node}
      (hkind : kind = .whileLoop ∨ kind = .ifElse) (hblock : block ∈ blocks)
      (hs : s ∈ block.children) (h : Accesses program access s x) :
      Accesses program access ⟨kind, line, name, constant, condition :: blocks⟩ x
  /-- A call accesses what the called procedure accesses. -/
  | called {access : Access} {line : Option Nat} {name constant x : String}
      {target procedure : Node} (hprocedure : procedure ∈ program.children)
      (hname : procedure.name = target.name) (h : Accesses program access procedure x) :
      Accesses program access ⟨.call, line, name, constant, [target]⟩ x
  /-- A procedure accesses what a statement of its body accesses. -/
  | body {access : Access} {line : Option Nat} {name constant x : String} {block s : Node}
      (hs : s ∈ block.children) (h : Accesses program access s x) :
      Accesses program access ⟨.procedure, line, name, constant, [block]⟩ x

namespace Accesses

variable {program : Node} {access : Access} {line : Option Nat} {name constant x : String}

theorem assign_iff {target value : Node} :
    Accesses program access ⟨.assign, line, name, constant, [target, value]⟩ x ↔
      access = .uses ∧ x ∈ value.variableNames ∨ access = .modifies ∧ x = target.name := by
  constructor
  · intro h
    cases h with
    | computed hx => exact .inl ⟨rfl, hx⟩
    | assigned => exact .inr ⟨rfl, rfl⟩
    | tested hkind => simp at hkind
    | nested hkind => simp at hkind
  · rintro (⟨rfl, hx⟩ | ⟨rfl, rfl⟩)
    · exact .computed hx
    · exact .assigned

theorem print_iff {operand : Node} :
    Accesses program access ⟨.print, line, name, constant, [operand]⟩ x ↔
      access = .uses ∧ x = operand.name := by
  constructor
  · intro h
    cases h with
    | printed => exact ⟨rfl, rfl⟩
    | tested hkind => simp at hkind
    | nested hkind => simp at hkind
  · rintro ⟨rfl, rfl⟩
    exact .printed

theorem read_iff {operand : Node} :
    Accesses program access ⟨.read, line, name, constant, [operand]⟩ x ↔
      access = .modifies ∧ x = operand.name := by
  constructor
  · intro h
    cases h with
    | read => exact ⟨rfl, rfl⟩
    | tested hkind => simp at hkind
    | nested hkind => simp at hkind
  · rintro ⟨rfl, rfl⟩
    exact .read

theorem call_iff {target : Node} :
    Accesses program access ⟨.call, line, name, constant, [target]⟩ x ↔
      ∃ procedure ∈ program.children, procedure.name = target.name ∧
        Accesses program access procedure x := by
  constructor
  · intro h
    cases h with
    | called hprocedure hname h => exact ⟨_, hprocedure, hname, h⟩
    | tested hkind => simp at hkind
    | nested hkind => simp at hkind
  · rintro ⟨procedure, hprocedure, hname, h⟩
    exact .called hprocedure hname h

theorem container_iff {kind : NodeKind} (hkind : kind = .whileLoop ∨ kind = .ifElse)
    {condition : Node} {blocks : List Node} :
    Accesses program access ⟨kind, line, name, constant, condition :: blocks⟩ x ↔
      access = .uses ∧ x ∈ condition.variableNames ∨
        ∃ block ∈ blocks, ∃ s ∈ block.children, Accesses program access s x := by
  constructor
  · intro h
    cases h with
    | tested _ hx => exact .inl ⟨rfl, hx⟩
    | nested _ hblock hs h => exact .inr ⟨_, hblock, _, hs, h⟩
    | _ => simp at hkind
  · rintro (⟨rfl, hx⟩ | ⟨block, hblock, s, hs, h⟩)
    · exact .tested hkind hx
    · exact .nested hkind hblock hs h

theorem procedure_iff {block : Node} :
    Accesses program access ⟨.procedure, line, name, constant, [block]⟩ x ↔
      ∃ s ∈ block.children, Accesses program access s x := by
  constructor
  · intro h
    cases h with
    | body hs h => exact ⟨_, hs, h⟩
    | tested hkind => simp at hkind
    | nested hkind => simp at hkind
  · rintro ⟨s, hs, h⟩
    exact .body hs h

end Accesses

/-- The rules do not ask in which order the procedures are declared. -/
theorem Accesses.perm {program other : Node} {access : Access} {n : Node} {x : String}
    (h : Accesses program access n x) (hperm : program.children.Perm other.children) :
    Accesses other access n x := by
  induction h with
  | computed hx => exact .computed hx
  | assigned => exact .assigned
  | printed => exact .printed
  | read => exact .read
  | tested hkind hx => exact .tested hkind hx
  | nested hkind hblock hs _ ih => exact .nested hkind hblock hs ih
  | called hprocedure hname _ ih => exact .called (hperm.mem_iff.mp hprocedure) hname ih
  | body hs _ ih => exact .body hs ih

namespace Node

/-- What a statement in a block calls, the node around the block calls. -/
theorem mem_callTargets_of_block {n s : Node} {i line : Nat} {body : List Node}
    (hblock : n.children[i]? = some (.block line body)) (hs : s ∈ body) {target : String}
    (h : target ∈ s.callTargets) : target ∈ n.callTargets := by
  obtain ⟨j, hj⟩ := List.getElem?_of_mem hs
  have hat : n.at? [i, j] = some s := by simp [at?, hblock, block, hj]
  exact mem_callTargets_of_at? hat h

theorem variableNames_ofName (t : Token) : (ofName t).variableNames = [(ofName t).name] := by
  simp [variableNames, nodes_eq, walk, walkFrom, ofName]

end Node

namespace Access

variable {good : Token → Prop} {program : Node} {access : Access} {callee : String → List String}

/-! ## What a statement accesses -/

theorem mem_accessedAll {ns : List Node} {x : String} :
    x ∈ accessedAll access callee ns ↔ ∃ n ∈ ns, x ∈ accessed access callee n := by
  induction ns with
  | nil => simp [accessedAll]
  | cons n ns ih => simp [accessedAll, ih]

theorem mem_accessed_block {line : Nat} {body : List Node} {x : String}
    (h : ∀ s ∈ body, x ∈ accessed access callee s ↔ Accesses program access s x) :
    x ∈ accessed access callee (.block line body) ↔
      ∃ s ∈ (Node.block line body).children, Accesses program access s x := by
  rw [Node.block, accessed, mem_accessedAll]
  exact exists_congr fun s => and_congr_right (h s)

/-- What is known of the procedure of some name is what it accesses. -/
def IsExactAt (program : Node) (access : Access) (callee : String → List String) (name : String) :
    Prop :=
  ∀ x, x ∈ callee name ↔
    ∃ procedure ∈ program.children, procedure.name = name ∧ Accesses program access procedure x

theorem mem_accessed_container {kind : NodeKind} (hkind : kind = .whileLoop ∨ kind = .ifElse)
    {line : Option Nat} {name constant x : String} {condition : Node} {blocks : List Node} :
    x ∈ accessed access callee ⟨kind, line, name, constant, condition :: blocks⟩ ↔
      access = .uses ∧ x ∈ condition.variableNames ∨
        ∃ block ∈ blocks, x ∈ accessed access callee block := by
  have hcondition : x ∈ conditionUses access condition ↔
      access = .uses ∧ x ∈ condition.variableNames := by
    cases access <;> simp [conditionUses]
  rcases hkind with rfl | rfl <;>
    rw [accessed, List.mem_append, mem_accessedAll, hcondition]

/-- A statement accesses what the rules say if that is so for the procedures that it calls. -/
theorem mem_accessed_iff {n : Node} (h : n.IsStatement good)
    (hcallee : ∀ target ∈ n.callTargets, IsExactAt program access callee target) {x : String} :
    x ∈ accessed access callee n ↔ Accesses program access n x := by
  induction h with
  | @named kind line t hkind htoken hname =>
    simp only [List.mem_cons, List.not_mem_nil, or_false] at hkind
    rcases hkind with rfl | rfl | rfl
    · rw [Accesses.read_iff]
      cases access <;> simp [accessed, childVariables, Node.variableNames_ofName]
    · rw [Accesses.print_iff]
      cases access <;> simp [accessed, childVariables, Node.variableNames_ofName]
    · rw [Accesses.call_iff, accessed]
      exact hcallee _ (Node.mem_callTargets.mpr ⟨[], _, rfl, rfl, rfl⟩) x
  | assign htoken hname hvalue =>
    rw [Accesses.assign_iff]
    cases access <;> simp [accessed, childVariables, Node.variableNames_ofName]
  | whileLoop hcondition hne hbody ih =>
    rw [Accesses.container_iff (.inl rfl), mem_accessed_container (.inl rfl)]
    simp only [List.mem_cons, List.not_mem_nil, or_false, exists_eq_left]
    refine or_congr_right (mem_accessed_block fun s hs => ih s hs fun target htarget => ?_)
    exact hcallee target (Node.mem_callTargets_of_block (i := 1) rfl hs htarget)
  | ifElse hcondition hne hne' haccepted hrefused ih ih' =>
    rw [Accesses.container_iff (.inr rfl), mem_accessed_container (.inr rfl)]
    simp only [List.mem_cons, List.not_mem_nil, or_false, exists_eq_or_imp, exists_eq_left]
    refine or_congr_right (or_congr (mem_accessed_block fun s hs => ?_)
      (mem_accessed_block fun s hs => ?_))
    · refine ih s hs fun target htarget => ?_
      exact hcallee target (Node.mem_callTargets_of_block (i := 1) rfl hs htarget)
    · refine ih' s hs fun target htarget => ?_
      exact hcallee target (Node.mem_callTargets_of_block (i := 2) rfl hs htarget)

theorem mem_accessed_procedure {n : Node} (h : n.IsProcedure good)
    (hcallee : ∀ target ∈ n.callTargets, IsExactAt program access callee target) {x : String} :
    x ∈ accessed access callee n ↔ Accesses program access n x := by
  obtain ⟨htoken, hname, hne, hbody⟩ := h
  rw [Accesses.procedure_iff, accessed, mem_accessedAll]
  simp only [List.mem_cons, List.not_mem_nil, or_false, exists_eq_left]
  refine mem_accessed_block fun s hs => mem_accessed_iff (hbody s hs) fun target htarget => ?_
  exact hcallee target (Node.mem_callTargets_of_block (i := 0) rfl hs htarget)

/-! ## Executable parts are procedures, blocks and statements -/

theorem exists_of_mem_executablesFrom {i : Nat} {ns : List Node} {path : Path} {m : Node}
    (h : (path, m) ∈ executablesFrom i ns) : ∃ n ∈ ns, ∃ rest, (rest, m) ∈ executables n := by
  induction ns generalizing i with
  | nil => cases h
  | cons n ns ih =>
    rw [executablesFrom, List.mem_append] at h
    rcases h with h | h
    · obtain ⟨⟨rest, k⟩, hmem, heq⟩ := List.mem_map.mp h
      obtain ⟨-, rfl⟩ := Prod.mk.inj heq
      exact ⟨n, List.mem_cons_self, rest, hmem⟩
    · obtain ⟨n', hn', hrest⟩ := ih h
      exact ⟨n', List.mem_cons_of_mem n hn', hrest⟩

/-- The executable parts of some blocks are the blocks and those of their statements. -/
theorem isStatement_of_mem_blocks {i : Nat} {blocks : List Node} {path : Path} {m : Node}
    (hblocks : ∀ block ∈ blocks, ∃ line body, block = .block line body ∧
      ∀ s ∈ body, ∀ path, (path, m) ∈ executables s → m.kind = .statementList ∨ m.IsStatement good)
    (h : (path, m) ∈ executablesFrom i blocks) :
    m.kind = .statementList ∨ m.IsStatement good := by
  obtain ⟨block, hblock, rest, hrest⟩ := exists_of_mem_executablesFrom h
  obtain ⟨line, body, rfl, hbody⟩ := hblocks block hblock
  rw [Node.block, executables, List.mem_cons] at hrest
  rcases hrest with heq | hrest
  · obtain ⟨-, rfl⟩ := Prod.mk.inj heq
    exact .inl rfl
  · obtain ⟨s, hs, inner, hinner⟩ := exists_of_mem_executablesFrom hrest
    exact hbody s hs inner hinner

theorem isStatement_of_mem_executables {n m : Node} {path : Path} (h : n.IsStatement good)
    (hpart : (path, m) ∈ executables n) : m.kind = .statementList ∨ m.IsStatement good := by
  induction h generalizing path with
  | @named kind line t hkind htoken hname =>
    have hself : (path, m) = ([], ⟨kind, some line, "", "", [.ofName t]⟩) := by
      cases kind <;> simp at hkind <;> simpa [executables] using hpart
    exact .inr ((Prod.mk.inj hself).2 ▸ .named hkind htoken hname)
  | @assign line target value htoken hname hvalue =>
    have hself : (path, m) =
        ([], ⟨.assign, some line, target.text, "", [.ofName target, value]⟩) := by
      simpa [executables] using hpart
    exact .inr ((Prod.mk.inj hself).2 ▸ .assign htoken hname hvalue)
  | whileLoop hcondition hne hbody ih =>
    rw [executables, List.mem_cons] at hpart
    rcases hpart with heq | hpart
    · exact .inr ((Prod.mk.inj heq).2 ▸ .whileLoop hcondition hne hbody)
    · refine isStatement_of_mem_blocks (fun block hblock => ?_) hpart
      obtain rfl := List.mem_singleton.mp hblock
      exact ⟨_, _, rfl, fun s hs _ => ih s hs⟩
  | ifElse hcondition hne hne' haccepted hrefused ih ih' =>
    rw [executables, List.mem_cons] at hpart
    rcases hpart with heq | hpart
    · exact .inr ((Prod.mk.inj heq).2 ▸ .ifElse hcondition hne hne' haccepted hrefused)
    · refine isStatement_of_mem_blocks (fun block hblock => ?_) hpart
      simp only [List.mem_cons, List.not_mem_nil, or_false] at hblock
      rcases hblock with rfl | rfl
      · exact ⟨_, _, rfl, fun s hs _ => ih s hs⟩
      · exact ⟨_, _, rfl, fun s hs _ => ih' s hs⟩

theorem eq_or_isStatement_of_mem_executables {n m : Node} {path : Path} (h : n.IsProcedure good)
    (hpart : (path, m) ∈ executables n) (hkind : m.kind ≠ .statementList) :
    path = [] ∧ m = n ∨ m.IsStatement good := by
  obtain ⟨htoken, hname, hne, hbody⟩ := h
  rw [executables, List.mem_cons] at hpart
  rcases hpart with heq | hpart
  · exact .inl (Prod.mk.inj heq)
  · refine .inr ((isStatement_of_mem_blocks (fun block hblock => ?_) hpart).resolve_left hkind)
    obtain rfl := List.mem_singleton.mp hblock
    exact ⟨_, _, rfl, fun s hs _ => isStatement_of_mem_executables (hbody s hs)⟩

/-- An executable part of a procedure accesses what the rules say if that is so for all that the
procedure calls. -/
theorem mem_accessed_part {n m : Node} {path : Path} (h : n.IsProcedure good)
    (hcallee : ∀ target ∈ n.callTargets, IsExactAt program access callee target)
    (hpart : (path, m) ∈ executables n) (hkind : m.kind ≠ .statementList) {x : String} :
    x ∈ accessed access callee m ↔ Accesses program access m x := by
  rcases eq_or_isStatement_of_mem_executables h hpart hkind with ⟨-, rfl⟩ | hm
  · exact mem_accessed_procedure h hcallee
  · refine mem_accessed_iff hm fun target htarget => hcallee target ?_
    exact Node.mem_callTargets_of_at? (at?_of_mem_executables hpart) htarget

/-! ## Summaries -/

/-- A summary has recorded for a path that a variable is accessed there. -/
def Summary.Has (s : Summary) (path : Path) (x : String) : Prop :=
  ∃ names, (path, names) ∈ s.byPath ∧ x ∈ names

/-- The part of a procedure at a path accesses a variable, by the rules. The procedure is one of
the given names. -/
def Recordable (program : Node) (access : Access) (order : List String) (path : Path)
    (x : String) : Prop :=
  ∃ i procedure rest m, path = i :: rest ∧ program.children[i]? = some procedure ∧
    procedure.name ∈ order ∧ (rest, m) ∈ executables procedure ∧ m.kind ≠ .statementList ∧
    Accesses program access m x

/-- What a summary of the procedures of some names has recorded is what the rules say. -/
structure Summary.IsExact (program : Node) (access : Access) (order : List String) (s : Summary) :
    Prop where
  ofProcedure : ∀ name ∈ order, name ∈ program.procedureNames →
    IsExactAt program access s.ofProcedure name
  has_iff : ∀ path x, s.Has path x ↔ Recordable program access order path x

theorem Summary.has_add {s : Summary} {i : Nat} {procedure : Node} {path : Path} {x : String} :
    (s.add access i procedure).Has path x ↔ s.Has path x ∨
      ∃ rest m, path = i :: rest ∧ (rest, m) ∈ executables procedure ∧ m.kind ≠ .statementList ∧
        x ∈ accessed access s.ofProcedure m := by
  constructor
  · rintro ⟨names, hmem, hx⟩
    rw [add, tabulate_eq] at hmem
    rcases List.mem_append.mp hmem with hmem | hmem
    · exact .inl ⟨names, hmem, hx⟩
    · obtain ⟨entry, hentry, hkept⟩ := List.mem_filterMap.mp hmem
      obtain ⟨⟨rest, m⟩, hpart, rfl⟩ := List.mem_map.mp hentry
      split at hkept
      · cases hkept
      · rename_i hkind
        obtain ⟨rfl, rfl⟩ := Prod.mk.inj (Option.some.inj hkept)
        exact .inr ⟨rest, m, rfl, hpart, fun h => hkind (.inl h), mem_ascending.mp hx⟩
  · rintro (⟨names, hmem, hx⟩ | ⟨rest, m, rfl, hpart, hkind, hx⟩)
    · exact ⟨names, List.mem_append_left _ hmem, hx⟩
    · have hx' : x ∈ ascending (accessed access s.ofProcedure m) := mem_ascending.mpr hx
      refine ⟨_, ?_, hx'⟩
      rw [add, tabulate_eq]
      refine List.mem_append_right _ (List.mem_filterMap.mpr
        ⟨⟨i :: rest, m.kind, ascending (accessed access s.ofProcedure m)⟩,
          List.mem_map.mpr ⟨(rest, m), hpart, rfl⟩, ?_⟩)
      exact if_neg (not_or.mpr ⟨hkind, List.ne_nil_of_mem hx'⟩)

theorem Summary.ofProcedure_add (s : Summary) (i : Nat) (procedure : Node) (name : String) :
    (s.add access i procedure).ofProcedure name =
      if name = procedure.name then ascending (accessed access s.ofProcedure procedure)
      else s.ofProcedure name := by
  rw [Summary.ofProcedure, add, tabulate_eq, List.lookup_cons]
  by_cases hname : name = procedure.name
  · simp [hname]
  · simp [hname, beq_eq_false_iff_ne.mpr hname, Summary.ofProcedure]

section Order

variable {order : List String} {s : Summary} (hs : s.IsExact program access order)

include hs

/-- A name that no procedure has adds nothing. -/
theorem Summary.IsExact.skip {name : String} (hno : name ∉ program.procedureNames) :
    s.IsExact program access (order ++ [name]) := by
  constructor
  · intro other hother hdeclared
    rcases List.mem_append.mp hother with hother | hother
    · exact hs.ofProcedure other hother hdeclared
    · exact absurd (List.mem_singleton.mp hother ▸ hdeclared) hno
  · intro path x
    rw [hs.has_iff]
    constructor
    · rintro ⟨i, procedure, rest, m, hpath, hprocedure, hname, hpart⟩
      exact ⟨i, procedure, rest, m, hpath, hprocedure, List.mem_append_left _ hname, hpart⟩
    · rintro ⟨i, procedure, rest, m, hpath, hprocedure, hname, hpart⟩
      refine ⟨i, procedure, rest, m, hpath, hprocedure, ?_, hpart⟩
      refine (List.mem_append.mp hname).resolve_right fun heq => hno ?_
      rw [← List.mem_singleton.mp heq]
      exact List.mem_map_of_mem (List.mem_of_getElem? hprocedure)

/-- A procedure is recorded exactly if all that it calls is. -/
theorem Summary.IsExact.add (hnodup : program.procedureNames.Nodup) {i : Nat} {procedure : Node}
    (hprocedure : program.children[i]? = some procedure) (hlayout : procedure.IsProcedure good)
    (hcallee : ∀ target ∈ procedure.callTargets, IsExactAt program access s.ofProcedure target) :
    (s.add access i procedure).IsExact program access (order ++ [procedure.name]) := by
  constructor
  · intro name hname hdeclared x
    rw [Summary.ofProcedure_add]
    by_cases hsame : name = procedure.name
    · rw [if_pos hsame, mem_ascending, mem_accessed_procedure hlayout hcallee]
      constructor
      · intro hx
        exact ⟨procedure, List.mem_of_getElem? hprocedure, hsame.symm, hx⟩
      · rintro ⟨other, hother, hname, hx⟩
        obtain ⟨j, hj⟩ := List.getElem?_of_mem hother
        exact (eq_of_name_eq hnodup hprocedure hj (hname.trans hsame)).2 ▸ hx
    · rw [if_neg hsame]
      refine hs.ofProcedure name ?_ hdeclared x
      exact (List.mem_append.mp hname).resolve_right fun h => hsame (List.mem_singleton.mp h)
  · intro path x
    rw [Summary.has_add, hs.has_iff]
    constructor
    · rintro (⟨j, other, rest, m, hpath, hother, hname, hpart⟩ | ⟨rest, m, hpath, hpart, hkind, hx⟩)
      · exact ⟨j, other, rest, m, hpath, hother, List.mem_append_left _ hname, hpart⟩
      · exact ⟨i, procedure, rest, m, hpath, hprocedure, by simp, hpart, hkind,
          (mem_accessed_part hlayout hcallee hpart hkind).mp hx⟩
    · rintro ⟨j, other, rest, m, hpath, hother, hname, hpart, hkind, hx⟩
      rcases List.mem_append.mp hname with hname | hname
      · exact .inl ⟨j, other, rest, m, hpath, hother, hname, hpart, hkind, hx⟩
      · obtain ⟨rfl, rfl⟩ := eq_of_name_eq hnodup hprocedure hother (List.mem_singleton.mp hname)
        exact .inr ⟨rest, m, hpath, hpart, hkind,
          (mem_accessed_part hlayout hcallee hpart hkind).mpr hx⟩

end Order

/-- A summary in an order with callees first is exact. -/
theorem isExact_summary (h : program.IsProgram good) (hvalid : program.validate = .ok ())
    {order : List String} (horder : CalleesFirst program.calls order) (access : Access) :
    (summary access program order).IsExact program access order := by
  obtain ⟨hnodup, hdeclared, -⟩ := validate_eq_ok_iff.mp hvalid
  rw [summary_eq_foldl]
  induction horder with
  | nil =>
    refine ⟨fun name hname => absurd hname List.not_mem_nil, fun path x => ⟨?_, ?_⟩⟩
    · rintro ⟨names, hmem, -⟩
      cases hmem
    · rintro ⟨i, procedure, rest, m, -, -, hname, -⟩
      cases hname
  | @snoc order name _ hcallees ih =>
    rw [List.foldl_append, List.foldl_cons, List.foldl_nil, Summary.extend]
    cases hfound : program.procedureNamed? name with
    | none =>
      refine ih.skip fun hname => ?_
      obtain ⟨procedure, hmem, rfl⟩ := List.mem_map.mp hname
      obtain ⟨i, hi⟩ := List.getElem?_of_mem hmem
      rw [procedureNamed?_eq hnodup hi] at hfound
      cases hfound
    | some found =>
      obtain ⟨i, procedure⟩ := found
      obtain ⟨hprocedure, rfl⟩ := getElem?_of_procedureNamed? hfound
      have hmem : procedure ∈ program.children := List.mem_of_getElem? hprocedure
      have hlayout : procedure.IsProcedure good := by
        obtain ⟨-, hprocedures⟩ := h
        exact hprocedures procedure hmem
      refine ih.add hnodup hprocedure hlayout fun target htarget => ?_
      have hat : program.at? [i] = some procedure := by simp [Node.at?, hprocedure]
      exact ih.ofProcedure target
        (hcallees target (Node.mem_calls.mpr ⟨procedure, hmem, rfl, htarget⟩))
        (hdeclared target (Node.mem_callTargets_of_at? hat htarget))

/-! ## Statements and procedures -/

theorem Summary.mem_ofStatements {s : Summary} {numbers : Numbering} {number : Nat} {x : String} :
    x ∈ (s.ofStatements numbers).image number ↔
      ∃ path, numbers.numberOf? path = some number ∧ s.Has path x := by
  rw [FinRel.mem_image, ofStatements, FinRel.ofPairs]
  constructor
  · intro hmem
    obtain ⟨⟨path, names⟩, hentry, hpair⟩ := List.mem_flatMap.mp hmem
    split at hpair
    · cases hpair
    · rename_i other hnumber
      obtain ⟨name, hname, heq⟩ := List.mem_map.mp hpair
      obtain ⟨rfl, rfl⟩ := Prod.mk.inj heq
      exact ⟨path, hnumber, names, hentry, hname⟩
  · rintro ⟨path, hnumber, names, hentry, hx⟩
    refine List.mem_flatMap.mpr ⟨(path, names), hentry, ?_⟩
    rw [hnumber]
    exact List.mem_map.mpr ⟨x, hx, rfl⟩

theorem Summary.mem_ofProcedures {s : Summary} {tree : Node} {name x : String} :
    x ∈ (s.ofProcedures tree).image name ↔ ∃ path n, tree.at? path = some n ∧
      n.kind = .procedure ∧ n.name = name ∧ s.Has path x := by
  rw [FinRel.mem_image, ofProcedures, FinRel.ofPairs]
  constructor
  · intro hmem
    obtain ⟨⟨path, names⟩, hentry, hpair⟩ := List.mem_flatMap.mp hmem
    split at hpair
    · cases hpair
    · rename_i n hat
      split at hpair
      · rename_i hkind
        obtain ⟨y, hy, heq⟩ := List.mem_map.mp hpair
        obtain ⟨rfl, rfl⟩ := Prod.mk.inj heq
        exact ⟨path, n, hat, hkind, rfl, names, hentry, hy⟩
      · cases hpair
  · rintro ⟨path, n, hat, hkind, rfl, names, hentry, hx⟩
    refine List.mem_flatMap.mpr ⟨(path, names), hentry, ?_⟩
    rw [hat]
    dsimp only
    rw [if_pos hkind]
    exact List.mem_map.mpr ⟨x, hx, rfl⟩

section Facts

variable {tree : Node} {order : List String} {s : Summary} (h : tree.IsProgram good)
  (hs : s.IsExact tree access order) (horder : ∀ name ∈ tree.procedureNames, name ∈ order)

include h hs horder

/-- A statement is recorded with what it accesses by the rules. -/
theorem mem_ofStatements_iff {st : Statement} (hst : st ∈ tree.statements) {x : String} :
    x ∈ (s.ofStatements (Numbering.ofTree tree)).image st.number ↔
      Accesses tree access st.node x := by
  obtain ⟨number, path, node⟩ := st
  obtain ⟨hat, hstatement, hnumber⟩ := Node.mem_statements.mp hst
  dsimp only at hat hstatement hnumber ⊢
  rw [Summary.mem_ofStatements]
  constructor
  · rintro ⟨path', hnumber', hhas⟩
    obtain rfl := Numbering.numberOf?_injective hnumber' hnumber
    obtain ⟨i, procedure, rest, m, rfl, hprocedure, -, hpart, -, hx⟩ := (hs.has_iff path' x).mp hhas
    rw [Node.at?, hprocedure, Option.bind_some, at?_of_mem_executables hpart] at hat
    exact Option.some.inj hat ▸ hx
  · intro hx
    refine ⟨path, hnumber, (hs.has_iff path x).mpr ?_⟩
    obtain ⟨-, hprocedures⟩ := h
    cases path with
    | nil =>
      obtain rfl := Option.some.inj hat
      cases hstatement
    | cons i rest =>
      obtain ⟨procedure, hprocedure, hat⟩ := Option.bind_eq_some_iff.mp hat
      have hmem : procedure ∈ _ := List.mem_of_getElem? hprocedure
      have hkind : node.kind ≠ .statementList := by
        intro hkind
        rw [hkind] at hstatement
        cases hstatement
      exact ⟨i, procedure, rest, node, rfl, hprocedure, horder _ (List.mem_map_of_mem hmem),
        (hprocedures procedure hmem).mem_executables hat hstatement, hkind, hx⟩

/-- An assignment is recorded with its target. -/
theorem mem_ofStatements_of_assign (hmodifies : access = .modifies) {st : Statement}
    (hst : st ∈ tree.statements) (hkind : st.node.kind = .assign) :
    (st.number, st.node.operandName) ∈ (s.ofStatements (Numbering.ofTree tree)).pairs := by
  refine FinRel.mem_image.mp ((mem_ofStatements_iff h hs horder hst).mpr ?_)
  obtain ⟨hat, hstatement, -⟩ := Node.mem_statements.mp hst
  obtain ⟨number, path, node⟩ := st
  subst hmodifies
  cases (h.isWellFormed_of_at? hat).statement hstatement with
  | @named kind _ _ hnamed => cases kind <;> simp at hnamed hkind
  | assign => exact .assigned
  | whileLoop => cases hkind
  | ifElse => cases hkind

/-- A procedure is recorded with what it accesses by the rules. -/
theorem mem_ofProcedures_iff (hnodup : tree.procedureNames.Nodup) {procedure : Node}
    (hprocedure : procedure ∈ tree.children) {x : String} :
    x ∈ (s.ofProcedures tree).image procedure.name ↔ Accesses tree access procedure x := by
  obtain ⟨i, hi⟩ := List.getElem?_of_mem hprocedure
  obtain ⟨-, hprocedures⟩ := h
  rw [Summary.mem_ofProcedures]
  constructor
  · rintro ⟨path, n, hat, hkind, hname, hhas⟩
    obtain ⟨j, other, rest, m, rfl, hother, -, hpart, hpartKind, hx⟩ := (hs.has_iff path x).mp hhas
    rw [Node.at?, hother, Option.bind_some, at?_of_mem_executables hpart] at hat
    obtain rfl := Option.some.inj hat
    have hlayout := hprocedures other (List.mem_of_getElem? hother)
    rcases eq_or_isStatement_of_mem_executables hlayout hpart hpartKind with ⟨-, rfl⟩ | hm
    · exact (eq_of_name_eq hnodup hi hother hname).2 ▸ hx
    · -- statements are not procedures
      have hstatement := hm.isStatement_kind
      rw [hkind] at hstatement
      cases hstatement
  · intro hx
    have hlayout := hprocedures procedure hprocedure
    have hself : ([], procedure) ∈ executables procedure ∧ procedure.kind = .procedure := by
      obtain ⟨-, -, -, -⟩ := hlayout
      exact ⟨List.mem_cons_self, rfl⟩
    refine ⟨[i], procedure, by rw [Node.at?, hi]; rfl, hself.2, rfl, (hs.has_iff [i] x).mpr ?_⟩
    exact ⟨i, procedure, [], procedure, rfl, hi, horder _ (List.mem_map_of_mem hprocedure),
      hself.1, by rw [hself.2]; decide, hx⟩

/-- What is recorded of a procedure is recorded of a statement as well. -/
theorem exists_mem_ofStatements {name x : String} (hx : x ∈ (s.ofProcedures tree).image name) :
    ∃ number, x ∈ (s.ofStatements (Numbering.ofTree tree)).image number := by
  obtain ⟨path, n, hat, hkind, -, hhas⟩ := Summary.mem_ofProcedures.mp hx
  obtain ⟨i, procedure, rest, m, rfl, hprocedure, -, hpart, hpartKind, hm⟩ :=
    (hs.has_iff path x).mp hhas
  rw [Node.at?, hprocedure, Option.bind_some, at?_of_mem_executables hpart] at hat
  obtain rfl := Option.some.inj hat
  have hlayout : procedure.IsProcedure good := by
    obtain ⟨-, hprocedures⟩ := h
    exact hprocedures procedure (List.mem_of_getElem? hprocedure)
  -- a procedure accesses what a statement of its body accesses, and that one has a number
  obtain ⟨rest', st, hat, hstatement, hst⟩ : ∃ rest' st, tree.at? (i :: rest') = some st ∧
      st.kind.isStatement = true ∧ Accesses tree access st x := by
    rcases eq_or_isStatement_of_mem_executables hlayout hpart hpartKind with ⟨-, rfl⟩ | hm'
    · obtain ⟨-, -, -, hbody⟩ := hlayout
      obtain ⟨st, hst, haccess⟩ := Accesses.procedure_iff.mp hm
      obtain ⟨j, hj⟩ := List.getElem?_of_mem hst
      exact ⟨[0, j], st, by simp [Node.at?, hprocedure, hj], (hbody st hst).isStatement_kind,
        haccess⟩
    · have hnot := hm'.isStatement_kind
      rw [hkind] at hnot
      cases hnot
  obtain ⟨number, hnumber⟩ :=
    Numbering.exists_numberOf? (Numbering.mem_paths_ofTree.mpr ⟨st, hat, hstatement⟩)
  have hmem : ⟨number, i :: rest', st⟩ ∈ tree.statements :=
    Node.mem_statements.mpr ⟨hat, hstatement, hnumber⟩
  exact ⟨number, (mem_ofStatements_iff h hs horder hmem).mpr hst⟩

end Facts

end Access

/-! ## The facts of a program -/

namespace Facts

/-- From a statement to the variables that it accesses. -/
def statementAccesses (facts : Facts) : Access → FinRel Nat String
  | .uses => facts.uses
  | .modifies => facts.modifies

/-- From a procedure to the variables that it accesses. -/
def procedureAccesses (facts : Facts) : Access → FinRel String String
  | .uses => facts.procedureUses
  | .modifies => facts.procedureModifies

theorem statementAccesses_gather (tree : Node) (order : List String) (access : Access) :
    (gather tree order).statementAccesses access =
      (Access.summary access tree order).ofStatements (Numbering.ofTree tree) := by
  cases access <;> rfl

theorem procedureAccesses_gather (tree : Node) (order : List String) (access : Access) :
    (gather tree order).procedureAccesses access =
      (Access.summary access tree order).ofProcedures tree := by
  cases access <;> rfl

/-- The facts of a valid program follow the rules. -/
theorem exists_ofTree {good : Token → Prop} {tree : Node} (h : tree.IsProgram good)
    (hvalid : tree.validate = .ok ()) : ∃ facts, ofTree tree = .ok facts ∧
      ∀ access x,
        (∀ st ∈ tree.statements, x ∈ (facts.statementAccesses access).image st.number ↔
          Accesses tree access st.node x) ∧
        ∀ procedure ∈ tree.children, x ∈ (facts.procedureAccesses access).image procedure.name ↔
          Accesses tree access procedure x := by
  obtain ⟨hnodup, -, order, horder⟩ := validate_eq_ok_iff.mp hvalid
  refine ⟨gather tree order, by rw [ofTree, hvalid, horder]; rfl, fun access x => ?_⟩
  have hexact := Access.isExact_summary h hvalid (calleesFirst_callOrder horder) access
  rw [statementAccesses_gather, procedureAccesses_gather]
  constructor
  · intro st hst
    exact Access.mem_ofStatements_iff h hexact (mem_callOrder horder) hst
  · intro procedure hprocedure
    exact Access.mem_ofProcedures_iff h hexact (mem_callOrder horder) hnodup hprocedure

end Facts

theorem Node.IsProgram.perm {good : Token → Prop} {tree : Node} (h : tree.IsProgram good)
    {procedures : List Node} (hperm : procedures.Perm tree.children) :
    ({ tree with children := procedures } : Node).IsProgram good := by
  obtain ⟨hne, hprocedures⟩ := h
  refine .intro (fun hnil => hne ?_) fun p hp => hprocedures p (hperm.mem_iff.mp hp)
  exact List.Perm.nil_eq (hnil ▸ hperm) |>.symm

/-- In every valid program, and whatever the order in which its procedures are declared, each
statement and each procedure is recorded with exactly the variables that it uses and modifies by the
rules. -/
theorem accesses_iff_recorded {tokens : List Token} {tree : Node}
    (hparse : parseProgram tokens = .ok tree) (hvalid : tree.validate = .ok ())
    {procedures : List Node} (hperm : procedures.Perm tree.children) :
    ∃ facts, Facts.ofTree { tree with children := procedures } = .ok facts ∧
      ∀ access x,
        (∀ st ∈ ({ tree with children := procedures } : Node).statements,
          x ∈ (facts.statementAccesses access).image st.number ↔ Accesses tree access st.node x) ∧
        ∀ procedure ∈ tree.children,
          x ∈ (facts.procedureAccesses access).image procedure.name ↔
            Accesses tree access procedure x := by
  have h : tree.IsProgram fun _ => True := isProgram_of_parseProgram hparse fun _ _ => trivial
  have hkind : tree.kind ≠ .call := by
    obtain ⟨-, -⟩ := h
    simp
  have hsame : ∀ access n x,
      Accesses { tree with children := procedures } access n x ↔ Accesses tree access n x :=
    fun _ _ _ => ⟨fun ha => ha.perm hperm, fun ha => ha.perm hperm.symm⟩
  obtain ⟨facts, hfacts, hexact⟩ :=
    Facts.exists_ofTree (h.perm hperm) (validate_perm hvalid hkind hkind hperm)
  refine ⟨facts, hfacts, fun access x => ⟨fun st hst => ?_, fun procedure hprocedure => ?_⟩⟩
  · rw [(hexact access x).1 st hst, hsame]
  · rw [(hexact access x).2 procedure (hperm.mem_iff.mpr hprocedure), hsame]

/-- A program whose first procedure calls one that is declared after it. -/
def callsAhead : String :=
  "procedure main \x7b while (n > 0) \x7b call helper; x = y; \x7d \x7d " ++
    "procedure helper \x7b read z; print w; \x7d"

/-- A loop with a call modifies what the called procedure reads in, in either order of the
procedures. -/
theorem accesses_iff_recorded_callsAhead : ∃ tokens tree facts,
    tokenize callsAhead = .ok tokens ∧ parseProgram tokens = .ok tree ∧
      tree.validate = .ok () ∧
      Facts.ofTree { tree with children := tree.children.reverse } = .ok facts ∧
      facts.procedureModifies.image "main" = ["x", "z"] ∧
      ∃ procedure ∈ tree.children, procedure.name = "main" ∧
        Accesses tree .modifies procedure "z" ∧ ¬Accesses tree .modifies procedure "w" := by
  have hrun : (do
      let tokens ← (tokenize callsAhead).toOption
      let tree ← (parseProgram tokens).toOption
      let _ ← tree.validate.toOption
      let facts ← (Facts.ofTree { tree with children := tree.children.reverse }).toOption
      return (facts.procedureModifies.image "main", tree.procedureNames)) =
        some (["x", "z"], ["main", "helper"]) := by
    decide +kernel
  obtain ⟨tokens, htokens, hrun⟩ := Option.bind_eq_some_iff.mp hrun
  obtain ⟨tree, htree, hrun⟩ := Option.bind_eq_some_iff.mp hrun
  obtain ⟨⟨⟩, hvalid, hrun⟩ := Option.bind_eq_some_iff.mp hrun
  obtain ⟨facts, hfacts, hrun⟩ := Option.bind_eq_some_iff.mp hrun
  obtain ⟨himage, hnames⟩ := Prod.mk.inj (Option.some.inj hrun)
  have hparse := eq_ok_of_toOption htree
  have hvalid := eq_ok_of_toOption hvalid
  have hfacts := eq_ok_of_toOption hfacts
  refine ⟨tokens, tree, facts, eq_ok_of_toOption htokens, hparse, hvalid, hfacts, himage, ?_⟩
  have hmain : "main" ∈ tree.procedureNames := hnames ▸ List.mem_cons_self
  obtain ⟨procedure, hprocedure, hname⟩ := List.mem_map.mp hmain
  obtain ⟨other, hother, hexact⟩ :=
    accesses_iff_recorded hparse hvalid (List.reverse_perm tree.children)
  obtain rfl := Except.ok.inj (hfacts.symm.trans hother)
  have hrecorded : ∀ x, x ∈ ["x", "z"] ↔ Accesses tree .modifies procedure x := by
    intro x
    rw [← himage, ← hname]
    exact (hexact .modifies x).2 procedure hprocedure
  refine ⟨procedure, hprocedure, hname, (hrecorded "z").mp (by decide), fun h => ?_⟩
  exact absurd ((hrecorded "w").mpr h) (by decide)

end ProgramQuery
