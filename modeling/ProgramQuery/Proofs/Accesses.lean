import ProgramQuery.Facts.Basic
import ProgramQuery.Proofs.CallOrder

/-!
# What is recorded of the accesses of a program

The accesses of a program are recorded procedure by procedure, for each part of a procedure that can
be executed. Every statement is such a part. All that is recorded are names of variables.

## Main definitions

- `Node.NamesHave`: all variables below a node have a property.
- `Access.Summary.NamesHave`: all that a summary has recorded has a property.

## Main statements

- `Node.IsStatement.mem_executables`: every statement is an executable part.
- `Access.namesHave_summary`: only names of variables are recorded.
-/

namespace ProgramQuery

namespace Access

/-! ## Executable parts -/

theorem mem_executablesFrom {i j : Nat} {ns : List Node} {n m : Node} {path : Path}
    (hn : ns[j]? = some n) (h : (path, m) ∈ executables n) :
    ((i + j) :: path, m) ∈ executablesFrom i ns := by
  induction ns generalizing i j with
  | nil => simp at hn
  | cons first ns ih =>
    rw [executablesFrom, List.mem_append]
    cases j with
    | zero =>
      obtain rfl : first = n := by simpa using hn
      exact .inl (List.mem_map.mpr ⟨(path, m), h, rfl⟩)
    | succ j =>
      have hrest : ((i + 1 + j) :: path, m) ∈ executablesFrom (i + 1) ns := ih (by simpa using hn)
      rw [Nat.add_right_comm, Nat.add_assoc] at hrest
      exact .inr hrest

theorem mem_executables_block {line : Nat} {body : List Node} {m : Node} {path : Path}
    (ih : ∀ s ∈ body, ∀ {path : Path}, s.at? path = some m → (path, m) ∈ executables s)
    (hat : (Node.block line body).at? path = some m) :
    (path, m) ∈ executables (Node.block line body) := by
  rw [Node.block, executables]
  cases path with
  | nil =>
    obtain rfl := Option.some.inj hat
    exact List.mem_cons_self
  | cons i path =>
    obtain ⟨s, hs, hat⟩ := Option.bind_eq_some_iff.mp hat
    have hmem := mem_executablesFrom (i := 0) hs (ih s (List.mem_of_getElem? hs) hat)
    rw [Nat.zero_add] at hmem
    exact List.mem_cons_of_mem _ hmem

end Access

open Access in
/-- Every statement inside a statement is an executable part of it. -/
theorem Node.IsStatement.mem_executables {good : Token → Prop} {n m : Node} {path : Path}
    (h : n.IsStatement good) (hat : n.at? path = some m) (hm : m.kind.isStatement = true) :
    (path, m) ∈ executables n := by
  -- Expressions and conditions have no statements to be found.
  have hno : ∀ {k : Node}, k.kind.isStatement = false ∧ k.kind ≠ .statementList → k ≠ m := by
    rintro k ⟨hk, -⟩ rfl
    rw [hk] at hm
    cases hm
  induction h generalizing path with
  | @named kind line t hkind htoken hname =>
    match path with
    | [] =>
      obtain rfl := Option.some.inj hat
      cases kind <;> simp at hkind <;> simp [executables]
    | 0 :: path => exact absurd rfl (hno ((IsExpression.name htoken hname).at? hat).kind_eq)
    | (i + 1) :: path => simp [Node.at?] at hat
  | assign htoken hname hvalue =>
    match path with
    | [] =>
      obtain rfl := Option.some.inj hat
      simp [executables]
    | 0 :: path => exact absurd rfl (hno ((IsExpression.name htoken hname).at? hat).kind_eq)
    | 1 :: path => exact absurd rfl (hno (hvalue.at? hat).kind_eq)
    | (i + 2) :: path => simp [Node.at?] at hat
  | whileLoop hcondition hne hbody ih =>
    rw [executables]
    match path with
    | [] => exact Option.some.inj hat ▸ List.mem_cons_self
    | 0 :: path => exact absurd rfl (hno (hcondition.kind_eq_of_at? hat))
    | 1 :: path =>
      exact List.mem_cons_of_mem _ (mem_executablesFrom (j := 0) rfl (mem_executables_block ih hat))
    | (i + 2) :: path => simp [Node.at?] at hat
  | ifElse hcondition hne hne' haccepted hrefused ih ih' =>
    rw [executables]
    match path with
    | [] => exact Option.some.inj hat ▸ List.mem_cons_self
    | 0 :: path => exact absurd rfl (hno (hcondition.kind_eq_of_at? hat))
    | 1 :: path =>
      exact List.mem_cons_of_mem _ (mem_executablesFrom (j := 0) rfl (mem_executables_block ih hat))
    | 2 :: path =>
      exact List.mem_cons_of_mem _
        (mem_executablesFrom (j := 1) rfl (mem_executables_block ih' hat))
    | (i + 3) :: path => simp [Node.at?] at hat

theorem Node.IsProcedure.mem_executables {good : Token → Prop} {n m : Node} {path : Path}
    (h : n.IsProcedure good) (hat : n.at? path = some m) (hm : m.kind.isStatement = true) :
    (path, m) ∈ Access.executables n := by
  obtain ⟨htoken, hname, hne, hbody⟩ := h
  rw [Access.executables]
  match path with
  | [] => exact Option.some.inj hat ▸ List.mem_cons_self
  | 0 :: path =>
    have hblock := Access.mem_executables_block
      (fun s hs _ hat => (hbody s hs).mem_executables hat hm) hat
    exact List.mem_cons_of_mem _ (Access.mem_executablesFrom (j := 0) rfl hblock)
  | (i + 1) :: path => simp [Node.at?] at hat

namespace Access

mutual

/-- An executable part is the node at the end of its path. -/
theorem at?_of_mem_executables : {n : Node} → {path : Path} → {m : Node} →
    (path, m) ∈ executables n → n.at? path = some m
  | ⟨kind, line, name, constant, []⟩, path, m, h => by
    have hself : (path, m) = ([], ⟨kind, line, name, constant, []⟩) := by
      cases kind <;> simpa [executables, executablesFrom] using h
    obtain ⟨rfl, rfl⟩ := Prod.mk.inj hself
    rfl
  | ⟨kind, line, name, constant, first :: others⟩, path, m, h => by
    have hcases : (path, m) = ([], ⟨kind, line, name, constant, first :: others⟩) ∨
        (path, m) ∈ executablesFrom 0 (first :: others) ∨
        (path, m) ∈ executablesFrom 1 others := by
      cases kind <;> simp only [executables, List.mem_cons, List.not_mem_nil, or_false] at h <;>
        grind
    rcases hcases with h | h | h
    · obtain ⟨rfl, rfl⟩ := Prod.mk.inj h
      rfl
    · obtain ⟨j, n, rest, rfl, hn, hat⟩ := at?_of_mem_executablesFrom h
      simpa [Node.at?, hn] using hat
    · obtain ⟨j, n, rest, rfl, hn, hat⟩ := at?_of_mem_executablesFrom h
      rw [Nat.add_comm]
      simpa [Node.at?, hn] using hat

theorem at?_of_mem_executablesFrom : {i : Nat} → {ns : List Node} → {path : Path} → {m : Node} →
    (path, m) ∈ executablesFrom i ns →
      ∃ j n rest, path = (i + j) :: rest ∧ ns[j]? = some n ∧ n.at? rest = some m
  | i, [], path, m, h => by cases h
  | i, first :: ns, path, m, h => by
    rw [executablesFrom, List.mem_append] at h
    rcases h with h | h
    · obtain ⟨⟨rest, m'⟩, hmem, heq⟩ := List.mem_map.mp h
      obtain ⟨rfl, rfl⟩ := Prod.mk.inj heq
      exact ⟨0, first, rest, rfl, rfl, at?_of_mem_executables hmem⟩
    · obtain ⟨j, n, rest, rfl, hn, hat⟩ := at?_of_mem_executablesFrom h
      exact ⟨j + 1, n, rest, by simp [Nat.add_assoc, Nat.add_comm 1 j], by simpa using hn, hat⟩

end

end Access

/-! ## Only names of variables are recorded -/

/-- All variables below a node have a property. -/
def Node.NamesHave (P : String → Prop) (n : Node) : Prop :=
  ∀ path m, n.at? path = some m → m.kind = .variableRef → P m.name

theorem Node.NamesHave.of_at? {P : String → Prop} {n m : Node} {path : Path} (h : n.NamesHave P)
    (hat : n.at? path = some m) : m.NamesHave P := by
  intro rest k hk hkind
  exact h (path ++ rest) k (by rw [Node.at?_append, hat]; exact hk) hkind

theorem Node.NamesHave.child {P : String → Prop} {n m : Node} {i : Nat} (h : n.NamesHave P)
    (hm : n.children[i]? = some m) : m.NamesHave P := by
  have hat : n.at? [i] = some m := by simp [Node.at?, hm]
  exact h.of_at? hat

theorem Node.NamesHave.of_mem_variableNames {P : String → Prop} {n : Node} (h : n.NamesHave P)
    {x : String} (hx : x ∈ n.variableNames) : P x := by
  obtain ⟨m, hm, heq⟩ := List.mem_filterMap.mp hx
  obtain ⟨path, hat⟩ := Node.mem_nodes.mp hm
  split at heq
  · rename_i hkind
    exact Option.some.inj heq ▸ h path m hat hkind
  · cases heq

namespace Access

variable {P : String → Prop}

theorem of_mem_childVariables {n : Node} (h : n.NamesHave P) {i : Nat} {x : String}
    (hx : x ∈ childVariables n.children i) : P x := by
  unfold childVariables at hx
  cases hchild : n.children[i]? with
  | none => simp [hchild] at hx
  | some child =>
    rw [hchild] at hx
    exact (h.child hchild).of_mem_variableNames hx

theorem of_mem_conditionUses {access : Access} {condition : Node} (h : condition.NamesHave P)
    {x : String} (hx : x ∈ conditionUses access condition) : P x := by
  cases access with
  | uses => exact h.of_mem_variableNames hx
  | modifies => cases hx

mutual

/-- What a node accesses are variables below it, or what a called procedure accesses. -/
theorem of_mem_accessed (access : Access) {callee : String → List String}
    (hcallee : ∀ name, ∀ x ∈ callee name, P x) :
    (n : Node) → n.NamesHave P → ∀ x ∈ accessed access callee n, P x
  | ⟨kind, line, name, constant, []⟩, h, x, hx => by
    cases kind <;> cases access <;>
      simp [accessed, accessedAll, childVariables] at hx
  | ⟨kind, line, name, constant, first :: others⟩, h, x, hx => by
    have hfirst : first.NamesHave P := h.child (i := 0) rfl
    have hothers : ∀ n ∈ others, n.NamesHave P := by
      intro n hn
      obtain ⟨i, hi⟩ := List.getElem?_of_mem hn
      exact h.child (i := i + 1) (by simpa using hi)
    have hall := of_mem_accessedAll access hcallee (first :: others)
      (List.forall_mem_cons.mpr ⟨hfirst, hothers⟩)
    have hblocks := of_mem_accessedAll access hcallee others hothers
    have hchild : ∀ i, x ∈ childVariables (first :: others) i → P x :=
      fun i hx => of_mem_childVariables (n := ⟨kind, line, name, constant, first :: others⟩) h hx
    cases kind with
    | procedure => exact hall x hx
    | statementList => exact hall x hx
    | assign =>
      cases access with
      | uses => exact hchild 1 hx
      | modifies => exact hchild 0 hx
    | read =>
      cases access with
      | uses => cases hx
      | modifies => exact hchild 0 hx
    | print =>
      cases access with
      | uses => exact hchild 0 hx
      | modifies => cases hx
    | call => exact hcallee _ x hx
    | whileLoop | ifElse =>
      simp only [accessed, List.mem_append] at hx
      rcases hx with hx | hx
      · exact of_mem_conditionUses hfirst hx
      · exact hblocks x hx
    | _ => simp [accessed] at hx

theorem of_mem_accessedAll (access : Access) {callee : String → List String}
    (hcallee : ∀ name, ∀ x ∈ callee name, P x) :
    (ns : List Node) → (∀ n ∈ ns, n.NamesHave P) → ∀ x ∈ accessedAll access callee ns, P x
  | [], _, x, hx => by cases hx
  | n :: ns, h, x, hx => by
    rw [accessedAll, List.mem_append] at hx
    rcases hx with hx | hx
    · exact of_mem_accessed access hcallee n (h n List.mem_cons_self) x hx
    · exact of_mem_accessedAll access hcallee ns (fun m hm => h m (List.mem_cons_of_mem n hm)) x hx

end

/-- Summarising one more procedure. -/
def Summary.extend (access : Access) (program : Node) (s : Summary) (name : String) : Summary :=
  match program.procedureNamed? name with
  | none => s
  | some (i, procedure) => s.add access i procedure

theorem summary_eq_foldl (access : Access) (program : Node) (order : List String) :
    summary access program order = order.foldl (Summary.extend access program) {} :=
  rfl

/-- All names that a summary has recorded have a property. -/
structure Summary.NamesHave (P : String → Prop) (s : Summary) : Prop where
  byProcedure : ∀ entry ∈ s.byProcedure, ∀ x ∈ entry.2, P x
  byPath : ∀ entry ∈ s.byPath, ∀ x ∈ entry.2, P x

theorem Summary.NamesHave.ofProcedure {s : Summary} (h : s.NamesHave P) :
    ∀ name, ∀ x ∈ s.ofProcedure name, P x := by
  intro name x hx
  unfold Summary.ofProcedure at hx
  cases hlookup : s.byProcedure.lookup name with
  | none => simp [hlookup] at hx
  | some names =>
    rw [hlookup] at hx
    obtain ⟨before, after, heq, -⟩ := List.lookup_eq_some_iff.mp hlookup
    exact h.byProcedure (name, names) (by simp [heq]) x hx

theorem Summary.NamesHave.add (access : Access) {s : Summary} (h : s.NamesHave P) (i : Nat)
    {procedure : Node} (hprocedure : procedure.NamesHave P) :
    (s.add access i procedure).NamesHave P := by
  have haccessed : ∀ m : Node, m.NamesHave P →
      ∀ x ∈ ascending (accessed access s.ofProcedure m), P x := by
    intro m hm x hx
    exact of_mem_accessed access h.ofProcedure m hm x (mem_ascending.mp hx)
  rw [Summary.add, tabulate_eq]
  constructor
  · exact List.forall_mem_cons.mpr ⟨haccessed procedure hprocedure, h.byProcedure⟩
  · refine List.forall_mem_append.mpr ⟨h.byPath, fun entry hentry => ?_⟩
    obtain ⟨recorded, hrecorded, hkept⟩ := List.mem_filterMap.mp hentry
    obtain ⟨⟨path, m⟩, hpart, rfl⟩ := List.mem_map.mp hrecorded
    split at hkept
    · cases hkept
    · obtain rfl := Option.some.inj hkept
      exact haccessed m (hprocedure.of_at? (at?_of_mem_executables hpart))

/-- Whatever the order, only names of variables of the program are recorded. -/
theorem namesHave_summary (access : Access) {program : Node} (h : program.NamesHave P)
    (order : List String) : (summary access program order).NamesHave P := by
  have hrun : ∀ s : Summary, s.NamesHave P →
      (order.foldl (Summary.extend access program) s).NamesHave P := by
    induction order with
    | nil => exact fun s hs => hs
    | cons name order ih =>
      refine fun s hs => ih _ ?_
      rw [Summary.extend]
      split
      · exact hs
      · rename_i i procedure hfound
        obtain ⟨hchild, -⟩ := getElem?_of_procedureNamed? hfound
        exact hs.add access i (h.child hchild)
  rw [summary_eq_foldl]
  exact hrun {} ⟨fun e he => absurd he List.not_mem_nil, fun e he => absurd he List.not_mem_nil⟩

end Access

end ProgramQuery
