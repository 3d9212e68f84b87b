import Mathlib.Logic.Relation
import ProgramQuery.Program.Access
import ProgramQuery.Proofs.Layout

/-!
# The order of the procedures

The search through the call graph of a program lists every procedure, and each after those that it
calls. It only fails where calls come back to themselves, and it names a procedure that does. So
whether a program is valid does not depend on the order in which its procedures are declared.

## Main definitions

- `CalleesFirst`: every name in a list comes after the names that it calls.
- `Node.HasCall`: a procedure has a statement that calls a name.

## Main statements

- `validate_eq_ok_iff`: when a program is valid.
- `calleesFirst_callOrder`, `Node.nodup_callOrder`, `Node.mem_callOrder_iff`: callees come first in
  the order of the procedures, and each declared or called name is in it once.
- `transGen_self_of_callOrder`: the search fails at a name that comes back to itself.
- `validate_perm`: the procedures of a valid program may be declared in any order.
- `callOrder_decides_recursion`: what the search decides and lists.
-/

namespace ProgramQuery

/-! ## Valid programs -/

theorem firstRepeat?_eq_none_iff {seen names : List String} :
    firstRepeat? seen names = none ↔ names.Nodup ∧ ∀ name ∈ names, name ∉ seen := by
  induction names generalizing seen with
  | nil => simp [firstRepeat?]
  | cons name names ih =>
    rw [firstRepeat?, List.nodup_cons, List.forall_mem_cons]
    by_cases hseen : name ∈ seen
    · simp [hseen]
    · rw [if_neg hseen, ih]
      simp only [List.mem_cons, not_or]
      constructor
      · rintro ⟨hnodup, hnew⟩
        exact ⟨⟨fun hmem => (hnew name hmem).1 rfl, hnodup⟩, hseen, fun x hx => (hnew x hx).2⟩
      · rintro ⟨⟨hname, hnodup⟩, -, hnew⟩
        exact ⟨hnodup, fun x hx => ⟨fun heq => hname (heq ▸ hx), hnew x hx⟩⟩

theorem validate_eq_ok_iff {program : Node} : program.validate = .ok () ↔
    program.procedureNames.Nodup ∧
      (∀ name ∈ program.callTargets, name ∈ program.procedureNames) ∧
      ∃ order, program.callOrder = .ok order := by
  have hnodup : firstRepeat? [] program.procedureNames = none ↔ program.procedureNames.Nodup := by
    simp [firstRepeat?_eq_none_iff]
  have hdeclared : program.callTargets.find? (· ∉ program.procedureNames) = none ↔
      ∀ name ∈ program.callTargets, name ∈ program.procedureNames := by
    simp [List.find?_eq_none]
  rw [← hnodup, ← hdeclared, Node.validate]
  cases firstRepeat? [] program.procedureNames with
  | some name => simp [throw, throwThe, MonadExceptOf.throw, bind, Except.bind]
  | none =>
    cases program.callTargets.find? (· ∉ program.procedureNames) with
    | some name => simp [throw, throwThe, MonadExceptOf.throw, bind, Except.bind]
    | none =>
      cases program.callOrder <;> simp [bind, Except.bind, pure, Except.pure]

/-! ## All procedures are in order -/

theorem mem_visitCalls {calls : FinRel String String} {free order order' : List String}
    {name : String} (h : visitCalls calls free order name = .ok order') :
    name ∈ order' ∧ ∀ x ∈ order, x ∈ order' := by
  fun_induction visitCalls calls free order name generalizing order' with
  | case1 free order name hmem =>
    obtain rfl := Except.ok.inj h
    exact ⟨hmem, fun x hx => hx⟩
  | case2 free order name hmem hfree ih =>
    obtain ⟨visited, hvisited, h⟩ := exists_of_bind_eq_ok h
    obtain rfl := Except.ok.inj h
    obtain ⟨hgrow, -⟩ := mem_of_foldlM (fun order callee order' h => ih order callee h) hvisited
    exact ⟨by simp, fun x hx => List.mem_append_left _ (hgrow x hx)⟩
  | case3 => cases h

theorem mem_callOrder {program : Node} {order : List String} (h : program.callOrder = .ok order) :
    ∀ name ∈ program.procedureNames, name ∈ order :=
  (mem_of_foldlM (fun _ _ _ h => mem_visitCalls h) h).2

/-- Without repeated names, a procedure has a place of its own. -/
theorem eq_of_name_eq {program procedure other : Node} {i j : Nat}
    (hnodup : program.procedureNames.Nodup) (hi : program.children[i]? = some procedure)
    (hj : program.children[j]? = some other) (hname : other.name = procedure.name) :
    j = i ∧ other = procedure := by
  have hnames : program.procedureNames[j]? = program.procedureNames[i]? := by
    simp [Node.procedureNames, hi, hj, hname]
  obtain ⟨hlt, -⟩ := List.getElem?_eq_some_iff.mp hj
  obtain rfl : j = i := by
    refine (List.getElem?_inj ?_ hnodup).mp hnames
    simpa [Node.procedureNames] using hlt
  exact ⟨rfl, Option.some.inj (hj.symm.trans hi)⟩

theorem getElem?_of_procedureNamed? {program procedure : Node} {name : String} {i : Nat}
    (h : program.procedureNamed? name = some (i, procedure)) :
    program.children[i]? = some procedure ∧ procedure.name = name := by
  obtain ⟨entry, hfind, heq⟩ := Option.map_eq_some_iff.mp h
  have hmem := List.mem_zipIdx_iff_getElem?.mp
    (List.mem_reverse.mp (List.mem_of_find?_eq_some hfind))
  have hname : entry.1.name = name := by simpa using List.find?_some hfind
  obtain ⟨rfl, rfl⟩ := Prod.mk.inj heq
  exact ⟨hmem, hname⟩

/-- Without repeated names, a procedure is found by its name. -/
theorem procedureNamed?_eq {program procedure : Node} {i : Nat}
    (hnodup : program.procedureNames.Nodup) (h : program.children[i]? = some procedure) :
    program.procedureNamed? procedure.name = some (i, procedure) := by
  cases hfound : program.procedureNamed? procedure.name with
  | none =>
    have hmem : (procedure, i) ∈ program.children.zipIdx.reverse :=
      List.mem_reverse.mpr (List.mk_mem_zipIdx_iff_getElem?.mpr h)
    have hno := List.find?_eq_none.mp (Option.map_eq_none_iff.mp hfound) _ hmem
    simp at hno
  | some entry =>
    obtain ⟨hother, hname⟩ := getElem?_of_procedureNamed? hfound
    obtain ⟨hj, hsame⟩ := eq_of_name_eq hnodup h hother hname
    rw [← hj, ← hsame]

theorem Node.mem_nodes {n m : Node} : m ∈ n.nodes ↔ ∃ path, n.at? path = some m := by
  rw [Node.nodes_eq, List.mem_map]
  constructor
  · rintro ⟨⟨path, k⟩, hmem, rfl⟩
    exact ⟨path, Node.mem_walk.mp hmem⟩
  · rintro ⟨path, hat⟩
    exact ⟨(path, m), Node.mem_walk.mpr hat, rfl⟩

/-! ## Callees come first -/

/-- Every name comes after the names that it calls. -/
inductive CalleesFirst (calls : FinRel String String) : List String → Prop where
  | nil : CalleesFirst calls []
  | snoc {order : List String} {name : String} (h : CalleesFirst calls order)
      (hcallees : ∀ callee ∈ calls.image name, callee ∈ order) :
      CalleesFirst calls (order ++ [name])

theorem calleesFirst_visitCalls {calls : FinRel String String} {free order order' : List String}
    {name : String} (h : visitCalls calls free order name = .ok order')
    (horder : CalleesFirst calls order) : CalleesFirst calls order' := by
  fun_induction visitCalls calls free order name generalizing order' with
  | case1 => exact Except.ok.inj h ▸ horder
  | case2 free order name hmem hfree ih =>
    obtain ⟨visited, hvisited, h⟩ := exists_of_bind_eq_ok h
    obtain rfl := Except.ok.inj h
    refine .snoc (of_foldlM (fun order callee _ h => ih order callee h) hvisited horder) ?_
    exact (mem_of_foldlM (fun _ _ _ h => mem_visitCalls h) hvisited).2
  | case3 => cases h

/-- The search through the call graph lists callees first. -/
theorem calleesFirst_callOrder {program : Node} {order : List String}
    (h : program.callOrder = .ok order) : CalleesFirst program.calls order :=
  of_foldlM (fun _ _ _ h => calleesFirst_visitCalls h) h .nil

/-! ## Calls -/

namespace Node

theorem mem_callTargets {n : Node} {target : String} : target ∈ n.callTargets ↔
    ∃ path m, n.at? path = some m ∧ m.kind = .call ∧ m.operandName = target := by
  simp only [callTargets, List.mem_filterMap, mem_nodes]
  constructor
  · rintro ⟨m, ⟨path, hat⟩, heq⟩
    split at heq
    · rename_i hkind
      exact ⟨path, m, hat, hkind, Option.some.inj heq⟩
    · cases heq
  · rintro ⟨path, m, hat, hkind, rfl⟩
    exact ⟨m, ⟨path, hat⟩, if_pos hkind⟩

theorem mem_callTargets_of_at? {n m : Node} {path : Path} (hat : n.at? path = some m)
    {target : String} (h : target ∈ m.callTargets) : target ∈ n.callTargets := by
  obtain ⟨rest, k, hk, hkind, hname⟩ := mem_callTargets.mp h
  exact mem_callTargets.mpr ⟨path ++ rest, k, by rw [at?_append, hat]; exact hk, hkind, hname⟩

theorem mem_calls {program : Node} {name target : String} : target ∈ program.calls.image name ↔
    ∃ procedure ∈ program.children, procedure.name = name ∧ target ∈ procedure.callTargets := by
  rw [FinRel.mem_image, calls, FinRel.ofPairs]
  constructor
  · intro h
    obtain ⟨procedure, hprocedure, h⟩ := List.mem_flatMap.mp h
    obtain ⟨called, hcalled, heq⟩ := List.mem_map.mp h
    obtain ⟨rfl, rfl⟩ := Prod.mk.inj heq
    exact ⟨procedure, hprocedure, rfl, hcalled⟩
  · rintro ⟨procedure, hprocedure, rfl, h⟩
    exact List.mem_flatMap.mpr ⟨procedure, hprocedure, List.mem_map.mpr ⟨target, h, rfl⟩⟩

theorem mem_callTargets_iff {program : Node} (hkind : program.kind ≠ .call) {target : String} :
    target ∈ program.callTargets ↔
      ∃ procedure ∈ program.children, target ∈ procedure.callTargets := by
  constructor
  · intro h
    obtain ⟨path, m, hat, hm, hname⟩ := mem_callTargets.mp h
    cases path with
    | nil =>
      obtain rfl := Option.some.inj hat
      exact absurd hm hkind
    | cons i path =>
      obtain ⟨procedure, hprocedure, hat⟩ := Option.bind_eq_some_iff.mp hat
      exact ⟨procedure, List.mem_of_getElem? hprocedure,
        mem_callTargets.mpr ⟨path, m, hat, hm, hname⟩⟩
  · rintro ⟨procedure, hprocedure, h⟩
    obtain ⟨i, hi⟩ := List.getElem?_of_mem hprocedure
    have hat : program.at? [i] = some procedure := by simp [at?, hi]
    exact mem_callTargets_of_at? hat h

end Node

/-! ## Calls that come back -/

/-- A name calls another one. -/
def Calls (calls : FinRel String String) (caller callee : String) : Prop :=
  callee ∈ calls.image caller

section Chains

variable {calls : FinRel String String} {order : List String}

theorem CalleesFirst.mem_of_calls (h : CalleesFirst calls order) {x y : String} (hx : x ∈ order)
    (hxy : Calls calls x y) : y ∈ order := by
  induction h with
  | nil => cases hx
  | snoc _ hcallees ih =>
    rcases List.mem_append.mp hx with hx | hx
    · exact List.mem_append_left _ (ih hx)
    · exact List.mem_append_left _ (hcallees y (List.mem_singleton.mp hx ▸ hxy))

theorem CalleesFirst.mem_of_reflTransGen (h : CalleesFirst calls order) {x y : String}
    (hx : x ∈ order) (hxy : Relation.ReflTransGen (Calls calls) x y) : y ∈ order := by
  induction hxy with
  | refl => exact hx
  | tail _ hcall ih => exact h.mem_of_calls ih hcall

/-- No name that is listed after those that it calls comes back to itself. -/
theorem CalleesFirst.not_transGen_self (h : CalleesFirst calls order) {x : String}
    (hx : x ∈ order) : ¬Relation.TransGen (Calls calls) x x := by
  intro hloop
  induction h with
  | nil => cases hx
  | @snoc order name hfirst hcallees ih =>
    by_cases hmem : x ∈ order
    · exact ih hmem
    · -- the first call leads to an earlier name, and there is no way to a later one
      obtain ⟨y, hxy, hyx⟩ := Relation.TransGen.head'_iff.mp hloop
      have hname : x = name :=
        List.mem_singleton.mp ((List.mem_append.mp hx).resolve_left hmem)
      exact hmem (hfirst.mem_of_reflTransGen (hcallees y (hname ▸ hxy)) hyx)

/-- The search only fails at a name that comes back to itself. The names that are not free are those
of the chain of calls that has led to the name. -/
theorem transGen_self_of_visitCalls {all free : List String} {name : String} {e : SemanticError}
    (hclosed : ∀ x y, Calls calls x y → y ∈ all) (hname : name ∈ all)
    (hchain : ∀ x ∈ all, x ∉ free → Relation.TransGen (Calls calls) x name)
    (h : visitCalls calls free order name = .error e) :
    ∃ x, e = .cyclicCall x ∧ Relation.TransGen (Calls calls) x x := by
  fun_induction visitCalls calls free order name with
  | case1 => cases h
  | case2 free order name _ _ ih =>
    rcases of_bind_eq_error h with herror | ⟨visited, -, hdone⟩
    · obtain ⟨order', callee, hcall, herror⟩ := exists_of_foldlM_eq_error herror
      refine ih order' callee (hclosed name callee hcall) (fun x hx hnot => ?_) herror
      -- the chain to the callee is the chain to the caller with one more call
      by_cases hself : x = name
      · exact hself ▸ .single hcall
      · exact (hchain x hx fun hin => hnot ((List.mem_erase_of_ne hself).mpr hin)).tail hcall
    · cases hdone
  | case3 free order name _ hnot =>
    exact ⟨name, (Except.error.inj h).symm, hchain name hname hnot⟩

/-- A name is listed once, and only if it was free or has been listed before. A name on the chain is
not free, so it is not listed while the names that it calls are visited. -/
theorem nodup_visitCalls {free order' : List String} {name : String} (hfree : free.Nodup)
    (horder : order.Nodup) (h : visitCalls calls free order name = .ok order') :
    order'.Nodup ∧ ∀ x ∈ order', x ∈ order ∨ x ∈ free := by
  fun_induction visitCalls calls free order name generalizing order' with
  | case1 free order name _ =>
    obtain rfl := Except.ok.inj h
    exact ⟨horder, fun x hx => .inl hx⟩
  | case2 free order name hnew hname ih =>
    obtain ⟨visited, hvisited, h⟩ := exists_of_bind_eq_ok h
    obtain rfl := Except.ok.inj h
    obtain ⟨hnodup, hfrom⟩ : visited.Nodup ∧ ∀ x ∈ visited, x ∈ order ∨ x ∈ free.erase name := by
      refine of_foldlM (P := fun l => l.Nodup ∧ ∀ x ∈ l, x ∈ order ∨ x ∈ free.erase name)
        (fun l callee l' hstep hl => ?_) hvisited ⟨horder, fun x hx => .inl hx⟩
      obtain ⟨hnodup, hfrom⟩ := ih l callee (hfree.erase name) hl.1 hstep
      exact ⟨hnodup, fun x hx => (hfrom x hx).elim (hl.2 x) .inr⟩
    have hname' : name ∉ visited := fun hmem =>
      (hfrom name hmem).elim hnew hfree.not_mem_erase
    refine ⟨List.nodup_append.mpr ⟨hnodup, List.pairwise_singleton _ name, ?_⟩, fun x hx => ?_⟩
    · rintro x hx y hy rfl
      exact hname' (List.mem_singleton.mp hy ▸ hx)
    · rcases List.mem_append.mp hx with hx | hx
      · exact (hfrom x hx).imp_right List.mem_of_mem_erase
      · exact .inr (List.mem_singleton.mp hx ▸ hname)
  | case3 => cases h

/-- A name comes after all that it calls, also through other names. -/
theorem CalleesFirst.mem_of_transGen (h : CalleesFirst calls order) {earlier later : List String}
    {name callee : String} (horder : order = earlier ++ name :: later)
    (hcall : Relation.TransGen (Calls calls) name callee) : callee ∈ earlier := by
  induction h generalizing later with
  | nil => simp at horder
  | @snoc order last hfirst hcallees ih =>
    rcases List.eq_nil_or_concat later with rfl | ⟨init, final, rfl⟩
    · obtain ⟨rfl, hlast⟩ := List.append_inj' horder rfl
      obtain rfl := List.singleton_inj.mp hlast
      obtain ⟨first, hfirstCall, hrest⟩ := Relation.TransGen.head'_iff.mp hcall
      exact hfirst.mem_of_reflTransGen (hcallees first hfirstCall) hrest
    · rw [List.concat_eq_append, ← List.cons_append, ← List.append_assoc] at horder
      exact ih (List.append_inj' horder rfl).1

end Chains

/-! ## Validity in any order -/

/-- The search through the call graph only fails at a name that comes back to itself. -/
theorem transGen_self_of_callOrder {program : Node} (hkind : program.kind ≠ .call)
    {e : SemanticError} (h : program.callOrder = .error e) :
    ∃ x, e = .cyclicCall x ∧ Relation.TransGen (Calls program.calls) x x := by
  have hclosed : ∀ x y, Calls program.calls x y →
      y ∈ ascending (program.procedureNames ++ program.callTargets) := by
    intro x y hxy
    obtain ⟨procedure, hprocedure, -, htarget⟩ := Node.mem_calls.mp hxy
    have hmem := (Node.mem_callTargets_iff hkind).mpr ⟨procedure, hprocedure, htarget⟩
    exact mem_ascending.mpr (List.mem_append_right _ hmem)
  obtain ⟨order, name, hname, herror⟩ := exists_of_foldlM_eq_error h
  exact transGen_self_of_visitCalls hclosed (mem_ascending.mpr (List.mem_append_left _ hname))
    (fun x hx hnot => absurd hx hnot) herror

theorem exists_callOrder {program : Node} (hkind : program.kind ≠ .call)
    (hacyclic : ∀ x, ¬Relation.TransGen (Calls program.calls) x x) :
    ∃ order, program.callOrder = .ok order := by
  cases horder : program.callOrder with
  | ok order => exact ⟨order, rfl⟩
  | error e =>
    obtain ⟨x, -, hloop⟩ := transGen_self_of_callOrder hkind horder
    exact absurd hloop (hacyclic x)

theorem not_transGen_self_of_callOrder {program : Node} {order : List String}
    (h : program.callOrder = .ok order) (x : String) :
    ¬Relation.TransGen (Calls program.calls) x x := by
  intro hloop
  -- only procedures call
  obtain ⟨y, hxy, -⟩ := Relation.TransGen.head'_iff.mp hloop
  obtain ⟨procedure, hprocedure, hname, -⟩ := Node.mem_calls.mp hxy
  have hmem : x ∈ program.procedureNames := List.mem_map.mpr ⟨procedure, hprocedure, hname⟩
  exact (calleesFirst_callOrder h).not_transGen_self (mem_callOrder h x hmem) hloop

/-- The procedures of a valid program may be declared in any order. -/
theorem validate_perm {program other : Node} (h : program.validate = .ok ())
    (hkind : program.kind ≠ .call) (hkind' : other.kind ≠ .call)
    (hperm : other.children.Perm program.children) : other.validate = .ok () := by
  obtain ⟨hnodup, hdeclared, order, horder⟩ := validate_eq_ok_iff.mp h
  have hnames : other.procedureNames.Perm program.procedureNames := hperm.map Node.name
  refine validate_eq_ok_iff.mpr ⟨hnames.nodup_iff.mpr hnodup, fun name hname => ?_, ?_⟩
  · obtain ⟨procedure, hprocedure, htarget⟩ := (Node.mem_callTargets_iff hkind').mp hname
    exact hnames.mem_iff.mpr (hdeclared name
      ((Node.mem_callTargets_iff hkind).mpr ⟨procedure, hperm.mem_iff.mp hprocedure, htarget⟩))
  · refine exists_callOrder hkind' fun x hloop => ?_
    have hcalls : ∀ x y, Calls other.calls x y → Calls program.calls x y := by
      intro x y hxy
      obtain ⟨procedure, hprocedure, htarget⟩ := Node.mem_calls.mp hxy
      exact Node.mem_calls.mpr ⟨procedure, hperm.mem_iff.mp hprocedure, htarget⟩
    exact not_transGen_self_of_callOrder horder x (Relation.TransGen.mono hcalls x x hloop)

/-! ## Recursion -/

/-- A procedure of the name `caller` has a statement that calls `callee`. -/
def Node.HasCall (program : Node) (caller callee : String) : Prop :=
  ∃ procedure ∈ program.children, procedure.name = caller ∧
    ∃ path call, procedure.at? path = some call ∧ call.kind = .call ∧ call.operandName = callee

namespace Node

theorem calls_eq_hasCall (program : Node) : Calls program.calls = program.HasCall := by
  funext caller callee
  simp only [Calls, HasCall, mem_calls, mem_callTargets]

theorem exists_hasCall_iff {program : Node} (hkind : program.kind ≠ .call) {callee : String} :
    (∃ caller, program.HasCall caller callee) ↔ callee ∈ program.callTargets := by
  rw [mem_callTargets_iff hkind]
  simp only [HasCall, mem_callTargets]
  constructor
  · rintro ⟨caller, procedure, hprocedure, -, hcall⟩
    exact ⟨procedure, hprocedure, hcall⟩
  · rintro ⟨procedure, hprocedure, hcall⟩
    exact ⟨procedure.name, procedure, hprocedure, rfl, hcall⟩

/-- Only a declared name comes back to itself. -/
theorem mem_procedureNames_of_transGen {program : Node} {caller callee : String}
    (h : Relation.TransGen program.HasCall caller callee) : caller ∈ program.procedureNames := by
  obtain ⟨first, ⟨procedure, hprocedure, hname, -⟩, -⟩ := Relation.TransGen.head'_iff.mp h
  exact List.mem_map.mpr ⟨procedure, hprocedure, hname⟩

theorem nodup_callOrder {program : Node} {order : List String}
    (h : program.callOrder = .ok order) :
    order.Nodup ∧ ∀ x ∈ order, x ∈ program.procedureNames ∨ x ∈ program.callTargets := by
  have hfree : (ascending (program.procedureNames ++ program.callTargets)).Nodup :=
    (pairwise_ascending _).imp fun hlt heq => by simp [heq] at hlt
  refine of_foldlM (P := fun l => l.Nodup ∧
    ∀ x ∈ l, x ∈ program.procedureNames ∨ x ∈ program.callTargets)
    (fun l name l' hstep hl => ?_) h ⟨List.nodup_nil, by simp⟩
  obtain ⟨hnodup, hfrom⟩ := nodup_visitCalls hfree hl.1 hstep
  refine ⟨hnodup, fun x hx => (hfrom x hx).elim (hl.2 x) fun hx => ?_⟩
  exact List.mem_append.mp (mem_ascending.mp hx)

/-- The order holds the declared names and the called ones. -/
theorem mem_callOrder_iff {program : Node} (hkind : program.kind ≠ .call) {order : List String}
    (h : program.callOrder = .ok order) {name : String} :
    name ∈ order ↔ name ∈ program.procedureNames ∨ name ∈ program.callTargets := by
  refine ⟨(nodup_callOrder h).2 name, ?_⟩
  rintro (hname | hname)
  · exact mem_callOrder h name hname
  · -- a called name is listed before its caller
    obtain ⟨procedure, hprocedure, htarget⟩ := (mem_callTargets_iff hkind).mp hname
    have hcaller := mem_callOrder h procedure.name (List.mem_map.mpr ⟨procedure, hprocedure, rfl⟩)
    exact (calleesFirst_callOrder h).mem_of_calls hcaller
      (mem_calls.mpr ⟨procedure, hprocedure, rfl, htarget⟩)

end Node

/-- The search through the call graph decides recursion. It succeeds if no procedure comes back to
itself through calls, and then lists the declared and the called names, each once and after all that
it calls directly or through others. It fails by naming a procedure that comes back to itself. So
a program is valid if its procedures have distinct names, its calls have declared targets and there
is no recursion. Names may be declared twice or not at all. -/
theorem callOrder_decides_recursion {tokens : List Token} {tree : Node}
    (hparse : parseProgram tokens = .ok tree) :
    ((∃ order, tree.callOrder = .ok order) ↔
      ∀ name ∈ tree.procedureNames, ¬Relation.TransGen tree.HasCall name name) ∧
    (∀ order, tree.callOrder = .ok order →
      order.Nodup ∧
      (∀ name, name ∈ order ↔
        name ∈ tree.procedureNames ∨ ∃ caller, tree.HasCall caller name) ∧
      ∀ earlier name later, order = earlier ++ name :: later →
        ∀ callee, Relation.TransGen tree.HasCall name callee → callee ∈ earlier) ∧
    (∀ e, tree.callOrder = .error e →
      ∃ name, e = .cyclicCall name ∧
        e.message = "Semantic error: cyclic call involving procedure '" ++ name ++ "'" ∧
        Relation.TransGen tree.HasCall name name) ∧
    (tree.validate = .ok () ↔
      tree.procedureNames.Nodup ∧
      (∀ caller callee, tree.HasCall caller callee → callee ∈ tree.procedureNames) ∧
      ∀ name ∈ tree.procedureNames, ¬Relation.TransGen tree.HasCall name name) := by
  have hkind : tree.kind ≠ .call := by
    obtain ⟨-, -⟩ := isProgram_of_parseProgram hparse fun _ _ => trivial
    simp
  have hdecides : (∃ order, tree.callOrder = .ok order) ↔
      ∀ name ∈ tree.procedureNames, ¬Relation.TransGen tree.HasCall name name := by
    constructor
    · rintro ⟨order, horder⟩ name -
      exact tree.calls_eq_hasCall ▸ not_transGen_self_of_callOrder horder name
    · intro hacyclic
      refine exists_callOrder hkind fun name hloop => ?_
      rw [tree.calls_eq_hasCall] at hloop
      exact hacyclic name (Node.mem_procedureNames_of_transGen hloop) hloop
  refine ⟨hdecides, fun order horder => ⟨(Node.nodup_callOrder horder).1, fun name => ?_, ?_⟩,
    fun e herror => ?_, ?_⟩
  · rw [Node.exists_hasCall_iff hkind, Node.mem_callOrder_iff hkind horder]
  · intro earlier name later hsplit callee hcall
    rw [← tree.calls_eq_hasCall] at hcall
    exact (calleesFirst_callOrder horder).mem_of_transGen hsplit hcall
  · obtain ⟨name, rfl, hloop⟩ := transGen_self_of_callOrder hkind herror
    exact ⟨name, rfl, rfl, tree.calls_eq_hasCall ▸ hloop⟩
  · have htargets : (∀ name ∈ tree.callTargets, name ∈ tree.procedureNames) ↔
        ∀ caller callee, tree.HasCall caller callee → callee ∈ tree.procedureNames := by
      simp only [← Node.exists_hasCall_iff hkind]
      exact ⟨fun h caller callee hcall => h callee ⟨caller, hcall⟩,
        fun h callee ⟨caller, hcall⟩ => h caller callee hcall⟩
    rw [validate_eq_ok_iff, htargets, hdecides]

/-- Two procedures call a third one, which is declared twice, and one of them calls a missing
one. -/
def sharedCallee : String :=
  "procedure a \x7b call b; call c; \x7d procedure b \x7b call d; call c; \x7d " ++
    "procedure c \x7b x = 1; \x7d procedure c \x7b y = 2; \x7d"

/-- A procedure that calls one of two others, which call each other. -/
def ringOfTwo : String :=
  "procedure a \x7b call b; \x7d procedure b \x7b call c; \x7d procedure c \x7b call b; \x7d"

/-- A shared callee is listed once, before its callers, although not all names are declared. In a
ring it is a procedure of the ring that is named, and not the one that leads to it. -/
theorem callOrder_decides_recursion_shared : ∃ tokens tree tokens' tree',
    tokenize sharedCallee = .ok tokens ∧ parseProgram tokens = .ok tree ∧
      tree.callOrder = .ok ["c", "d", "b", "a"] ∧
      (∀ name ∈ tree.procedureNames, ¬Relation.TransGen tree.HasCall name name) ∧
      (∀ callee, Relation.TransGen tree.HasCall "b" callee → callee ∈ ["c", "d"]) ∧
      tree.validate ≠ .ok () ∧
    tokenize ringOfTwo = .ok tokens' ∧ parseProgram tokens' = .ok tree' ∧
      tree'.callOrder = .error (.cyclicCall "b") ∧
      Relation.TransGen tree'.HasCall "b" "b" ∧ tree'.validate ≠ .ok () := by
  have hrun : (do
      let tokens ← (tokenize sharedCallee).toOption
      let tree ← (parseProgram tokens).toOption
      let order ← tree.callOrder.toOption
      return (order, decide tree.procedureNames.Nodup)) =
        some (["c", "d", "b", "a"], false) := by
    decide +kernel
  have hring : (do
      let tokens ← (tokenize ringOfTwo).toOption
      let tree ← (parseProgram tokens).toOption
      return (match tree.callOrder with
        | .error e => some e
        | .ok _ => none)) = some (some (.cyclicCall "b")) := by
    decide +kernel
  obtain ⟨tokens, htokens, hrun⟩ := Option.bind_eq_some_iff.mp hrun
  obtain ⟨tree, htree, hrun⟩ := Option.bind_eq_some_iff.mp hrun
  obtain ⟨order, horder, hrun⟩ := Option.bind_eq_some_iff.mp hrun
  obtain ⟨rfl, hrepeat⟩ := Prod.mk.inj (Option.some.inj hrun)
  obtain ⟨tokens', htokens', hring⟩ := Option.bind_eq_some_iff.mp hring
  obtain ⟨tree', htree', hring⟩ := Option.bind_eq_some_iff.mp hring
  have htree := eq_ok_of_toOption htree
  have horder := eq_ok_of_toOption horder
  have htree' := eq_ok_of_toOption htree'
  have herror : tree'.callOrder = .error (.cyclicCall "b") := by
    cases hcalls : tree'.callOrder with
    | error e => rw [hcalls] at hring; exact congrArg _ (Option.some.inj (Option.some.inj hring))
    | ok _ => rw [hcalls] at hring; cases hring
  obtain ⟨hdecides, hlisted, -, hvalid⟩ := callOrder_decides_recursion htree
  obtain ⟨-, -, hnamed, hvalid'⟩ := callOrder_decides_recursion htree'
  obtain ⟨name, hname, -, hloop⟩ := hnamed _ herror
  obtain rfl := SemanticError.cyclicCall.inj hname
  refine ⟨tokens, tree, tokens', tree', eq_ok_of_toOption htokens, htree, horder,
    hdecides.mp ⟨_, horder⟩, (hlisted _ horder).2.2 ["c", "d"] "b" ["a"] rfl,
    fun hok => of_decide_eq_false hrepeat (hvalid.mp hok).1, eq_ok_of_toOption htokens', htree',
    herror, hloop, fun hok => ?_⟩
  exact (hvalid'.mp hok).2.2 "b" (Node.mem_procedureNames_of_transGen hloop) hloop

end ProgramQuery
