import ProgramQuery.Proofs.Propagation
import ProgramQuery.Query.Answer

/-!
# Queries that have been read are never stuck

A query that has been read is well typed. So its evaluation never meets the cases that it gives up
in: there is a plan, every clause but an equation states a relation, and every candidate has the
attributes that the query asks for, whatever the program is. Candidates are only ever dropped, so
this holds in all states of the evaluation.

## Main definitions

- `Query.Reaches`: the states that an evaluation can come to.

## Main statements

- `Candidates.onlyDrops_apply`, `Candidates.refines_of_canApply`: a clause only drops candidates,
  and so do some clauses one after another.
- `exists_operandOf?_of_ofTree`: calls, reads and prints have a name, in every tree.
- `accepted_query_never_stuck`: reading a query leaves no case in which its evaluation gives up.
-/

namespace ProgramQuery

/-! ## States of the evaluation -/

theorem Clause.IsWellTyped.isInvalid_eq_false {declared : Declarations} {c : Clause}
    (h : c.IsWellTyped declared) : c.isInvalid = false := by
  have hrole {a : Argument} {sorts : List ArgumentKind} (ha : a.Suits declared sorts)
      (hsorts : .invalid ∉ sorts) : a.role ≠ .invalid :=
    mt a.kind.role_eq_invalid_iff.mp (ne_of_mem_of_not_mem ha.sort hsorts)
  have hleft := hrole h.left c.kind.invalid_not_mem_sorts.1
  have hright := hrole h.right c.kind.invalid_not_mem_sorts.2
  simp [isInvalid, hleft, hright]

namespace Candidates

/-- What is left, if anything is, are some of the candidates of before, and settled. -/
def OnlyDrops (s : Candidates) (result : Option Candidates) : Prop :=
  ∀ t, result = some t → t.Refines s ∧ t.Settled

variable {settle : Candidates → Option Candidates} {s : Candidates}

theorem onlyDrops_none : s.OnlyDrops none := by
  intro t h
  cases h

theorem onlyDrops_check (hs : s.Settled) (holds : Bool) : s.OnlyDrops (s.check holds) := by
  intro t h
  unfold check at h
  split at h
  · obtain rfl := Option.some.inj h
    exact ⟨Refines.refl _, hs⟩
  · cases h

variable (hsettle : IsSettling settle)

include hsettle

theorem onlyDrops_narrow (hs : s.Settled) (x : String) (allowed : List String) :
    s.OnlyDrops (s.narrow x allowed settle) := by
  intro t h
  obtain ⟨hrefines, hsettled, -⟩ := refines_of_narrow hsettle h hs
  exact ⟨hrefines, hsettled⟩

theorem onlyDrops_constrain (a b : String) (pairs : List (String × String)) :
    s.OnlyDrops (s.constrain a b pairs settle) := by
  intro t h
  obtain ⟨hrefines, hsettled, -⟩ := refines_of_constrain hsettle h
  exact ⟨hrefines, hsettled⟩

theorem onlyDrops_applyConnection (hs : s.Settled) (facts : Facts) (connection : Connection)
    (left right : Argument) :
    s.OnlyDrops (applyConnection facts connection left right s settle) := by
  unfold applyConnection
  split
  · exact onlyDrops_none
  · exact onlyDrops_none
  · exact onlyDrops_check hs _
  · exact onlyDrops_check hs _
  · exact onlyDrops_check hs _
  · exact onlyDrops_check hs _
  · exact onlyDrops_narrow hsettle hs _ _
  · exact onlyDrops_narrow hsettle hs _ _
  · exact onlyDrops_narrow hsettle hs _ _
  · exact onlyDrops_narrow hsettle hs _ _
  · unfold applyPair
    split
    · exact onlyDrops_narrow hsettle hs _ _
    · exact onlyDrops_constrain hsettle _ _ _

theorem onlyDrops_applyEquality (hs : s.Settled) (facts : Facts) (left right : Argument) :
    s.OnlyDrops (applyEquality facts left right s settle) := by
  unfold applyEquality
  split
  · split
    · exact onlyDrops_check hs _
    · exact onlyDrops_narrow hsettle hs _ _
    · exact onlyDrops_narrow hsettle hs _ _
    · unfold applyEqualPair
      split
      · exact onlyDrops_narrow hsettle hs _ _
      · exact onlyDrops_constrain hsettle _ _ _
    · exact onlyDrops_none
  · exact onlyDrops_none

/-- A clause only drops candidates, whatever the facts are. -/
theorem onlyDrops_apply (hs : s.Settled) (facts : Facts) (c : Clause) :
    s.OnlyDrops (apply facts c s settle) := by
  unfold apply
  split
  · exact onlyDrops_applyEquality hsettle hs facts _ _
  · split
    · exact onlyDrops_none
    · split
      · exact onlyDrops_none
      · exact onlyDrops_applyConnection hsettle hs facts _ _ _

omit hsettle

theorem refines_of_canApply {facts : Facts} {plan : List Clause} {t : Candidates}
    (h : CanApply facts plan s (some t)) (hs : s.Settled) : t.Refines s ∧ t.Settled := by
  generalize hresult : some t = result at h
  induction h with
  | nil =>
    obtain rfl := Option.some.inj hresult
    exact ⟨Refines.refl _, hs⟩
  | fails _ _ => cases hresult
  | cons hsettle happly _ ih =>
    obtain ⟨hrefines, hsettled⟩ := onlyDrops_apply hsettle hs facts _ _ happly
    obtain ⟨hrefines', hsettled'⟩ := ih hsettled hresult
    exact ⟨hrefines'.trans hrefines, hsettled'⟩

theorem CanApply.append {facts : Facts} {plan plan' : List Clause} {t : Candidates}
    {result : Option Candidates} (h : CanApply facts plan s (some t))
    (h' : CanApply facts plan' t result) : CanApply facts (plan ++ plan') s result := by
  generalize hmiddle : some t = middle at h
  induction h with
  | nil =>
    obtain rfl := Option.some.inj hmiddle
    exact h'
  | fails _ _ => cases hmiddle
  | cons hsettle happly _ ih => exact .cons hsettle happly (ih hmiddle)

end Candidates

namespace Query

/-- The candidates can be left when clauses of the query are applied to all entities, in any order
and any number of times. -/
def Reaches (facts : Facts) (q : Query) (s : Candidates) : Prop :=
  ∃ plan, (∀ c ∈ plan, c ∈ q.clauses) ∧
    Candidates.CanApply facts plan (.initial facts q.declarations) (some s)

variable {facts : Facts} {q : Query} {s : Candidates}

theorem Reaches.isWithin (h : q.Reaches facts s) : s.IsWithin facts q.declarations := by
  obtain ⟨plan, -, happly⟩ := h
  exact (Candidates.refines_of_canApply happly nofun).1.mem_of_mem

/-- The evaluation of a query ends in a state that its clauses can lead to. -/
theorem IsTyped.reaches_of_evaluate? (ht : q.IsTyped) (h : evaluate? facts q = some s) :
    q.Reaches facts s := by
  obtain ⟨plan, hmem, hrun⟩ := ht.exists_canRun facts
  rw [h] at hrun
  cases hrun with
  | reapplies hforward hrest =>
    refine hrest.of_step (P := q.Reaches facts) (fun a b hab ha => ?_)
      ⟨plan, fun c hc => (hmem c).mp hc, hforward⟩
    obtain ⟨plan', hplan', happly⟩ := ha
    refine ⟨plan' ++ plan.reverse, fun c hc => ?_, happly.append hab⟩
    rcases List.mem_append.mp hc with hc | hc
    · exact hplan' c hc
    · exact (hmem c).mp (List.mem_reverse.mp hc)

end Query

/-! ## Attributes of candidates -/

section Tree

variable {tree : Node} {facts : Facts} (h : Facts.ofTree tree = .ok facts)
  (hsize : facts.kinds.size < numeralBound)

include h hsize

/-- A call, read or print statement of any tree is about a name. -/
theorem exists_operandOf?_of_ofTree {kind : NodeKind}
    (hkind : kind ∈ [NodeKind.call, .read, .print]) {value : String}
    (hvalue : value ∈ numberTexts (facts.statementsOfKind kind)) :
    ∃ name, operandOf? facts kind value = some name := by
  obtain ⟨⟨⟩, -, h⟩ := exists_of_bind_eq_ok h
  obtain ⟨order, -, h⟩ := exists_of_bind_eq_ok h
  obtain rfl := Except.ok.inj h
  obtain ⟨s, hs, rfl⟩ := mem_numberTexts.mp hvalue
  have hkindOf := of_decide_eq_true (List.mem_filter.mp hs).2
  have hlt : s < numeralBound := by
    have hstatement := Facts.isStatement_iff.mp (Facts.isStatement_of_kindOf? hkindOf)
    omega
  obtain ⟨st, hst, rfl, hnode⟩ := exists_of_kindOf? hkindOf
  have hmem : st.node.operandName ∈ (Facts.gather tree order).operands.image st.number := by
    refine FinRel.mem_image.mpr (List.mem_map.mpr ⟨st, List.mem_filter.mpr ⟨hst, ?_⟩, rfl⟩)
    exact decide_eq_true (hnode ▸ hkind)
  obtain ⟨name, rest, himage⟩ := List.exists_cons_of_ne_nil (List.ne_nil_of_mem hmem)
  exact ⟨name, by rw [operandOf?, numeral?_toString hlt, Option.bind_some, Facts.operandAt?,
    if_pos hkindOf, himage]; rfl⟩

/-- Entities have the attributes that fit them, in any tree. -/
theorem exists_attribute?_of_ofTree {kind : EntityKind} {sort : ArgumentKind} {value : String}
    (hfits : kind.fits sort = true) (hvalue : value ∈ facts.entities kind) :
    ∃ x, sort.attribute? facts value = some x := by
  cases sort with
  | calledProcedure =>
    obtain rfl : kind = .call := by cases kind <;> first | rfl | cases hfits
    exact exists_operandOf?_of_ofTree h hsize (by decide) hvalue
  | readVariable =>
    obtain rfl : kind = .read := by cases kind <;> first | rfl | cases hfits
    exact exists_operandOf?_of_ofTree h hsize (by decide) hvalue
  | printVariable =>
    obtain rfl : kind = .print := by cases kind <;> first | rfl | cases hfits
    exact exists_operandOf?_of_ofTree h hsize (by decide) hvalue
  | _ => exact ⟨value, rfl⟩

theorem exists_shown?_of_ofTree {kind : EntityKind} {asked : ElementKind} {value : String}
    (hasks : asked.asksOf kind = true) (hvalue : value ∈ facts.entities kind) :
    ∃ x, asked.shown? facts value = some x := by
  cases asked with
  | plain => exact ⟨value, rfl⟩
  | attr a => exact exists_attribute?_of_ofTree h hsize (Attribute.fits_of_belongsTo hasks) hvalue
  | boolean => cases hasks

end Tree

theorem exists_ofClause? (facts : Facts) {c : Clause} (h : c.kind ≠ .equality) :
    ∃ connection, Connection.ofClause? facts c = some connection := by
  unfold Connection.ofClause?
  cases hkind : c.kind with
  | equality => exact absurd hkind h
  | _ => exact ⟨_, rfl⟩

theorem Candidates.IsWithin.mem_entities {facts : Facts} {declared : Declarations} {s : Candidates}
    (h : s.IsWithin facts declared) {x value : String} {kind : EntityKind}
    (hlookup : declared.lookup x = some kind) (hvalue : value ∈ s.domains.get x) :
    value ∈ facts.entities kind := by
  have hmem := h x value hvalue
  rwa [initialDomain, hlookup] at hmem

/-- A query that has been read is well typed, and none of the cases in which its evaluation gives up
can arise: there is a plan, every clause but an equation states a relation, and for every program
all candidates, in every state that the evaluation comes to, have the attributes that the clauses
compare and that the query shows. -/
theorem accepted_query_never_stuck {text : String} {q : Query} (h : Query.ofText text = .ok q) :
    q.IsWellTyped ∧ (∀ c ∈ q.clauses, c.isInvalid = false) ∧
    (∃ groups, plan? q.clauses q.selected = some groups) ∧
    (∀ facts, ∀ c ∈ q.clauses, c.kind ≠ .equality →
      ∃ connection, Connection.ofClause? facts c = some connection) ∧
    ∀ tree facts, Facts.ofTree tree = .ok facts → facts.kinds.size < numeralBound →
      (∀ s, evaluate? facts q = some s → q.Reaches facts s) ∧
      ∀ s, q.Reaches facts s →
        (∀ c ∈ q.clauses, ∀ a ∈ [c.left, c.right], a.role = .synonym →
          ∀ value ∈ s.domains.get a.value, ∃ x, a.kind.attribute? facts value = some x) ∧
        ∀ e ∈ q.elements, ∀ value ∈ s.domains.get e.synonym,
          ∃ x, e.kind.shown? facts value = some x := by
  obtain ⟨ts, -, hselect⟩ := ofText_eq_ok_iff.mp h
  have htyped := QueryGrammar.isWellTyped_selectClause hselect
  have hvalid : ∀ c ∈ q.clauses, c.isInvalid = false :=
    fun c hc => (htyped.clauses c hc).isInvalid_eq_false
  refine ⟨htyped, hvalid, exists_plan? hvalid q.selected, fun facts c _ => exists_ofClause? facts,
    fun tree facts hfacts hsize => ⟨fun s => (isTyped_of_ofText h).reaches_of_evaluate?,
      fun s hs => ⟨fun c hc a ha hrole value hvalue => ?_, fun e he value hvalue => ?_⟩⟩⟩
  · have hdeclared : ∃ kind, q.declarations.lookup a.value = some kind ∧
        kind.fits a.kind = true := by
      rcases List.mem_pair.mp ha with rfl | rfl
      · exact (htyped.clauses c hc).left.declared hrole
      · exact (htyped.clauses c hc).right.declared hrole
    obtain ⟨kind, hlookup, hfits⟩ := hdeclared
    exact exists_attribute?_of_ofTree hfacts hsize hfits (hs.isWithin.mem_entities hlookup hvalue)
  · rcases htyped.elements with hboolean | ⟨-, helements⟩
    · rw [hboolean, List.mem_singleton] at he
      rw [he]
      exact ⟨value, rfl⟩
    · obtain ⟨kind, hlookup, hasks⟩ := helements e he
      exact exists_shown?_of_ofTree hfacts hsize hasks (hs.isWithin.mem_entities hlookup hvalue)

/-- A query about calls, in the state at the end of its evaluation: the call that is left as a
candidate has the name that the query shows and that its equation compares. -/
theorem accepted_query_never_stuck_call : ∃ q tree facts s,
    Query.ofText ("call c; procedure p; assign a; Select <c.procName, a> " ++
      "such that Calls(_, p) pattern a(_, _\"1\"_) with c.procName = p.procName") = .ok q ∧
    programTree "procedure m\x7bcall n; read x;\x7d procedure n\x7bx = y + 1;\x7d" = .ok tree ∧
    Facts.ofTree tree = .ok facts ∧ facts.kinds.size < numeralBound ∧
    evaluate? facts q = some s ∧ q.Reaches facts s ∧ q.IsWellTyped ∧
    "1" ∈ s.domains.get "c" ∧ ∃ x, ArgumentKind.calledProcedure.attribute? facts "1" = some x ∧
      (ElementKind.attr .calledName).shown? facts "1" = some x := by
  have hrun : (do
      let q ← (Query.ofText ("call c; procedure p; assign a; Select <c.procName, a> " ++
        "such that Calls(_, p) pattern a(_, _\"1\"_) with c.procName = p.procName")).toOption
      let tree ← (programTree
        "procedure m\x7bcall n; read x;\x7d procedure n\x7bx = y + 1;\x7d").toOption
      let facts ← (Facts.ofTree tree).toOption
      let s ← evaluate? facts q
      return decide (facts.kinds.size < numeralBound ∧ "1" ∈ s.domains.get "c" ∧
        ⟨.attr .calledName, "c"⟩ ∈ q.elements)) = some true := by
    decide +kernel
  obtain ⟨q, hq, hrun⟩ := Option.bind_eq_some_iff.mp hrun
  obtain ⟨tree, htree, hrun⟩ := Option.bind_eq_some_iff.mp hrun
  obtain ⟨facts, hfacts, hrun⟩ := Option.bind_eq_some_iff.mp hrun
  obtain ⟨s, hs, hrun⟩ := Option.bind_eq_some_iff.mp hrun
  obtain ⟨hsize, hmem, helement⟩ := of_decide_eq_true (Option.some.inj hrun)
  have hq := eq_ok_of_toOption hq
  have hfacts := eq_ok_of_toOption hfacts
  obtain ⟨htyped, -, -, -, hall⟩ := accepted_query_never_stuck hq
  obtain ⟨hreaches, hstates⟩ := hall tree facts hfacts hsize
  obtain ⟨x, hx⟩ := (hstates s (hreaches s hs)).2 _ helement "1" hmem
  exact ⟨q, tree, facts, s, hq, eq_ok_of_toOption htree, hfacts, hsize, hs, hreaches s hs, htyped,
    hmem, x, hx, hx⟩

end ProgramQuery
