import Mathlib.Data.List.Cycle
import ProgramQuery.Proofs.TreePosition

/-!
# Chains and cycles

The starred form of a relation follows chains of one or more steps of its plain form, forwards and
backwards. The search for the ends of chains does not count its start as found, so that an element
is among its own successors only if steps lead back to it. Such an element lies on a cycle of
distinct elements. Loops make cycles of the control flow and of the flow of values, and the call
graph of a valid program has none.

## Main definitions

- `OnCycle`: an element is on a cycle of steps.
- `FinRel.StarsAreChains`: the starred form of a relation is made of the chains of its plain form.

## Main statements

- `transGen_self_iff_onCycle`: what comes back to itself lies on a cycle.
- `starred_iff_chain`: the starred relations of a program are the chains of the plain ones.
-/

namespace ProgramQuery

/-! ## Cycles -/

section Cycles

variable {α : Type} {step : α → α → Prop} {a b : α}

/-- The element is one of some distinct ones with a step from each to the next, and from the last
to the first. -/
def OnCycle (step : α → α → Prop) (a : α) : Prop :=
  ∃ c : Cycle α, c.Nodup ∧ a ∈ c ∧ c.Chain step

/-- Steps that meet an element twice can leave out what is in between. -/
theorem exists_nodup_of_reflTransGen (h : Relation.ReflTransGen step a b) :
    ∃ l : List α, l.Nodup ∧ l.IsChain step ∧ l.head? = some a ∧ l.getLast? = some b := by
  induction h using Relation.ReflTransGen.head_induction_on with
  | refl => exact ⟨[b], List.nodup_singleton b, .singleton b, rfl, rfl⟩
  | @head a c hstep _ ih =>
    obtain ⟨l, hnodup, hchain, hhead, hlast⟩ := ih
    by_cases ha : a ∈ l
    · -- the way from here on has been found already
      obtain ⟨skipped, rest, rfl⟩ := List.append_of_mem ha
      refine ⟨a :: rest, hnodup.of_append_right, hchain.right_of_append, rfl, ?_⟩
      rw [List.getLast?_append_cons] at hlast
      exact hlast
    · refine ⟨a :: l, List.nodup_cons.mpr ⟨ha, hnodup⟩, ?_, rfl, ?_⟩
      · refine List.isChain_cons.mpr ⟨fun x hx => ?_, hchain⟩
        rw [hhead] at hx
        exact Option.some.inj hx ▸ hstep
      · cases l with
        | nil => cases hhead
        | cons d l => rw [List.getLast?_cons_cons, hlast]

/-- What comes back to itself lies on a cycle. -/
theorem transGen_self_iff_onCycle : Relation.TransGen step a a ↔ OnCycle step a := by
  constructor
  · intro h
    obtain ⟨b, hab, hba⟩ := Relation.TransGen.head'_iff.mp h
    obtain ⟨l, hnodup, hchain, hhead, hlast⟩ := exists_nodup_of_reflTransGen hba
    refine ⟨(l : Cycle α), Cycle.nodup_coe_iff.mpr hnodup,
      Cycle.mem_coe_iff.mpr (List.mem_of_getLast? hlast), ?_⟩
    -- the first step closes the way back
    cases l with
    | nil => cases hhead
    | cons c l =>
      obtain rfl := Option.some.inj hhead
      rw [Cycle.chain_coe_cons, ← List.cons_append]
      refine hchain.append (.singleton c) fun x hx y hy => ?_
      rw [hlast] at hx
      obtain rfl := Option.some.inj hx
      obtain rfl := Option.some.inj hy
      exact hab
  · rintro ⟨c, -, ha, hchain⟩
    have hclosed : c.Chain (Relation.TransGen step) := hchain.imp fun _ _ => .single
    exact Cycle.chain_iff_pairwise.mp hclosed a ha a ha

end Cycles

/-! ## Starred relations -/

namespace FinRel

variable {α : Type} [Ord α] [Std.TransOrd α]

/-- The starred form of a relation is made of the chains of its plain form. It is the same relation
when it is asked backwards, all lists are strictly ascending, and an element is related to itself
if it lies on a cycle. -/
structure StarsAreChains [LT α] (r : FinRel α α) : Prop where
  mem_after : ∀ n m, m ∈ r.after n true ↔
    Relation.TransGen (fun a b => b ∈ r.after a false) n m
  mem_before : ∀ n m, m ∈ r.after n true ↔ n ∈ r.before m true
  pairwise_after : ∀ n starred, (r.after n starred).Pairwise (· < ·)
  pairwise_before : ∀ n starred, (r.before n starred).Pairwise (· < ·)
  self_mem_after : ∀ n, n ∈ r.after n true ↔ OnCycle (fun a b => b ∈ r.after a false) n

theorem starsAreChains [Std.LawfulEqOrd α] [DecidableEq α] [LT α]
    (hlt : ∀ a b : α, compare a b = .lt → a < b) (r : FinRel α α) : r.StarsAreChains := by
  have hafter : ∀ n m, m ∈ r.after n true ↔
      Relation.TransGen (fun a b => b ∈ r.after a false) n m := by
    intro n m
    simp only [FinRel.mem_after, Links, if_true, Bool.false_eq_true, if_false]
  exact
    { mem_after := hafter
      mem_before := fun n m => FinRel.mem_after.trans FinRel.mem_before.symm
      pairwise_after := fun n starred => by
        cases starred <;> exact (pairwise_ascending _).imp (hlt _ _)
      pairwise_before := fun n starred => by
        cases starred <;> exact (pairwise_ascending _).imp (hlt _ _)
      self_mem_after := fun n => (hafter n n).trans transGen_self_iff_onCycle }

end FinRel

/-- The calls of a program with facts do not come back. -/
theorem not_transGen_calls_self {source : String} {facts : Facts}
    (hfacts : Facts.ofSource source = .ok facts) (name : String) :
    ¬Relation.TransGen (Calls facts.calls) name name := by
  obtain ⟨tree, -, hfacts⟩ := exists_of_bind_eq_ok hfacts
  obtain ⟨⟨⟩, -, hfacts⟩ := exists_of_bind_eq_ok (eq_ok_of_mapError hfacts)
  obtain ⟨order, horder, hfacts⟩ := exists_of_bind_eq_ok hfacts
  obtain rfl := Except.ok.inj hfacts
  exact not_transGen_self_of_callOrder horder name

/-- Next*, Affects* and Calls* of every program are the chains of one or more steps of Next, Affects
and Calls, forwards and backwards. A statement or procedure is related to itself if it lies on
a cycle of steps, and no procedure does. -/
theorem starred_iff_chain {source : String} {facts : Facts}
    (hfacts : Facts.ofSource source = .ok facts) :
    facts.next.StarsAreChains ∧ facts.affects.StarsAreChains ∧ facts.calls.StarsAreChains ∧
      ∀ name, name ∉ facts.calls.after name true ∧ name ∉ facts.calls.before name true := by
  have hcalls := facts.calls.starsAreChains fun _ _ => compareOfLessAndEq_eq_lt.mp
  refine ⟨facts.next.starsAreChains fun _ _ => Nat.compare_eq_lt.mp,
    facts.affects.starsAreChains fun _ _ => Nat.compare_eq_lt.mp, hcalls, fun name => ?_⟩
  have hself : name ∉ facts.calls.after name true := fun hmem =>
    not_transGen_calls_self hfacts name ((hcalls.mem_after name name).mp hmem)
  exact ⟨hself, fun hmem => hself ((hcalls.mem_before name name).mpr hmem)⟩

/-- A loop that adds up, and a call before it. -/
def addsUp : String :=
  "procedure main \x7b call input; while (n > 0) \x7b n = n - 1; s = s + n; \x7d print s; \x7d " ++
    "procedure input \x7b read n; \x7d"

/-- In the loop every statement comes after itself, and the values of both assignments flow back to
them. The procedure that is called does not call back. -/
theorem starred_iff_chain_addsUp : ∃ facts, Facts.ofSource addsUp = .ok facts ∧
    facts.next.after 3 true = [2, 3, 4, 5] ∧ facts.next.before 3 true = [1, 2, 3, 4] ∧
    facts.affects.after 3 true = [3, 4] ∧
    OnCycle (fun a b => b ∈ facts.next.after a false) 3 ∧
    ¬OnCycle (fun a b => b ∈ facts.next.after a false) 5 ∧
    facts.calls.after "main" true = ["input"] ∧
    ¬OnCycle (fun a b => b ∈ facts.calls.after a false) "main" := by
  have hrun : (do
      let facts ← (Facts.ofSource addsUp).toOption
      return (facts.next.after 3 true, facts.next.before 3 true, facts.next.after 5 true,
        facts.affects.after 3 true, facts.calls.after "main" true)) =
        some ([2, 3, 4, 5], [1, 2, 3, 4], [], [3, 4], ["input"]) := by
    decide +kernel
  obtain ⟨facts, hfacts, hrun⟩ := Option.bind_eq_some_iff.mp hrun
  obtain ⟨hafter, hbefore, hlast, haffects, hcalls⟩ : facts.next.after 3 true = [2, 3, 4, 5] ∧
      facts.next.before 3 true = [1, 2, 3, 4] ∧ facts.next.after 5 true = [] ∧
      facts.affects.after 3 true = [3, 4] ∧ facts.calls.after "main" true = ["input"] := by
    simpa using hrun
  have hfacts := eq_ok_of_toOption hfacts
  obtain ⟨hnext, -, hcall, hnone⟩ := starred_iff_chain hfacts
  refine ⟨facts, hfacts, hafter, hbefore, haffects, (hnext.self_mem_after 3).mp ?_, fun h => ?_,
    hcalls, fun h => (hnone "main").1 ((hcall.self_mem_after "main").mpr h)⟩
  · rw [hafter]
    decide
  · have hmem := (hnext.self_mem_after 5).mpr h
    rw [hlast] at hmem
    cases hmem

end ProgramQuery
