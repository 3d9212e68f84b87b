import ProgramQuery.Proofs.SettledStates

/-!
# One pass over the plan is enough

Once a clause has been applied, the candidates say what it says, and they go on saying so while
other clauses make them fewer. To candidates that say what a clause says, and that are at rest, the
clause does nothing: no value is left to drop, and no pair. So when the clauses of a plan have all
been applied, applying them again is idle. The loop that does so ends with its first pass, and the
candidates of a query are those of the pass forwards.

## Main statements

- `Candidates.AtRest.eq_of_canSettle`: settling does nothing to candidates at rest.
- `Candidates.AtRest.eq_self_of_describes`: neither does a clause that they obey.
- `reapplication_is_idle`: one pass over the plan reaches the end.
-/

namespace ProgramQuery

/-! ## What does nothing -/

namespace Domains

theorem replace_eq_self {x : String} {values : List String} {l : List (String × List String)}
    (h : l.lookup x = some values) : replace x values l = l := by
  induction l with
  | nil => cases h
  | cons entry entries ih =>
    obtain ⟨y, ys⟩ := entry
    rw [lookup_cons_eq] at h
    rw [replace]
    split at h
    · rename_i heq
      obtain rfl := Option.some.inj h
      rw [if_pos heq.symm, heq]
    · rename_i hne
      rw [if_neg (Ne.symm hne), ih h]

theorem set_eq_self {d : Domains} {x : String} (hx : d.Stores x) : d.set x (d.get x) = d := by
  obtain ⟨values, hlookup⟩ := Option.isSome_iff_exists.mp hx
  rw [set, get, hlookup, Option.getD_some, replace_eq_self hlookup]

/-- Candidates that are stored and all allowed stay as they are. -/
theorem restrict_eq_self {d : Domains} {x : String} {allowed : List String} (hx : d.Stores x)
    (hne : d.get x ≠ []) (hallowed : ∀ v ∈ d.get x, v ∈ allowed) :
    d.restrict x allowed = some d := by
  have hkeep : keep allowed (d.get x) = d.get x := by
    rw [keep_eq_filter, List.filter_eq_self]
    exact fun v hv => decide_eq_true (hallowed v hv)
  have hset := set_eq_self hx
  rw [restrict, hkeep]
  cases hget : d.get x with
  | nil => exact absurd hget hne
  | cons value values => exact congrArg some (hget ▸ hset)

end Domains

namespace Constraint

theorem restrict_eq_self {c : Constraint} {d : Domains} (h : c.IsSettled d) : c.restrict d = c := by
  have hfirst : keepBy compare Prod.fst (d.get c.first) c.pairs = c.pairs := by
    rw [keepBy_eq_filter, List.filter_eq_self]
    exact fun p hp => decide_eq_true (h.fst_mem p hp)
  have hsecond : keepBy compare Prod.snd (d.get c.second) c.pairs = c.pairs := by
    rw [keepBy_eq_filter, List.filter_eq_self]
    exact fun p hp => decide_eq_true (h.snd_mem p hp)
  rw [restrict, hfirst, hsecond]

/-- A constraint that allows all pairs of the one on its synonyms adds nothing. -/
theorem insert_eq_self {c d : Constraint} {cs : List Constraint}
    (hcs : (cs.map Constraint.key).Pairwise KeyLt) (hd : d ∈ cs) (hkey : d.key = c.key)
    (hpairs : ∀ p ∈ d.pairs, p ∈ c.pairs) : insert c cs = cs := by
  induction cs with
  | nil => cases hd
  | cons b bs ih =>
    rw [List.map_cons, List.pairwise_cons] at hcs
    rcases List.mem_cons.mp hd with rfl | hd
    · -- the constraint on the same synonyms comes first
      rcases insert_cons c d bs with ⟨-, heq⟩ | ⟨hlt, -⟩ | ⟨hlt, -⟩
      · have hkeep : keepBy comparePairs id c.pairs d.pairs = d.pairs := by
          rw [keepBy_eq_filter, List.filter_eq_self]
          exact fun p hp => by simpa using hpairs p hp
        rw [heq, hkeep]
      · exact absurd (hkey ▸ hlt) (KeyLt.irrefl _)
      · exact absurd (hkey ▸ hlt) (KeyLt.irrefl _)
    · -- it comes later, so all before it are on smaller synonyms
      have hlt : KeyLt b.key c.key := hkey ▸ hcs.1 d.key (List.mem_map_of_mem hd)
      rcases insert_cons c b bs with ⟨heq, -⟩ | ⟨hgt, -⟩ | ⟨-, heq⟩
      · exact absurd (heq ▸ hlt) (KeyLt.irrefl _)
      · exact absurd (hlt.trans hgt) (KeyLt.irrefl _)
      · rw [heq, ih hcs.2 hd]

end Constraint

namespace Candidates

/-- A sweep through settled constraints, in any order, leaves all as it is. -/
theorem sweep_eq_self {order : List Constraint} {d : Domains}
    (hsettled : ∀ c ∈ order, c.IsSettled d)
    (hstores : ∀ c ∈ order, d.Stores c.first ∧ d.Stores c.second)
    (hne : ∀ x, d.Stores x → d.get x ≠ []) : sweep order d = some (order, d) := by
  induction order with
  | nil => rfl
  | cons c order ih =>
    obtain ⟨hc, hsettled⟩ := List.forall_mem_cons.mp hsettled
    obtain ⟨⟨hfirst, hsecond⟩, hstores⟩ := List.forall_mem_cons.mp hstores
    have hfirst' : d.restrict c.first (c.pairs.map Prod.fst) = some d := by
      refine Domains.restrict_eq_self hfirst (hne _ hfirst) fun v hv => ?_
      obtain ⟨w, hw⟩ := hc.exists_snd v hv
      exact List.mem_map_of_mem hw
    have hsecond' : d.restrict c.second (c.pairs.map Prod.snd) = some d := by
      refine Domains.restrict_eq_self hsecond (hne _ hsecond) fun w hw => ?_
      obtain ⟨v, hv⟩ := hc.exists_fst w hw
      exact List.mem_map_of_mem hv
    rw [sweep, Constraint.restrict_eq_self hc, hfirst', Option.bind_eq_bind, Option.bind_some,
      hsecond', Option.bind_some, ih hsettled hstores]
    rfl

section AtRest

variable {facts : Facts} {declared : Declarations} {s : Candidates}
  (hs : s.AtRest facts declared)

include hs

theorem AtRest.eq_of_sweeps {result : Option Candidates} (h : s.Sweeps result) :
    result = some s := by
  have hidle : ∀ order, order.Perm s.constraints →
      sweep order s.domains = some (order, s.domains) := by
    intro order horder
    refine sweep_eq_self (fun c hc => hs.settled c (horder.mem_iff.mp hc)) (fun c hc => ?_)
      hs.ne_nil
    have hkey : c.key ∈ s.keys := List.mem_map_of_mem (horder.mem_iff.mp hc)
    exact ⟨hs.storesKeys _ ⟨c.key, hkey, .inl rfl⟩, hs.storesKeys _ ⟨c.key, hkey, .inr rfl⟩⟩
  cases h with
  | fails horder hsweep =>
    rw [hidle _ horder] at hsweep
    cases hsweep
  | @passes order swept left d horder hsweep hleft hkeys =>
    rw [hidle _ horder] at hsweep
    obtain ⟨rfl, rfl⟩ := Prod.mk.inj (Option.some.inj hsweep)
    -- the same constraints in the same order of their synonyms
    have hbefore : s.constraints.Pairwise fun c d => Constraint.KeyLt c.key d.key :=
      List.pairwise_map.mp hs.ordered.pairwise
    have hafter : left.Pairwise fun c d => Constraint.KeyLt c.key d.key :=
      List.pairwise_map.mp (hkeys ▸ hs.ordered.pairwise)
    have heq : left = s.constraints := (hleft.trans horder).eq_of_pairwise
      (fun a b _ _ hab hba => absurd (hab.trans hba) (Constraint.KeyLt.irrefl _)) hafter hbefore
    rw [heq]

/-- Settling does nothing to candidates at rest. -/
theorem AtRest.eq_of_canSettle {result : Option Candidates} (h : s.CanSettle result) :
    result = some s := by
  cases h with
  | fails h => exact hs.eq_of_sweeps h
  | stops h _ => exact hs.eq_of_sweeps h
  | again h hsize _ =>
    obtain rfl := Option.some.inj (hs.eq_of_sweeps h)
    exact absurd hsize (Nat.lt_irrefl _)

/-- A pair of candidates is among those that the constraint on its synonyms is to be kept to. -/
theorem AtRest.mem_pairs_of_relates {x y : String} {relates : String → String → Prop}
    {pairs : List (String × String)} (hpairs : ∀ v w,
      v ∈ s.domains.get x → w ∈ s.domains.get y → relates v w → (v, w) ∈ pairs)
    {k : Constraint} (hk : k ∈ s.constraints) (hkey : k.key = (Constraint.of x y pairs).key)
    (hrelates : ∀ v : String → String, k.Admits v → relates (v x) (v y)) {p : String × String}
    (hp : p ∈ k.pairs) : p ∈ (Constraint.of x y pairs).pairs := by
  obtain ⟨v, hfirst, hsecond, hv⟩ := Constraint.exists_admits (hs.ordered.first_ne_second hk) hp
  have hends : (x = k.first ∨ x = k.second) ∧ (y = k.first ∨ y = k.second) := by
    rw [Constraint.key_of] at hkey
    split at hkey <;> obtain ⟨rfl, rfl⟩ := Prod.mk.inj hkey
    · exact ⟨.inr rfl, .inl rfl⟩
    · exact ⟨.inl rfl, .inr rfl⟩
  have hmem : ∀ z, z = k.first ∨ z = k.second → v z ∈ s.domains.get z := by
    rintro z (rfl | rfl)
    · exact hfirst ▸ (hs.settled k hk).fst_mem p hp
    · exact hsecond ▸ (hs.settled k hk).snd_mem p hp
  have hadmits : (Constraint.of x y pairs).Admits v := Constraint.admits_of.mpr
    (hpairs _ _ (hmem x hends.1) (hmem y hends.2) (hrelates v hv))
  obtain ⟨hfirst', hsecond'⟩ := Prod.mk.inj hkey
  rwa [Constraint.Admits, ← hfirst', ← hsecond', hfirst, hsecond] at hadmits

/-- A clause does nothing to candidates at rest that say what it says. -/
theorem AtRest.eq_self_of_describes {e : Effect}
    {f : Candidates → (Candidates → Option Candidates) → Option Candidates} (he : e.Describes f)
    (hobeys : s.Obeys e) {settle : Candidates → Option Candidates} (hsettle : IsSettling settle) :
    f s settle = some s := by
  cases e with
  | refuse => exact absurd hobeys id
  | pass => exact he s settle
  | narrow x allows =>
    obtain ⟨allowed, heq, hallowed⟩ := he s settle
    obtain ⟨hx, hvalues⟩ := hobeys
    have hrestrict := Domains.restrict_eq_self hx (hs.ne_nil x hx) fun v hv =>
      (hallowed v hv).mpr (hvalues v hv)
    rw [heq, narrow, hrestrict]
    exact if_pos rfl
  | constrain x y relates =>
    obtain ⟨hne, happly⟩ := he
    obtain ⟨pairs, heq, hpairs⟩ := happly s settle
    obtain ⟨k, hk, hkey, hrelates⟩ := hobeys
    have hkey : k.key = (Constraint.of x y pairs).key := by
      rw [hkey, Constraint.key_of, Constraint.key_of]
    have hinsert : (Constraint.of x y pairs).insert s.constraints = s.constraints :=
      Constraint.insert_eq_self hs.ordered.pairwise hk hkey fun p hp =>
        hs.mem_pairs_of_relates (fun v w hv hw h => (hpairs v w).mpr ⟨hv, hw, h⟩) hk hkey
          hrelates hp
    rw [heq, constrain, hinsert]
    exact hs.eq_of_canSettle (hsettle s)

end AtRest

/-- Clauses that do nothing by themselves do nothing one after another. -/
theorem canApply_iff_of_idle {facts : Facts} {s : Candidates} {plan : List Clause}
    (hplan : ∀ c ∈ plan, ∀ settle, IsSettling settle → apply facts c s settle = some s)
    {result : Option Candidates} :
    CanApply facts plan s result ↔ result = some s := by
  induction plan with
  | nil =>
    constructor
    · rintro ⟨⟩
      rfl
    · rintro rfl
      exact .nil
  | cons c plan ih =>
    obtain ⟨hc, hplan⟩ := List.forall_mem_cons.mp hplan
    constructor
    · intro h
      cases h with
      | fails hsettle happly =>
        rw [hc _ hsettle] at happly
        cases happly
      | cons hsettle happly hrest =>
        rw [hc _ hsettle] at happly
        obtain rfl := Option.some.inj happly
        exact (ih hplan).mp hrest
    · intro h
      exact .cons isSettling_settle? (hc _ isSettling_settle?) ((ih hplan).mpr h)

/-- When the clauses of a plan have been applied, each of them does nothing more. -/
theorem apply_eq_self {facts : Facts} {declared : Declarations} {plan : List Clause}
    {s : Candidates} (h : CanApply facts plan (.initial facts declared) (some s)) {c : Clause}
    (hc : c ∈ plan) {settle : Candidates → Option Candidates} (hsettle : IsSettling settle) :
    apply facts c s settle = some s := by
  obtain ⟨hrest, -, hobeys⟩ := (atRest_initial facts declared).of_canApply h
  obtain ⟨e, he⟩ := exists_describes_apply facts c
  exact hrest.eq_self_of_describes he (hobeys c hc e he) hsettle

/-- Applying the clauses of a plan once more, from last to first, is one idle pass. -/
theorem stabilisesIn_iff {facts : Facts} {declared : Declarations} {plan : List Clause}
    {s : Candidates} (h : CanApply facts plan (.initial facts declared) (some s))
    (size : Candidates → Nat) {passes : Nat} {left : Option Candidates} :
    StabilisesIn size (CanApply facts plan.reverse) passes s left ↔
      passes = 1 ∧ left = some s := by
  refine stabilisesIn_iff_of_idle fun result => canApply_iff_of_idle fun c hc settle hsettle => ?_
  exact apply_eq_self h (List.mem_reverse.mp hc) hsettle

/-- A run leaves what its pass forwards leaves. -/
theorem run_eq_applyAll (facts : Facts) (declared : Declarations) (plan : List Clause) :
    run facts plan (.initial facts declared) = applyAll facts plan (.initial facts declared) := by
  have hforward := canApply_applyAll facts plan (.initial facts declared)
  rw [run]
  cases happly : applyAll facts plan (.initial facts declared) with
  | none => rfl
  | some s =>
    have hloop : Stabilises (sizeAt plan) (CanApply facts plan.reverse) s
        (stabilise (sizeAt plan) (applyAll facts plan.reverse) s) :=
      stabilises_stabilise (canApply_applyAll facts plan.reverse) s
    obtain ⟨passes, hpasses⟩ := stabilises_iff_exists_stabilisesIn.mp hloop
    exact ((stabilisesIn_iff (happly ▸ hforward) _).mp hpasses).2

end Candidates

/-- One pass over the plan reaches the end. If the clauses of the plan of a query can be applied in
order, each of them does nothing more to what is left, in whatever order the constraints are
visited. So applying them once more, from last to first, takes exactly one pass, which leaves all
as it is, whatever is measured to find that out. The evaluation leaves what the clauses leave that
are applied once. -/
theorem reapplication_is_idle (facts : Facts) {q : Query} {groups : List (List Clause)}
    (hplan : plan? q.clauses q.selected = some groups) :
    (∀ s, Candidates.CanApply facts groups.flatten (.initial facts q.declarations) (some s) →
      (∀ c ∈ groups.flatten, ∀ settle, Candidates.IsSettling settle →
        Candidates.apply facts c s settle = some s) ∧
      ∀ size passes left, StabilisesIn size (Candidates.CanApply facts groups.flatten.reverse)
        passes s left ↔ passes = 1 ∧ left = some s) ∧
    evaluate? facts q =
      Candidates.applyAll facts groups.flatten (.initial facts q.declarations) := by
  refine ⟨fun s h => ⟨fun c hc settle hsettle => Candidates.apply_eq_self h hc hsettle,
    fun size passes left => Candidates.stabilisesIn_iff h size⟩, ?_⟩
  rw [evaluate?, hplan]
  exact Candidates.run_eq_applyAll facts q.declarations groups.flatten

/-- What the clauses about increments leave, they leave when applied again. -/
theorem reapplication_is_idle_increments : ∃ facts q groups s,
    Facts.ofSource countingUp = .ok facts ∧ Query.ofText increments = .ok q ∧
      plan? q.clauses q.selected = some groups ∧ groups.flatten.length = 4 ∧
      Candidates.CanApply facts groups.flatten (.initial facts q.declarations) (some s) ∧
      s.domains.get "b" = ["3"] ∧
      (∀ c ∈ groups.flatten, Candidates.apply facts c s = some s) ∧
      evaluate? facts q = some s := by
  have hrun : (do
      let facts ← (Facts.ofSource countingUp).toOption
      let q ← (Query.ofText increments).toOption
      let groups ← plan? q.clauses q.selected
      let s ← Candidates.applyAll facts groups.flatten (.initial facts q.declarations)
      return decide (groups.flatten.length = 4 ∧ s.domains.get "b" = ["3"])) = some true := by
    decide +kernel
  obtain ⟨facts, hfacts, hrun⟩ := Option.bind_eq_some_iff.mp hrun
  obtain ⟨q, hquery, hrun⟩ := Option.bind_eq_some_iff.mp hrun
  obtain ⟨groups, hplan, hrun⟩ := Option.bind_eq_some_iff.mp hrun
  obtain ⟨s, happly, hrun⟩ := Option.bind_eq_some_iff.mp hrun
  obtain ⟨hlength, hget⟩ := of_decide_eq_true (Option.some.inj hrun)
  have hcan := happly ▸
    Candidates.canApply_applyAll facts groups.flatten (.initial facts q.declarations)
  obtain ⟨hidle, hevaluate⟩ := reapplication_is_idle facts hplan
  refine ⟨facts, q, groups, s, eq_ok_of_toOption hfacts, eq_ok_of_toOption hquery, hplan, hlength,
    hcan, hget, fun c hc => ?_, hevaluate.trans happly⟩
  exact (hidle s hcan).1 c hc _ Candidates.isSettling_settle?

end ProgramQuery
