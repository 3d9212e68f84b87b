import ProgramQuery.Proofs.ClauseApplication
import ProgramQuery.Proofs.PlanCover
import ProgramQuery.Proofs.Settling
import ProgramQuery.Proofs.Signatures

/-!
# What applying all clauses leaves

Each clause of a query leaves its mark on the candidates: from then on, values that are candidates
and that the constraints admit make the clause true. Later clauses only make the candidates fewer,
so at the end every clause has left its mark. In the other direction, a consistent family of values
survives every clause, and with a consistent family the evaluation succeeds. Both directions hold
for any sequence of the clauses, and in whatever order the constraints are visited.

## Main definitions

- `Candidates.IsSound`: what holds of the candidates throughout an evaluation.
- `Candidates.Enforces`: the candidates say all that a clause says.
- `Candidates.CanRun`: what can become of candidates when a plan is run.
- `Query.Compatible`: two values make the clauses about their synonyms true.

## Main statements

- `Query.enforces_of_evaluate?`: at the end, the candidates say all that the clauses say.
- `Query.isConsistent_of_evaluate?`: at the end, the candidates are a consistent family.
- `Query.IsConsistent.exists_evaluate?`: a consistent family is among the candidates at the end.
-/

namespace ProgramQuery

theorem Constraint.Admits.of_key {k k' : Constraint} {v : String → String} (h : k'.Admits v)
    (hkey : k'.key = k.key) (hpairs : ∀ p ∈ k'.pairs, p ∈ k.pairs) : k.Admits v := by
  obtain ⟨hfirst, hsecond⟩ := Prod.mk.inj hkey
  rw [Admits, ← hfirst, ← hsecond]
  exact hpairs _ h

namespace Candidates

/-- What holds of the candidates while the clauses of a query are applied. -/
structure IsSound (facts : Facts) (declared : Declarations) (clauses : List Clause)
    (s : Candidates) : Prop where
  within : s.IsWithin facts declared
  settled : s.Settled
  ordered : s.Ordered
  exists_clause : ∀ key ∈ s.keys, ∃ c ∈ clauses, key.1 ∈ c.synonyms ∧ key.2 ∈ c.synonyms

/-- The candidates say all that a clause says. -/
structure Enforces (facts : Facts) (s : Candidates) (c : Clause) : Prop where
  ne_nil : ∀ x ∈ c.synonyms, s.domains.get x ≠ []
  mem_keys : ∀ x ∈ c.synonyms, ∀ y ∈ c.synonyms, x ≠ y → (x, y) ∈ s.keys ∨ (y, x) ∈ s.keys
  holds : ∀ v : String → String, (∀ x ∈ c.synonyms, v x ∈ s.domains.get x) →
    (∀ k ∈ s.constraints, k.first ∈ c.synonyms → k.second ∈ c.synonyms → k.Admits v) →
    c.Holds facts v

variable {facts : Facts} {declared : Declarations} {clauses : List Clause} {s t : Candidates}

theorem Refines.mem_keys (h : t.Refines s) {key : String × String} (hkey : key ∈ s.keys) :
    key ∈ t.keys := by
  obtain ⟨k, hk, rfl⟩ := List.mem_map.mp hkey
  obtain ⟨k', hk', hsame, -⟩ := h.exists_constraint k hk
  exact hsame ▸ List.mem_map_of_mem hk'

/-- What a clause has said stays said. -/
theorem Enforces.of_refines {c : Clause} (h : s.Enforces facts c) (ht : t.Refines s) :
    t.Enforces facts c := by
  refine ⟨fun x hx => ht.ne_nil x (h.ne_nil x hx), fun x hx y hy hxy => ?_, fun v hv hk => ?_⟩
  · exact (h.mem_keys x hx y hy hxy).imp ht.mem_keys ht.mem_keys
  · refine h.holds v (fun x hx => ht.mem_of_mem x _ (hv x hx)) fun k hmem hfirst hsecond => ?_
    obtain ⟨k', hk', hkey, hpairs⟩ := ht.exists_constraint k hmem
    obtain ⟨hfirst', hsecond'⟩ := Prod.mk.inj hkey
    exact (hk k' hk' (hfirst' ▸ hfirst) (hsecond' ▸ hsecond)).of_key hkey hpairs

/-- One clause leaves a sound state that says what the clause says. -/
theorem IsSound.of_acts {settle : Candidates → Option Candidates} (hsettle : IsSettling settle)
    {c : Clause} (hs : s.IsSound facts declared clauses) (hc : c ∈ clauses)
    (h : c.Acts facts settle s (some t)) :
    t.IsSound facts declared clauses ∧ t.Refines s ∧ t.Enforces facts c := by
  generalize hresult : some t = result at h
  cases h with
  | ground hnone hholds =>
    obtain rfl := Option.some.inj hresult
    refine ⟨hs, Refines.refl t, ?_, ?_, fun v _ _ => hholds v⟩ <;> rw [hnone] <;> exact nofun
  | refused _ => cases hresult
  | @single x allowed hsynonyms hallowed =>
    obtain ⟨hrefines, hsettled, hkeys, hne, hmem⟩ :=
      refines_of_narrow hsettle hresult.symm hs.settled
    refine ⟨⟨fun y v hv => hs.within y v (hrefines.mem_of_mem y v hv), hsettled, ?_, ?_⟩,
      hrefines, fun y hy => ?_, fun y hy z hz hyz => ?_, fun v hv _ => ?_⟩
    · exact ⟨hkeys ▸ hs.ordered.pairwise, hkeys ▸ hs.ordered.lt⟩
    · exact hkeys ▸ hs.exists_clause
    · exact (hsynonyms y).mp hy ▸ hne
    · exact absurd (((hsynonyms y).mp hy).trans ((hsynonyms z).mp hz).symm) hyz
    · have hvx := hv x ((hsynonyms x).mpr rfl)
      exact (hallowed v (hrefines.mem_of_mem x _ hvx)).mp (hmem _ hvx)
  | @pair x y pairs hxy hsynonyms hpairs =>
    obtain ⟨hrefines, hsettled, hkeys, ⟨hnex, hney⟩, k, hk, hkey, hsub⟩ :=
      refines_of_constrain hsettle hresult.symm
    have hx : x ∈ c.synonyms := (hsynonyms x).mpr (.inl rfl)
    have hy : y ∈ c.synonyms := (hsynonyms y).mpr (.inr rfl)
    -- the key of the new constraint is one of the two orders of its synonyms
    have hcases : (Constraint.of x y pairs).key = (x, y) ∨
        (Constraint.of x y pairs).key = (y, x) := by
      rw [Constraint.key_of]
      split
      · exact .inr rfl
      · exact .inl rfl
    have hmem : (Constraint.of x y pairs).key ∈ t.keys := (hkeys _).mpr (.inl rfl)
    have hends : (Constraint.of x y pairs).key.1 ∈ c.synonyms ∧
        (Constraint.of x y pairs).key.2 ∈ c.synonyms := by
      rcases hcases with heq | heq <;> rw [heq]
      · exact ⟨hx, hy⟩
      · exact ⟨hy, hx⟩
    refine ⟨⟨fun z v hv => hs.within z v (hrefines.mem_of_mem z v hv), hsettled,
      hs.ordered.constrain hsettle hxy hresult.symm, fun key hkey => ?_⟩, hrefines, fun z hz => ?_,
      fun z hz w hw hzw => ?_, fun v hv hadmits => ?_⟩
    · rcases (hkeys key).mp hkey with rfl | hkey
      · exact ⟨c, hc, hends⟩
      · exact hs.exists_clause key hkey
    · rcases (hsynonyms z).mp hz with rfl | rfl
      · exact hnex
      · exact hney
    · have hboth : (x, y) ∈ t.keys ∨ (y, x) ∈ t.keys := by
        rcases hcases with heq | heq
        · exact .inl (heq ▸ hmem)
        · exact .inr (heq ▸ hmem)
      rcases (hsynonyms z).mp hz with rfl | rfl <;> rcases (hsynonyms w).mp hw with rfl | rfl
      · exact absurd rfl hzw
      · exact hboth
      · exact hboth.symm
      · exact absurd rfl hzw
    · obtain ⟨hfirst, hsecond⟩ := Prod.mk.inj hkey
      have hk' : k.Admits v := hadmits k hk (hfirst ▸ hends.1) (hsecond ▸ hends.2)
      refine (hpairs v ?_ ?_).mp (Constraint.admits_of.mp (hk'.of_key hkey hsub))
      · exact hrefines.mem_of_mem x _ (hv x hx)
      · exact hrefines.mem_of_mem y _ (hv y hy)

/-! ## Runs -/

/-- What can become of candidates when clauses are applied one after another, where each may settle
in its own way. -/
inductive CanApply (facts : Facts) : List Clause → Candidates → Option Candidates → Prop where
  /-- There is no clause. -/
  | nil {s : Candidates} : CanApply facts [] s (some s)
  /-- The first clause leaves nothing. -/
  | fails {settle : Candidates → Option Candidates} {c : Clause} {rest : List Clause}
      {s : Candidates} (hsettle : IsSettling settle) (h : apply facts c s settle = none) :
      CanApply facts (c :: rest) s none
  /-- The first clause leaves something for the others. -/
  | cons {settle : Candidates → Option Candidates} {c : Clause} {rest : List Clause}
      {s t : Candidates} {result : Option Candidates} (hsettle : IsSettling settle)
      (h : apply facts c s settle = some t) (hrest : CanApply facts rest t result) :
      CanApply facts (c :: rest) s result

/-- What can become of candidates when a plan is run. -/
inductive CanRun (facts : Facts) (plan : List Clause) (s : Candidates) :
    Option Candidates → Prop where
  /-- The clauses in order leave nothing. -/
  | fails (h : CanApply facts plan s none) : CanRun facts plan s none
  /-- The clauses in order leave something, to which they are applied backwards. -/
  | reapplies {t : Candidates} {result : Option Candidates} (h : CanApply facts plan s (some t))
      (hrest : Stabilises (sizeAt plan) (CanApply facts plan.reverse) t result) :
      CanRun facts plan s result

theorem canApply_applyAll (facts : Facts) (plan : List Clause) (s : Candidates) :
    CanApply facts plan s (applyAll facts plan s) := by
  induction plan generalizing s with
  | nil => exact .nil
  | cons c plan ih =>
    rw [applyAll, List.foldlM_cons]
    cases happly : apply facts c s with
    | none => exact .fails isSettling_settle? happly
    | some t => exact .cons isSettling_settle? happly (ih t)

theorem canRun_run (facts : Facts) (plan : List Clause) (s : Candidates) :
    CanRun facts plan s (run facts plan s) := by
  have hforward := canApply_applyAll facts plan s
  rw [run]
  cases happly : applyAll facts plan s with
  | none => exact .fails (happly ▸ hforward)
  | some t =>
    exact .reapplies (happly ▸ hforward)
      (stabilises_stabilise (canApply_applyAll facts plan.reverse) t)

section Run

variable (hf : facts.IsWellFormed) (htyped : ∀ c ∈ clauses, c.IsTyped declared)

include hf htyped in
theorem IsSound.of_canApply {plan : List Clause} (hplan : ∀ c ∈ plan, c ∈ clauses)
    (hs : s.IsSound facts declared clauses) (h : CanApply facts plan s (some t)) :
    t.IsSound facts declared clauses ∧ t.Refines s ∧ ∀ c ∈ plan, t.Enforces facts c := by
  generalize hresult : some t = result at h
  induction h with
  | @nil s =>
    obtain rfl := Option.some.inj hresult
    exact ⟨hs, Refines.refl t, fun c hc => absurd hc List.not_mem_nil⟩
  | fails _ _ => cases hresult
  | @cons settle c rest s u result hsettle happly _ ih =>
    obtain ⟨hc, hplan⟩ := List.forall_mem_cons.mp hplan
    have hacts : c.Acts facts settle s (some u) :=
      happly ▸ Clause.acts_apply hf (htyped c hc) hs.within
    obtain ⟨hsound, hrefines, henforces⟩ := hs.of_acts hsettle hc hacts
    obtain ⟨hsound', hrefines', henforces'⟩ := ih hplan hsound hresult
    refine ⟨hsound', hrefines'.trans hrefines, List.forall_mem_cons.mpr ⟨?_, henforces'⟩⟩
    exact henforces.of_refines hrefines'

include hf htyped in
theorem IsSound.of_canRun {plan : List Clause} (hplan : ∀ c ∈ plan, c ∈ clauses)
    (hs : s.IsSound facts declared clauses) (h : CanRun facts plan s (some t)) :
    t.IsSound facts declared clauses ∧ ∀ c ∈ plan, t.Enforces facts c := by
  cases h with
  | reapplies hforward hrest =>
    obtain ⟨hsound, -, henforces⟩ := hs.of_canApply hf htyped hplan hforward
    refine hrest.of_step
      (P := fun u => u.IsSound facts declared clauses ∧ ∀ c ∈ plan, u.Enforces facts c)
      (fun a b hab ha => ?_) ⟨hsound, henforces⟩
    obtain ⟨hsound, hrefines, -⟩ := ha.1.of_canApply hf htyped
      (fun c hc => hplan c (List.mem_reverse.mp hc)) hab
    exact ⟨hsound, fun c hc => (ha.2 c hc).of_refines hrefines⟩

end Run

/-- The candidates before any clause: the entities that the synonyms stand for. -/
def initial (facts : Facts) (declared : Declarations) : Candidates :=
  { domains := { initial := initialDomain facts declared } }

theorem isSound_initial : IsSound facts declared clauses (initial facts declared) :=
  ⟨fun _ _ hv => hv, nofun, ⟨.nil, nofun⟩, nofun⟩

/-- In a sound state a candidate has a partner for any second synonym that has candidates. -/
theorem IsSound.exists_partner (hs : s.IsSound facts declared clauses) {x y value : String}
    (hvalue : value ∈ s.domains.get x) (hy : s.domains.get y ≠ []) :
    ∃ v : String → String, v x = value ∧ v y ∈ s.domains.get y ∧ ∀ k ∈ s.constraints,
      (k.first = x ∨ k.first = y) → (k.second = x ∨ k.second = y) → k.Admits v := by
  have hlt : ∀ k ∈ s.constraints, k.first < k.second := fun k => hs.ordered.first_lt_second
  by_cases hxy : x = y
  · subst hxy
    refine ⟨fun _ => value, rfl, hvalue, fun k hk hfirst hsecond => ?_⟩
    have hself := hlt k hk
    rw [or_self] at hfirst hsecond
    rw [hfirst, hsecond] at hself
    exact absurd hself (String.lt_irrefl x)
  -- two different synonyms have at most one constraint, and it is settled
  have hkey : ∀ k ∈ s.constraints, (k.first = x ∨ k.first = y) → (k.second = x ∨ k.second = y) →
      k.key = (x, y) ∨ k.key = (y, x) := by
    rintro k hk (hfirst | hfirst) (hsecond | hsecond)
    · exact absurd (hfirst ▸ hsecond ▸ hlt k hk) (String.lt_irrefl _)
    · exact .inl (Prod.ext hfirst hsecond)
    · exact .inr (Prod.ext hfirst hsecond)
    · exact absurd (hfirst ▸ hsecond ▸ hlt k hk) (String.lt_irrefl _)
  have hne : y ≠ x := Ne.symm hxy
  by_cases hforward : ∃ k ∈ s.constraints, k.key = (x, y)
  · obtain ⟨k, hk, hxyk⟩ := hforward
    obtain ⟨rfl, rfl⟩ := Prod.mk.inj hxyk
    obtain ⟨other, hother⟩ := (hs.settled k hk).exists_snd value hvalue
    refine ⟨Function.update (fun _ => other) k.first value, Function.update_self .., ?_, ?_⟩
    · rw [Function.update_of_ne hne]
      exact (hs.settled k hk).snd_mem _ hother
    · intro k' hk' hfirst hsecond
      rcases hkey k' hk' hfirst hsecond with hsame | hswap
      · rw [hs.ordered.eq_of_key hk' hk hsame, Constraint.Admits, Function.update_self,
          Function.update_of_ne hne]
        exact hother
      · obtain ⟨hfirst, hsecond⟩ := Prod.mk.inj hswap
        exact absurd (hfirst ▸ hsecond ▸ hlt k' hk') (String.lt_asymm (hlt k hk))
  by_cases hbackward : ∃ k ∈ s.constraints, k.key = (y, x)
  · obtain ⟨k, hk, hyxk⟩ := hbackward
    obtain ⟨rfl, rfl⟩ := Prod.mk.inj hyxk
    obtain ⟨other, hother⟩ := (hs.settled k hk).exists_fst value hvalue
    refine ⟨Function.update (fun _ => other) k.second value, Function.update_self .., ?_, ?_⟩
    · rw [Function.update_of_ne hne]
      exact (hs.settled k hk).fst_mem _ hother
    · intro k' hk' hfirst hsecond
      rcases hkey k' hk' hfirst hsecond with hswap | hsame
      · exact absurd ⟨k', hk', hswap⟩ hforward
      · rw [hs.ordered.eq_of_key hk' hk hsame, Constraint.Admits, Function.update_self,
          Function.update_of_ne hne]
        exact hother
  · obtain ⟨other, hother⟩ := List.exists_mem_of_ne_nil _ hy
    refine ⟨Function.update (fun _ => other) x value, Function.update_self .., ?_, ?_⟩
    · rw [Function.update_of_ne hne]
      exact hother
    · intro k hk hfirst hsecond
      rcases hkey k hk hfirst hsecond with h | h
      · exact absurd ⟨k, hk, h⟩ hforward
      · exact absurd ⟨k, hk, h⟩ hbackward

end Candidates

/-! ## The evaluation of a query -/

namespace Query

variable {facts : Facts} {q : Query}

theorem IsTyped.exists_plan? (h : q.IsTyped) : ∃ groups, plan? q.clauses q.selected = some groups ∧
    ∀ c, c ∈ groups.flatten ↔ c ∈ q.clauses := by
  have hvalid : ∀ c ∈ q.clauses, c.isInvalid = false := fun c hc =>
    (h.clauses c hc).isWritten.isInvalid_eq_false
  obtain ⟨groups, hgroups⟩ := ProgramQuery.exists_plan? hvalid q.selected
  exact ⟨groups, hgroups, fun c =>
    mem_flatten_of_plan? hgroups (signaturesAgree_of_isTyped h.clauses)⟩

/-- The evaluation of a query runs its clauses in some order. -/
theorem IsTyped.exists_canRun (h : q.IsTyped) (facts : Facts) :
    ∃ plan, (∀ c, c ∈ plan ↔ c ∈ q.clauses) ∧
      Candidates.CanRun facts plan (.initial facts q.declarations) (evaluate? facts q) := by
  obtain ⟨groups, hgroups, hmem⟩ := h.exists_plan?
  have heval : evaluate? facts q =
      Candidates.run facts groups.flatten (.initial facts q.declarations) := by
    rw [evaluate?, hgroups]
    rfl
  exact ⟨groups.flatten, hmem, heval ▸ Candidates.canRun_run ..⟩

/-- At the end, the candidates say all that the clauses say. -/
theorem enforces_of_evaluate? (hf : facts.IsWellFormed) (ht : q.IsTyped) {s : Candidates}
    (h : evaluate? facts q = some s) : s.IsSound facts q.declarations q.clauses ∧
      ∀ c ∈ q.clauses, s.Enforces facts c := by
  obtain ⟨plan, hmem, hrun⟩ := ht.exists_canRun facts
  obtain ⟨hsound, henforces⟩ := Candidates.isSound_initial.of_canRun hf ht.clauses
    (fun c hc => (hmem c).mp hc) (h ▸ hrun)
  exact ⟨hsound, fun c hc => henforces c ((hmem c).mpr hc)⟩

/-- Candidates that say all that the clauses say are a consistent family, if the selected synonyms
have any. -/
theorem isConsistent_of_isSound {s : Candidates} (hsound : s.IsSound facts q.declarations q.clauses)
    (henforces : ∀ c ∈ q.clauses, s.Enforces facts c)
    (hselected : ∀ x ∈ q.selected, s.domains.get x ≠ []) :
    q.IsConsistent facts fun x value => value ∈ s.domains.get x := by
  have hne : ∀ x ∈ q.synonyms, s.domains.get x ≠ [] := by
    intro x hx
    rcases List.mem_append.mp hx with hx | hx
    · exact hselected x hx
    · obtain ⟨c, hc, hxc⟩ := List.mem_flatMap.mp hx
      exact (henforces c hc).ne_nil x hxc
  refine ⟨fun x hx => List.exists_mem_of_ne_nil _ (hne x hx), fun x _ => hsound.within x,
    fun c hc hnone v => ?_, fun x _ y hy value hvalue => ?_⟩
  · refine (henforces c hc).holds v ?_ ?_ <;> rw [hnone]
    · exact fun x hx => absurd hx List.not_mem_nil
    · exact fun k _ hx => absurd hx List.not_mem_nil
  · obtain ⟨v, hvx, hvy, hadmits⟩ := hsound.exists_partner hvalue (hne y hy)
    refine ⟨v, hvx, hvy, fun c hc hall => (henforces c hc).holds v (fun z hz => ?_) ?_⟩
    · rcases hall z hz with rfl | rfl
      · exact hvx ▸ hvalue
      · exact hvy
    · exact fun k hk hfirst hsecond => hadmits k hk (hall _ hfirst) (hall _ hsecond)

/-- At the end, the candidates are a consistent family, if the selected synonyms have any. -/
theorem isConsistent_of_evaluate? (hf : facts.IsWellFormed) (ht : q.IsTyped) {s : Candidates}
    (h : evaluate? facts q = some s) (hselected : ∀ x ∈ q.selected, s.domains.get x ≠ []) :
    q.IsConsistent facts fun x value => value ∈ s.domains.get x := by
  obtain ⟨hsound, henforces⟩ := enforces_of_evaluate? hf ht h
  exact isConsistent_of_isSound hsound henforces hselected

/-! ## What every clause keeps -/

/-- Two values make the clauses about no other than their synonyms true. -/
def Compatible (facts : Facts) (q : Query) (x value y other : String) : Prop :=
  ∀ c ∈ q.clauses, (∀ z ∈ c.synonyms, z = x ∨ z = y) →
    ∀ v : String → String, v x = value → v y = other → c.Holds facts v

theorem Compatible.symm {x value y other : String} (h : q.Compatible facts x value y other) :
    q.Compatible facts y other x value :=
  fun c hc hall v hy hx => h c hc (fun z hz => (hall z hz).symm) v hx hy

/-- The values of a family for the synonyms of a query. -/
def family (q : Query) (F : String → String → Prop) (x value : String) : Prop :=
  x ∈ q.synonyms ∧ F x value

namespace IsConsistent

variable {F : String → String → Prop} (h : q.IsConsistent facts F)

include h

/-- A consistent family extends a value to a compatible one. -/
theorem exists_compatible {x y value : String} (hx : x ∈ q.synonyms) (hy : y ∈ q.synonyms)
    (hvalue : F x value) : ∃ other, F y other ∧ q.Compatible facts x value y other := by
  obtain ⟨v, hvx, hvy, hholds⟩ := h.extend x hx y hy value hvalue
  refine ⟨v y, hvy, fun c hc hall w hwx hwy => (hholds c hc hall).congr fun z hz => ?_⟩
  rcases hall z hz with rfl | rfl
  · rw [hvx, hwx]
  · rw [hwy]

theorem supported {x y : String} (hx : x ∈ q.synonyms) (hy : y ∈ q.synonyms) :
    Candidates.Supported (q.family F) (q.Compatible facts) (x, y) := by
  refine ⟨?_, fun value hvalue => ?_, fun other hother => ?_⟩
  · obtain ⟨value, hvalue⟩ := h.nonempty x hx
    exact ⟨value, hx, hvalue⟩
  · obtain ⟨other, hother, hcompatible⟩ := h.exists_compatible hx hy hvalue.2
    exact ⟨other, ⟨hy, hother⟩, hcompatible⟩
  · obtain ⟨value, hvalue, hcompatible⟩ := h.exists_compatible hy hx hother.2
    exact ⟨value, ⟨hx, hvalue⟩, hcompatible.symm⟩

/-- Some values of a consistent family make a clause true. -/
theorem exists_holds {c : Clause} (hc : c ∈ q.clauses) :
    ∃ v, (∀ x ∈ c.synonyms, F x (v x)) ∧ c.Holds facts v := by
  rcases c.exists_synonyms with hnone | ⟨x, hx, y, hy, hall⟩
  · refine ⟨id, ?_, h.ground c hc hnone id⟩
    rw [hnone]
    exact fun x hx => absurd hx List.not_mem_nil
  · obtain ⟨value, hvalue⟩ := h.nonempty x (mem_synonyms_of_mem_clause hc hx)
    obtain ⟨v, hvx, hvy, hholds⟩ := h.extend x (mem_synonyms_of_mem_clause hc hx) y
      (mem_synonyms_of_mem_clause hc hy) value hvalue
    refine ⟨v, fun z hz => ?_, hholds c hc hall⟩
    rcases hall z hz with rfl | rfl
    · exact hvx ▸ hvalue
    · exact hvy

/-- No clause drops a value of a consistent family. -/
theorem exists_of_acts {settle : Candidates → Option Candidates}
    (hsettle : Candidates.IsSettling settle) {c : Clause} {s : Candidates}
    {result : Option Candidates} (hc : c ∈ q.clauses)
    (hs : s.IsSound facts q.declarations q.clauses)
    (hcontains : s.Contains (q.family F) (q.Compatible facts))
    (hacts : c.Acts facts settle s result) :
    ∃ t, result = some t ∧ t.Contains (q.family F) (q.Compatible facts) := by
  have hkeys : ∀ key ∈ s.keys,
      Candidates.Supported (q.family F) (q.Compatible facts) key := by
    intro key hkey
    obtain ⟨d, hd, hfirst, hsecond⟩ := hs.exists_clause key hkey
    exact h.supported (mem_synonyms_of_mem_clause hd hfirst)
      (mem_synonyms_of_mem_clause hd hsecond)
  have hdomain : ∀ x ∈ c.synonyms, ∀ value, F x value → value ∈ s.domains.get x :=
    fun x hx value hvalue => hcontains.mem x value ⟨mem_synonyms_of_mem_clause hc hx, hvalue⟩
  cases hacts with
  | ground _ _ => exact ⟨s, rfl, hcontains⟩
  | refused hfails =>
    obtain ⟨v, hv, hholds⟩ := h.exists_holds hc
    exact absurd hholds (hfails v fun x hx => hdomain x hx (v x) (hv x hx))
  | @single x allowed hsynonyms hallowed =>
    have hxc : x ∈ c.synonyms := (hsynonyms x).mpr rfl
    have hx := mem_synonyms_of_mem_clause hc hxc
    obtain ⟨value, hvalue⟩ := h.nonempty x hx
    refine Candidates.exists_narrow hsettle hcontains hkeys (v := value) ⟨hx, hvalue⟩ fun d hd => ?_
    obtain ⟨v, rfl, -, hholds⟩ := h.extend x hx x hx d hd.2
    refine (hallowed v (hdomain x hxc _ hd.2)).mpr (hholds c hc fun z hz => ?_)
    exact .inl ((hsynonyms z).mp hz)
  | @pair x y pairs hxy hsynonyms hpairs =>
    have hxc : x ∈ c.synonyms := (hsynonyms x).mpr (.inl rfl)
    have hyc : y ∈ c.synonyms := (hsynonyms y).mpr (.inr rfl)
    refine Candidates.exists_constrain hsettle hcontains hkeys (fun _ _ _ _ => Compatible.symm)
      (h.supported (mem_synonyms_of_mem_clause hc hxc) (mem_synonyms_of_mem_clause hc hyc))
      fun d e hd he hcompatible => ?_
    -- the assignment that gives the two synonyms these values
    obtain ⟨v, rfl, rfl⟩ : ∃ v : String → String, v x = d ∧ v y = e :=
      ⟨Function.update (fun _ => e) x d, Function.update_self ..,
        Function.update_of_ne (Ne.symm hxy) ..⟩
    refine (hpairs v (hdomain x hxc _ hd.2) (hdomain y hyc _ he.2)).mpr ?_
    exact hcompatible c hc (fun z hz => (hsynonyms z).mp hz) v rfl rfl

section Run

variable (hf : facts.IsWellFormed) (htyped : ∀ c ∈ q.clauses, c.IsTyped q.declarations)

include hf htyped

/-- No clauses, one after another, drop a value of a consistent family. -/
theorem exists_of_canApply {plan : List Clause} (hplan : ∀ c ∈ plan, c ∈ q.clauses)
    {s : Candidates} {result : Option Candidates}
    (happlies : Candidates.CanApply facts plan s result)
    (hs : s.IsSound facts q.declarations q.clauses)
    (hcontains : s.Contains (q.family F) (q.Compatible facts)) :
    ∃ t, result = some t ∧ t.IsSound facts q.declarations q.clauses ∧
      t.Contains (q.family F) (q.Compatible facts) := by
  induction happlies with
  | @nil s => exact ⟨s, rfl, hs, hcontains⟩
  | @fails settle c rest s hsettle happly =>
    have hc := hplan c List.mem_cons_self
    have hacts : c.Acts facts settle s none :=
      happly ▸ Clause.acts_apply hf (htyped c hc) hs.within
    obtain ⟨u, hu, -⟩ := h.exists_of_acts hsettle hc hs hcontains hacts
    cases hu
  | @cons settle c rest s u result hsettle happly _ ih =>
    obtain ⟨hc, hplan⟩ := List.forall_mem_cons.mp hplan
    have hacts : c.Acts facts settle s (some u) :=
      happly ▸ Clause.acts_apply hf (htyped c hc) hs.within
    obtain ⟨u', hu, hcontains⟩ := h.exists_of_acts hsettle hc hs hcontains hacts
    obtain rfl := Option.some.inj hu
    exact ih hplan (hs.of_acts hsettle hc hacts).1 hcontains

/-- A run of the clauses drops no value of a consistent family. -/
theorem exists_of_canRun {plan : List Clause} (hplan : ∀ c ∈ plan, c ∈ q.clauses)
    {result : Option Candidates}
    (hrun : Candidates.CanRun facts plan (.initial facts q.declarations) result) :
    ∃ t, result = some t ∧ t.Contains (q.family F) (q.Compatible facts) := by
  have hinitial : Candidates.Contains (q.family F) (q.Compatible facts)
      (.initial facts q.declarations) :=
    ⟨fun x value hvalue => h.mem_domain x hvalue.1 value hvalue.2, nofun⟩
  cases hrun with
  | fails hforward =>
    obtain ⟨t, ht, -⟩ :=
      h.exists_of_canApply hf htyped hplan hforward Candidates.isSound_initial hinitial
    cases ht
  | @reapplies u _ hforward hrest =>
    obtain ⟨u', hu, hsound, hcontains⟩ :=
      h.exists_of_canApply hf htyped hplan hforward Candidates.isSound_initial hinitial
    obtain rfl := Option.some.inj hu
    obtain ⟨t, ht, -, hcontains⟩ := hrest.exists_of_step
      (P := fun a => a.IsSound facts q.declarations q.clauses ∧
        a.Contains (q.family F) (q.Compatible facts))
      (fun _ _ hstep ha => h.exists_of_canApply hf htyped
        (fun c hc => hplan c (List.mem_reverse.mp hc)) hstep ha.1 ha.2) ⟨hsound, hcontains⟩
    exact ⟨t, ht, hcontains⟩

end Run

/-- A consistent family is among the candidates at the end. -/
theorem exists_evaluate? (hf : facts.IsWellFormed) (ht : q.IsTyped) :
    ∃ s, evaluate? facts q = some s ∧ s.Contains (q.family F) (q.Compatible facts) := by
  obtain ⟨plan, hmem, hrun⟩ := ht.exists_canRun facts
  exact h.exists_of_canRun hf ht.clauses (fun c hc => (hmem c).mp hc) hrun

end IsConsistent

end Query

end ProgramQuery
