import ProgramQuery.Proofs.PlanIndependence

/-!
# Candidates are settled between clauses

Whatever a clause is, applying it refuses, changes nothing, narrows one synonym or constrains two,
and which values and pairs it allows does not depend on the candidates. So one step lemma for each
of these four effects shows what holds after any clauses that have been applied: stored candidates
are entities of the declared kind, and there are some; there is one constraint on two synonyms, with
the smaller one first; and candidates and pairs support each other. Nothing is asked of the program
or of the clauses.

Settling sweeps through the constraints for as long as something is dropped. Each such sweep makes
the number of pairs and candidates smaller, so it comes to an end from every state.

## Main definitions

- `Effect`: what a clause does to any candidates.
- `Candidates.Obeys`: the candidates say what an effect says.
- `Candidates.AtRest`: what holds of the candidates when no clause is being applied.
- `Candidates.Drops`: after a sweep there are fewer pairs or candidates.

## Main statements

- `exists_describes_apply`: every clause has an effect.
- `Candidates.AtRest.of_describes`, `Candidates.AtRest.of_canApply`: one clause, and many clauses,
  leave the candidates at rest.
- `Candidates.drops_iff_size_lt`: a sweep that drops something makes the state smaller.
- `candidates_at_rest`: the candidates are at rest after any clauses, and settling ends.
-/

namespace ProgramQuery

/-! ## Effects of clauses -/

/-- What a clause does to candidates, whatever they are. -/
inductive Effect where
  /-- It leaves nothing. -/
  | refuse
  /-- It leaves everything. -/
  | pass
  /-- A synonym keeps the values that are allowed. -/
  | narrow (x : String) (allows : String → Prop)
  /-- Two synonyms keep the pairs of values that are related. -/
  | constrain (x y : String) (relates : String → String → Prop)

/-- A function of candidates, and of a way to settle them, has the effect. -/
def Effect.Describes (f : Candidates → (Candidates → Option Candidates) → Option Candidates) :
    Effect → Prop
  | refuse => ∀ s settle, f s settle = none
  | pass => ∀ s settle, f s settle = some s
  | narrow x allows => ∀ s settle, ∃ allowed, f s settle = s.narrow x allowed settle ∧
      ∀ v ∈ s.domains.get x, v ∈ allowed ↔ allows v
  | constrain x y relates => x ≠ y ∧ ∀ s settle, ∃ pairs,
      f s settle = s.constrain x y pairs settle ∧
        ∀ v w, (v, w) ∈ pairs ↔ v ∈ s.domains.get x ∧ w ∈ s.domains.get y ∧ relates v w

section Effects

open Candidates

variable {facts : Facts}

theorem exists_describes_check (holds : Bool) :
    ∃ e : Effect, e.Describes fun s _ => s.check holds := by
  cases holds with
  | true => exact ⟨.pass, fun _ _ => rfl⟩
  | false => exact ⟨.refuse, fun _ _ => rfl⟩

theorem describes_narrow (x : String) (allowed : List String) :
    (Effect.narrow x (· ∈ allowed)).Describes fun s settle => s.narrow x allowed settle :=
  fun _ _ => ⟨allowed, rfl, fun _ _ => Iff.rfl⟩

theorem describes_retain (x : String) (test : String → Bool) :
    (Effect.narrow x (test · = true)).Describes fun s settle => s.retain x test settle :=
  fun _ _ => ⟨_, rfl, fun _ hv => List.mem_filter.trans (and_iff_right hv)⟩

theorem describes_applyPair (connection : Connection) {a b : String} (hne : a ≠ b) :
    (Effect.constrain a b fun v w => w ∈ connection.rightsOf facts v).Describes
      fun s settle => applyPair facts connection a b s settle := by
  refine ⟨hne, fun s settle => ⟨_, if_neg hne, fun v w => ?_⟩⟩
  simp only [keepBy_eq_filter, List.mem_filter, List.mem_flatMap, List.mem_map, Prod.mk.injEq,
    decide_eq_true_eq]
  constructor
  · rintro ⟨⟨left, hleft, right, hright, rfl, rfl⟩, hw⟩
    exact ⟨hleft, hw, hright⟩
  · rintro ⟨hv, hw, hrelates⟩
    exact ⟨⟨v, hv, w, hrelates, rfl, rfl⟩, hw⟩

theorem describes_applyEqualPair {left right : Argument} (hne : left.value ≠ right.value) :
    (Effect.constrain left.value right.value fun v w =>
      ∃ name, left.kind.attribute? facts v = some name ∧
        right.kind.attribute? facts w = some name).Describes
      fun s settle => applyEqualPair facts left right s settle := by
  refine ⟨hne, fun s settle => ⟨_, if_neg hne, fun v w => ?_⟩⟩
  simp only [List.mem_flatMap]
  constructor
  · rintro ⟨a, ha, hpair⟩
    split at hpair
    · cases hpair
    · rename_i name hname
      obtain ⟨b, hb, heq⟩ := List.mem_map.mp hpair
      obtain ⟨rfl, rfl⟩ := Prod.mk.inj heq
      obtain ⟨b', hb', heq'⟩ := List.mem_filterMap.mp (mem_getD_groupPairs.mp hb)
      obtain ⟨name', hname', hpair'⟩ := Option.map_eq_some_iff.mp heq'
      obtain ⟨rfl, rfl⟩ := Prod.mk.inj hpair'
      exact ⟨ha, hb', name', hname, hname'⟩
  · rintro ⟨hv, hw, name, hname, hname'⟩
    refine ⟨v, hv, ?_⟩
    rw [hname]
    refine List.mem_map.mpr ⟨w, mem_getD_groupPairs.mpr ?_, rfl⟩
    exact List.mem_filterMap.mpr ⟨w, hw, by rw [hname']; rfl⟩

theorem exists_describes_applyConnection (connection : Connection) (left right : Argument) :
    ∃ e : Effect, e.Describes
      fun s settle => applyConnection facts connection left right s settle := by
  unfold applyConnection
  cases left.role with
  | invalid => exact ⟨.refuse, fun _ _ => rfl⟩
  | synonym =>
    cases right.role with
    | invalid => exact ⟨.refuse, fun _ _ => rfl⟩
    | literal => exact ⟨_, describes_narrow left.value (connection.leftsOf facts right.value)⟩
    | wildcard => exact ⟨_, describes_narrow left.value (connection.lefts facts)⟩
    | synonym =>
      by_cases heq : left.value = right.value
      · simp only [applyPair, heq, if_true]
        exact ⟨_, describes_retain right.value _⟩
      · exact ⟨_, describes_applyPair connection heq⟩
  | literal =>
    cases right.role with
    | invalid => exact ⟨.refuse, fun _ _ => rfl⟩
    | literal => exact exists_describes_check _
    | wildcard => exact exists_describes_check _
    | synonym => exact ⟨_, describes_narrow right.value (connection.rightsOf facts left.value)⟩
  | wildcard =>
    cases right.role with
    | invalid => exact ⟨.refuse, fun _ _ => rfl⟩
    | literal => exact exists_describes_check _
    | wildcard => exact exists_describes_check _
    | synonym => exact ⟨_, describes_narrow right.value (connection.rights facts)⟩

theorem exists_describes_applyEquality (left right : Argument) :
    ∃ e : Effect, e.Describes fun s settle => applyEquality facts left right s settle := by
  unfold applyEquality
  by_cases hsorts : left.kind.isNameValued?.isSome ∧
      left.kind.isNameValued? = right.kind.isNameValued?
  · simp only [if_pos hsorts]
    cases left.role with
    | invalid => exact ⟨.refuse, fun _ _ => rfl⟩
    | wildcard => exact ⟨.refuse, fun _ _ => rfl⟩
    | synonym =>
      cases right.role with
      | invalid => exact ⟨.refuse, fun _ _ => rfl⟩
      | wildcard => exact ⟨.refuse, fun _ _ => rfl⟩
      | literal => exact ⟨_, describes_retain left.value _⟩
      | synonym =>
        by_cases heq : left.value = right.value
        · simp only [applyEqualPair, heq, if_true]
          exact ⟨_, describes_retain right.value _⟩
        · exact ⟨_, describes_applyEqualPair heq⟩
    | literal =>
      cases right.role with
      | invalid => exact ⟨.refuse, fun _ _ => rfl⟩
      | wildcard => exact ⟨.refuse, fun _ _ => rfl⟩
      | literal => exact exists_describes_check _
      | synonym => exact ⟨_, describes_retain right.value _⟩
  · simp only [if_neg hsorts]
    exact ⟨.refuse, fun _ _ => rfl⟩

/-- Every clause has an effect. -/
theorem exists_describes_apply (facts : Facts) (c : Clause) :
    ∃ e : Effect, e.Describes fun s settle => apply facts c s settle := by
  unfold apply
  by_cases hkind : c.kind = .equality
  · simp only [hkind, if_true]
    exact exists_describes_applyEquality c.left c.right
  by_cases hasks : asksForNoExpression c = true
  · simp only [hkind, hasks, if_false, if_true]
    exact ⟨.refuse, fun _ _ => rfl⟩
  simp only [hkind, hasks, if_false]
  cases Connection.ofClause? facts c with
  | none => exact ⟨.refuse, fun _ _ => rfl⟩
  | some connection => exact exists_describes_applyConnection connection c.left c.right

/-- A clause about two different synonyms is refused, or constrains them to the pairs that it
relates. -/
theorem describes_apply_of_synonyms (facts : Facts) {c : Clause} (hl : c.left.role = .synonym)
    (hr : c.right.role = .synonym) (hne : c.left.value ≠ c.right.value) :
    Effect.refuse.Describes (fun s settle => apply facts c s settle) ∨
      (Effect.constrain c.left.value c.right.value (c.Relates facts)).Describes
        fun s settle => apply facts c s settle := by
  unfold apply
  by_cases hkind : c.kind = .equality
  · have hnone : Connection.ofClause? facts c = none := by rw [Connection.ofClause?, hkind]
    simp only [hkind, if_true, applyEquality, hl, hr]
    by_cases hsorts : c.left.kind.isNameValued?.isSome ∧
        c.left.kind.isNameValued? = c.right.kind.isNameValued?
    · simp only [if_pos hsorts]
      unfold Clause.Relates
      rw [hnone]
      exact .inr (describes_applyEqualPair hne)
    · simp only [if_neg hsorts]
      exact .inl fun _ _ => rfl
  by_cases hasks : asksForNoExpression c = true
  · simp only [hkind, hasks, if_false, if_true]
    exact .inl fun _ _ => rfl
  simp only [hkind, hasks, if_false, applyConnection, hl, hr]
  unfold Clause.Relates
  cases Connection.ofClause? facts c with
  | none => exact .inl fun _ _ => rfl
  | some connection => exact .inr (describes_applyPair connection hne)

end Effects

/-! ## Between clauses -/

/-- A pair of values is what some assignment gives the two synonyms. -/
theorem Constraint.exists_admits {k : Constraint} (hne : k.first ≠ k.second)
    {p : String × String} (hp : p ∈ k.pairs) :
    ∃ v : String → String, v k.first = p.1 ∧ v k.second = p.2 ∧ k.Admits v := by
  have hfirst : Function.update (fun _ => p.2) k.first p.1 k.first = p.1 := Function.update_self ..
  have hsecond : Function.update (fun _ => p.2) k.first p.1 k.second = p.2 :=
    Function.update_of_ne hne.symm ..
  exact ⟨_, hfirst, hsecond, by rwa [Admits, hfirst, hsecond]⟩

namespace Candidates

/-- The candidates say what an effect says. -/
def Obeys (s : Candidates) : Effect → Prop
  | .refuse => False
  | .pass => True
  | .narrow x allows => s.domains.Stores x ∧ ∀ v ∈ s.domains.get x, allows v
  | .constrain x y relates => ∃ k ∈ s.constraints, k.key = (Constraint.of x y []).key ∧
      ∀ v : String → String, k.Admits v → relates (v x) (v y)

/-- Candidates can become others by clauses: nothing is added, and what is stored stays stored. -/
structure LeadsTo (s t : Candidates) : Prop where
  refines : t.Refines s
  stores : ∀ x, s.domains.Stores x → t.domains.Stores x

theorem LeadsTo.refl (s : Candidates) : s.LeadsTo s :=
  ⟨Refines.refl s, fun _ h => h⟩

theorem LeadsTo.trans {s t u : Candidates} (h : s.LeadsTo t) (h' : t.LeadsTo u) : s.LeadsTo u :=
  ⟨h'.refines.trans h.refines, fun x hx => h'.stores x (h.stores x hx)⟩

/-- What has been said once stays said. -/
theorem Obeys.of_leadsTo {s t : Candidates} {e : Effect} (h : s.Obeys e) (ht : s.LeadsTo t) :
    t.Obeys e := by
  cases e with
  | refuse => exact h
  | pass => exact h
  | narrow x allows =>
    exact ⟨ht.stores x h.1, fun v hv => h.2 v (ht.refines.mem_of_mem x v hv)⟩
  | constrain x y relates =>
    obtain ⟨k, hk, hkey, hrelates⟩ := h
    obtain ⟨k', hk', hkey', hpairs⟩ := ht.refines.exists_constraint k hk
    exact ⟨k', hk', hkey'.trans hkey, fun v hv => hrelates v (hv.of_key hkey' hpairs)⟩

/-- The pairs of a constraint are related in the direction in which they are written. -/
theorem Obeys.exists_oriented {s : Candidates} {x y : String} {relates : String → String → Prop}
    (h : s.Obeys (.constrain x y relates)) (hne : x ≠ y) : ∃ k ∈ s.constraints,
      (k.key = (x, y) ∧ ∀ p ∈ k.pairs, relates p.1 p.2) ∨
      (k.key = (y, x) ∧ ∀ p ∈ k.pairs, relates p.2 p.1) := by
  obtain ⟨k, hk, hkey, hrelates⟩ := h
  refine ⟨k, hk, ?_⟩
  rw [Constraint.key_of] at hkey
  split at hkey
  · refine .inr ⟨hkey, fun p hp => ?_⟩
    obtain ⟨rfl, rfl⟩ := Prod.mk.inj hkey
    obtain ⟨v, hfirst, hsecond, hv⟩ := Constraint.exists_admits hne.symm hp
    exact hfirst ▸ hsecond ▸ hrelates v hv
  · refine .inl ⟨hkey, fun p hp => ?_⟩
    obtain ⟨rfl, rfl⟩ := Prod.mk.inj hkey
    obtain ⟨v, hfirst, hsecond, hv⟩ := Constraint.exists_admits hne hp
    exact hfirst ▸ hsecond ▸ hrelates v hv

/-- What holds of the candidates when no clause is being applied. -/
structure AtRest (facts : Facts) (declared : Declarations) (s : Candidates) : Prop where
  /-- A synonym whose candidates are stored has some. -/
  ne_nil : ∀ x, s.domains.Stores x → s.domains.get x ≠ []
  /-- Candidates are entities of the declared kinds. -/
  within : s.IsWithin facts declared
  /-- There is one constraint on two synonyms, the smaller of which comes first. -/
  ordered : s.Ordered
  /-- The candidates of constrained synonyms are stored. -/
  storesKeys : s.StoresKeys
  /-- Pairs are made of candidates, and candidates are in pairs of all constraints on them. -/
  settled : s.Settled

section Step

variable {facts : Facts} {declared : Declarations} {settle : Candidates → Option Candidates}
  (hsettle : IsSettling settle) {s t : Candidates} (hs : s.AtRest facts declared)

include hsettle hs

theorem AtRest.of_narrow {x : String} {allowed : List String}
    (h : s.narrow x allowed settle = some t) :
    t.AtRest facts declared ∧ s.LeadsTo t ∧ t.domains.Stores x ∧
      ∀ v ∈ t.domains.get x, v ∈ allowed := by
  obtain ⟨hrefines, hsettled, hkeys, hne, hallowed⟩ := refines_of_narrow hsettle h hs.settled
  obtain ⟨hextends, hstores⟩ := extends_of_narrow hsettle hs.storesKeys h
  refine ⟨⟨fun y hy => ?_, fun y v hv => hs.within y v (hrefines.mem_of_mem y v hv),
    ⟨hkeys ▸ hs.ordered.pairwise, hkeys ▸ hs.ordered.lt⟩, hstores, hsettled⟩,
    ⟨hrefines, fun y hy => (hextends.stores_iff y).mpr (.inl hy)⟩,
    (hextends.stores_iff x).mpr (.inr rfl), hallowed⟩
  rcases (hextends.stores_iff y).mp hy with hy | rfl
  · exact hrefines.ne_nil y (hs.ne_nil y hy)
  · exact hne

theorem AtRest.of_constrain {a b : String} {pairs : List (String × String)} (hab : a ≠ b)
    (h : s.constrain a b pairs settle = some t) :
    t.AtRest facts declared ∧ s.LeadsTo t ∧
      ∃ k ∈ t.constraints, k.key = (Constraint.of a b pairs).key ∧
        ∀ p ∈ k.pairs, p ∈ (Constraint.of a b pairs).pairs := by
  obtain ⟨hrefines, hsettled, -, ⟨hnea, hneb⟩, hk⟩ := refines_of_constrain hsettle h
  obtain ⟨hextends, hstores⟩ := extends_of_constrain hsettle hs.storesKeys h
  refine ⟨⟨fun y hy => ?_, fun y v hv => hs.within y v (hrefines.mem_of_mem y v hv),
    hs.ordered.constrain hsettle hab h, hstores, hsettled⟩,
    ⟨hrefines, fun y hy => (hextends.stores_iff y).mpr (.inl hy)⟩, hk⟩
  rcases (hextends.stores_iff y).mp hy with hy | rfl | rfl
  · exact hrefines.ne_nil y (hs.ne_nil y hy)
  · exact hnea
  · exact hneb

/-- One clause leaves the candidates at rest, and from then on they say what it says. -/
theorem AtRest.of_describes {e : Effect}
    {f : Candidates → (Candidates → Option Candidates) → Option Candidates} (he : e.Describes f)
    (h : f s settle = some t) : t.AtRest facts declared ∧ s.LeadsTo t ∧ t.Obeys e := by
  cases e with
  | refuse =>
    rw [he s settle] at h
    cases h
  | pass =>
    rw [he s settle] at h
    obtain rfl := Option.some.inj h
    exact ⟨hs, LeadsTo.refl s, trivial⟩
  | narrow x allows =>
    obtain ⟨allowed, heq, hallowed⟩ := he s settle
    obtain ⟨hrest, hleads, hstores, hmem⟩ := hs.of_narrow hsettle (heq.symm.trans h)
    refine ⟨hrest, hleads, hstores, fun v hv => ?_⟩
    exact (hallowed v (hleads.refines.mem_of_mem x v hv)).mp (hmem v hv)
  | constrain x y relates =>
    obtain ⟨hne, happly⟩ := he
    obtain ⟨pairs, heq, hpairs⟩ := happly s settle
    obtain ⟨hrest, hleads, k, hk, hkey, hsub⟩ := hs.of_constrain hsettle hne (heq.symm.trans h)
    refine ⟨hrest, hleads, k, hk, by rw [hkey, Constraint.key_of, Constraint.key_of],
      fun v hv => ?_⟩
    exact ((hpairs _ _).mp (Constraint.admits_of.mp (hv.of_key hkey hsub))).2.2

end Step

theorem atRest_initial (facts : Facts) (declared : Declarations) :
    (initial facts declared).AtRest facts declared := by
  refine ⟨fun x hx => ?_, fun _ _ hv => hv, ⟨.nil, nofun⟩, fun x hx => ?_, nofun⟩
  · simp [initial, Domains.Stores] at hx
  · obtain ⟨key, hkey, -⟩ := hx
    cases hkey

/-- Clauses, one after another, leave the candidates at rest, and these say what all of them say. -/
theorem AtRest.of_canApply {facts : Facts} {declared : Declarations} {plan : List Clause}
    {s t : Candidates} (hs : s.AtRest facts declared) (h : CanApply facts plan s (some t)) :
    t.AtRest facts declared ∧ s.LeadsTo t ∧ ∀ c ∈ plan, ∀ e : Effect,
      e.Describes (fun s settle => apply facts c s settle) → t.Obeys e := by
  generalize hresult : some t = result at h
  induction h with
  | @nil s =>
    obtain rfl := Option.some.inj hresult
    exact ⟨hs, LeadsTo.refl t, fun c hc => absurd hc List.not_mem_nil⟩
  | fails _ _ => cases hresult
  | @cons settle c rest s u result hsettle happly _ ih =>
    obtain ⟨e, he⟩ := exists_describes_apply facts c
    obtain ⟨hrest, hleads, -⟩ := hs.of_describes hsettle he happly
    obtain ⟨hrest', hleads', hobeys⟩ := ih hrest hresult
    refine ⟨hrest', hleads.trans hleads', List.forall_mem_cons.mpr ⟨fun e he => ?_, hobeys⟩⟩
    exact (hs.of_describes hsettle he happly).2.2.of_leadsTo hleads'

/-! ## Settling ends -/

/-- How many pairs the constraints have. -/
def pairCount (s : Candidates) : Nat :=
  s.constraints.foldr (fun c count => c.pairs.length + count) 0

/-- There are other numbers of pairs or candidates in the second state than in the first. -/
def Drops (s t : Candidates) : Prop :=
  t.pairCount ≠ s.pairCount ∨ ∃ x, (t.domains.get x).length ≠ (s.domains.get x).length

theorem size_eq (s : Candidates) : s.size = s.pairCount + s.keys.foldr
    (fun key count =>
      (s.domains.get key.1).length + (s.domains.get key.2).length + count) 0 := by
  rw [size, pairCount, keys]
  induction s.constraints with
  | nil => rfl
  | cons c cs ih =>
    simp only [List.foldr_cons, List.map_cons, Constraint.size, Constraint.key] at ih ⊢
    omega

/-- A sweep leaves the synonyms alone that are in no constraint. -/
theorem get_of_sweep {cs cs' : List Constraint} {d d' : Domains}
    (h : sweep cs d = some (cs', d')) {x : String} (hx : ¬Occurs (cs.map Constraint.key) x) :
    d'.get x = d.get x := by
  induction cs generalizing d cs' with
  | nil =>
    obtain ⟨-, rfl⟩ := Prod.mk.inj (Option.some.inj h)
    rfl
  | cons c cs ih =>
    obtain ⟨d₁, d₂, cs₂, h₁, h₂, h₃, -⟩ := sweep_cons h
    have hc : x ≠ c.first ∧ x ≠ c.second :=
      not_or.mp fun heq => hx ⟨c.key, List.mem_cons_self, heq⟩
    have hcs : ¬Occurs (cs.map Constraint.key) x := fun ⟨key, hkey, heq⟩ =>
      hx ⟨key, List.mem_cons_of_mem _ hkey, heq⟩
    rw [ih h₃ hcs, Domains.get_of_restrict h₂, if_neg hc.2, Domains.get_of_restrict h₁, if_neg hc.1]

/-- A sweep that does not make the state smaller leaves all pairs and candidates. -/
theorem Sweeps.not_drops {s t : Candidates} (h : s.Sweeps (some t)) (hsize : ¬t.size < s.size) :
    ¬s.Drops t := by
  cases h with
  | @passes order swept left d horder hsweep hleft _ =>
    have hbefore : order.foldr (fun c size => c.size s.domains + size) 0 = s.size :=
      sum_size_eq_of_perm horder s.domains
    have hafter : swept.foldr (fun c size => c.size d + size) 0 = size ⟨d, left⟩ :=
      sum_size_eq_of_perm hleft.symm d
    obtain ⟨rfl, hsame⟩ := eq_of_sum_size_le (forall₂_of_sweep hsweep) (sublist_of_sweep hsweep)
      (by omega)
    rintro (hcount | ⟨x, hx⟩)
    · refine hcount ((hleft.trans horder).foldr_eq' (fun a _ b _ n => ?_) 0)
      omega
    · refine hx (congrArg List.length ?_)
      by_cases hoccurs : Occurs (swept.map Constraint.key) x
      · obtain ⟨key, hkey, heq⟩ := hoccurs
        obtain ⟨c, hc, rfl⟩ := List.mem_map.mp hkey
        rcases heq with rfl | rfl
        · exact (hsame c hc).1
        · exact (hsame c hc).2
      · exact get_of_sweep hsweep hoccurs

/-- A sweep drops something exactly if it makes the state smaller. -/
theorem drops_iff_size_lt {s t : Candidates} (h : s.Sweeps (some t)) :
    s.Drops t ↔ t.size < s.size := by
  constructor
  · intro hdrops
    by_contra hsize
    exact h.not_drops hsize hdrops
  · intro hsize
    by_contra hdrops
    obtain ⟨hcount, hlength⟩ := not_or.mp hdrops
    have hcount : t.pairCount = s.pairCount := not_not.mp hcount
    have hlength : ∀ x, (t.domains.get x).length = (s.domains.get x).length :=
      fun x => not_not.mp fun hne => hlength ⟨x, hne⟩
    rw [size_eq, size_eq, hcount, h.settles.keys_eq] at hsize
    simp only [hlength] at hsize
    exact Nat.lt_irrefl _ hsize

/-- From no state can sweeps go on dropping something for ever. -/
theorem wellFounded_drops : WellFounded fun t s : Candidates => s.Sweeps (some t) ∧ s.Drops t := by
  refine Subrelation.wf (fun {t s} h => ?_) (measure size).wf
  exact (drops_iff_size_lt h.1).mp h.2

end Candidates

/-- The candidates are at rest after any clauses that have been applied, in whatever order the
constraints are visited. The pairs of a constraint have the value for its first synonym first: they
are what the clauses about the two synonyms relate, in this direction. Settling goes on for as long
as a sweep drops something, which makes the state smaller, so it ends from every state. -/
theorem candidates_at_rest (facts : Facts) (q : Query) :
    (∀ (plan : List Clause) (s : Candidates),
      Candidates.CanApply facts plan (.initial facts q.declarations) (some s) →
        s.AtRest facts q.declarations ∧
        ∀ c ∈ plan, c.left.role = .synonym → c.right.role = .synonym →
          c.left.value ≠ c.right.value → ∃ k ∈ s.constraints,
            (k.key = (c.left.value, c.right.value) ∧ ∀ p ∈ k.pairs, c.Relates facts p.1 p.2) ∨
            (k.key = (c.right.value, c.left.value) ∧ ∀ p ∈ k.pairs, c.Relates facts p.2 p.1)) ∧
    (∀ s : Candidates, s.CanSettle s.settle?) ∧
    (∀ s t : Candidates, s.Sweeps (some t) → (s.Drops t ↔ t.size < s.size)) ∧
    WellFounded fun t s : Candidates => s.Sweeps (some t) ∧ s.Drops t := by
  refine ⟨fun plan s h => ?_, Candidates.isSettling_settle?,
    fun _ _ => Candidates.drops_iff_size_lt, Candidates.wellFounded_drops⟩
  obtain ⟨hrest, -, hobeys⟩ := (Candidates.atRest_initial facts q.declarations).of_canApply h
  refine ⟨hrest, fun c hc hl hr hne => ?_⟩
  rcases describes_apply_of_synonyms facts hl hr hne with hrefuse | hconstrain
  · exact absurd (hobeys c hc _ hrefuse) id
  · exact (hobeys c hc _ hconstrain).exists_oriented hne

/-- Two synonyms with a constraint that leaves each of them one of its two candidates. -/
def loosePair : Candidates where
  domains := { initial := fun _ => ["1", "2"] }
  constraints := [⟨"a", "b", [("1", "2"), ("3", "1")]⟩]

/-- The clauses about increments leave candidates at rest, and a sweep of the loose pair drops
something. -/
theorem candidates_at_rest_increments : ∃ facts q s,
    Facts.ofSource countingUp = .ok facts ∧ Query.ofText increments = .ok q ∧
      Candidates.CanApply facts q.clauses (.initial facts q.declarations) (some s) ∧
      s.domains.get "a" = ["1", "3"] ∧ s.keys = [("a", "b"), ("a", "v"), ("b", "v")] ∧
      s.AtRest facts q.declarations ∧
      ∃ t, loosePair.Sweeps (some t) ∧ t.size < loosePair.size ∧ loosePair.Drops t := by
  have hrun : (do
      let facts ← (Facts.ofSource countingUp).toOption
      let q ← (Query.ofText increments).toOption
      let s ← Candidates.applyAll facts q.clauses (.initial facts q.declarations)
      return decide (s.domains.get "a" = ["1", "3"] ∧
        s.keys = [("a", "b"), ("a", "v"), ("b", "v")])) = some true := by
    decide +kernel
  obtain ⟨facts, hfacts, hrun⟩ := Option.bind_eq_some_iff.mp hrun
  obtain ⟨q, hquery, hrun⟩ := Option.bind_eq_some_iff.mp hrun
  obtain ⟨s, happly, hrun⟩ := Option.bind_eq_some_iff.mp hrun
  obtain ⟨hget, hkeys⟩ := of_decide_eq_true (Option.some.inj hrun)
  have hcan := happly ▸ Candidates.canApply_applyAll facts q.clauses (.initial facts q.declarations)
  obtain ⟨hclauses, -, hdrops, -⟩ := candidates_at_rest facts q
  have hsweep : (loosePair.sweepAll.map fun t => decide (t.size < loosePair.size)) = some true := by
    decide
  obtain ⟨t, ht, hsize⟩ := Option.map_eq_some_iff.mp hsweep
  have hsweeps : loosePair.Sweeps (some t) := ht ▸ Candidates.sweeps_sweepAll loosePair
  have hsize := of_decide_eq_true hsize
  exact ⟨facts, q, s, eq_ok_of_toOption hfacts, eq_ok_of_toOption hquery, hcan, hget, hkeys,
    (hclauses _ s hcan).1, t, hsweeps, hsize, (hdrops _ t hsweeps).mpr hsize⟩

end ProgramQuery
