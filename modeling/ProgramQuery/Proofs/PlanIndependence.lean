import ProgramQuery.Proofs.Answers

/-!
# Plans do not change answers

The clauses of a query can be applied in any order, and any of them several times; and whenever
something is dropped, the constraints can be visited in any order. All runs end the same way. The
reason is that an end is a consistent family of values, which every other run keeps. So if one run
succeeds, all do, and no end has less than another.

## Main definitions

- `Candidates.Same`: the same candidates and constraints.
- `Query.IsEnd`: what every successful run ends in.
- `Query.answerFrom`: the answer by what a run leaves.

## Main statements

- `Query.same_of_canRun`: two runs of the clauses end the same way.
- `answer_of_canRun`: the answer does not depend on the plan.
-/

namespace ProgramQuery

/-! ## Stored candidates -/

namespace Domains

/-- The candidates of the synonym are stored. -/
def Stores (d : Domains) (x : String) : Prop :=
  (d.narrowed.lookup x).isSome = true

theorem get_of_not_stores {d : Domains} {x : String} (h : ¬d.Stores x) : d.get x = d.initial x := by
  rw [get, Option.not_isSome_iff_eq_none.mp h]
  rfl

/-- The candidates of some more synonyms are stored. -/
structure Extends (d d' : Domains) (names : String → Prop) : Prop where
  initial_eq : d'.initial = d.initial
  stores_iff : ∀ x, d'.Stores x ↔ d.Stores x ∨ names x

theorem Extends.trans {d d' d'' : Domains} {P Q R : String → Prop} (h : d.Extends d' P)
    (h' : d'.Extends d'' Q) (hR : ∀ x, d.Stores x ∨ R x ↔ (d.Stores x ∨ P x) ∨ Q x) :
    d.Extends d'' R := by
  refine ⟨h'.initial_eq.trans h.initial_eq, fun x => ?_⟩
  rw [h'.stores_iff, h.stores_iff, hR]

theorem extends_of_restrict {d d' : Domains} {x : String} {allowed : List String}
    (h : d.restrict x allowed = some d') : d.Extends d' (· = x) := by
  rw [restrict] at h
  split at h
  · cases h
  · obtain rfl := Option.some.inj h
    refine ⟨rfl, fun y => ?_⟩
    rw [Stores, set, lookup_replace, Stores]
    by_cases hy : y = x <;> simp [hy]

end Domains

/-- The synonym is in one of the pairs. -/
def Occurs (keys : List (String × String)) (x : String) : Prop :=
  ∃ key ∈ keys, x = key.1 ∨ x = key.2

namespace Candidates

/-- The candidates of the constrained synonyms are stored. -/
def StoresKeys (s : Candidates) : Prop :=
  ∀ x, Occurs s.keys x → s.domains.Stores x

theorem extends_of_sweep {cs cs' : List Constraint} {d d' : Domains}
    (h : sweep cs d = some (cs', d')) : d.Extends d' (Occurs (cs.map Constraint.key)) := by
  induction cs generalizing d cs' with
  | nil =>
    obtain ⟨-, rfl⟩ := Prod.mk.inj (Option.some.inj h)
    exact ⟨rfl, fun x => by simp [Occurs]⟩
  | cons c cs ih =>
    obtain ⟨d₁, d₂, cs₂, h₁, h₂, h₃, -⟩ := sweep_cons h
    have hends : d.Extends d₂ fun x => x = c.first ∨ x = c.second :=
      (Domains.extends_of_restrict h₁).trans (Domains.extends_of_restrict h₂)
        fun x => or_assoc.symm
    refine hends.trans (ih h₃) fun x => ?_
    simp [Occurs, Constraint.key, or_assoc]

theorem Sweeps.extends {s t : Candidates} (h : s.Sweeps (some t)) :
    s.domains.Extends t.domains (Occurs s.keys) := by
  cases h with
  | passes horder hsweep _ _ =>
    have hextends := extends_of_sweep hsweep
    refine ⟨hextends.initial_eq, fun x => (hextends.stores_iff x).trans (or_congr_right ?_)⟩
    exact exists_congr fun key => and_congr_left fun _ => (horder.map Constraint.key).mem_iff

/-- Settling stores the candidates of the constrained synonyms. -/
theorem CanSettle.extends {s t : Candidates} (h : s.CanSettle (some t)) :
    s.domains.Extends t.domains (Occurs s.keys) := by
  generalize hresult : some t = result at h
  induction h with
  | fails _ => cases hresult
  | stops hstep _ =>
    obtain rfl := Option.some.inj hresult
    exact hstep.extends
  | again hstep _ _ ih =>
    refine hstep.extends.trans (ih hresult) fun x => ?_
    rw [hstep.settles.keys_eq, or_assoc, or_self]

theorem CanSettle.storesKeys {s t : Candidates} (h : s.CanSettle (some t)) : t.StoresKeys := by
  intro x hx
  rw [h.settles.keys_eq] at hx
  exact (h.extends.stores_iff x).mpr (.inr hx)

section Steps

variable {settle : Candidates → Option Candidates} (hsettle : IsSettling settle) {s t : Candidates}

include hsettle

theorem extends_of_narrow {x : String} {allowed : List String} (hs : s.StoresKeys)
    (h : s.narrow x allowed settle = some t) :
    s.domains.Extends t.domains (· = x) ∧ t.StoresKeys := by
  obtain ⟨d, hrestrict, h⟩ := Option.bind_eq_some_iff.mp h
  have hextends := Domains.extends_of_restrict hrestrict
  split at h
  · obtain rfl := Option.some.inj h
    exact ⟨hextends, fun y hy => (hextends.stores_iff y).mpr (.inl (hs y hy))⟩
  · have hcan := hsettle.canSettle h
    refine ⟨hextends.trans hcan.extends fun y => ?_, hcan.storesKeys⟩
    -- what is constrained was stored before
    exact ⟨.inl, fun hy => hy.elim id fun hy => .inl (hs y hy)⟩

theorem extends_of_constrain {a b : String} {pairs : List (String × String)} (hs : s.StoresKeys)
    (h : s.constrain a b pairs settle = some t) :
    s.domains.Extends t.domains (fun x => x = a ∨ x = b) ∧ t.StoresKeys := by
  have hcan := hsettle.canSettle h
  have hextends := hcan.extends
  refine ⟨⟨hextends.initial_eq, fun x => (hextends.stores_iff x).trans ?_⟩, hcan.storesKeys⟩
  have hkey : x = (Constraint.of a b pairs).key.1 ∨ x = (Constraint.of a b pairs).key.2 ↔
      x = a ∨ x = b := by
    rw [Constraint.key_of]
    split
    · exact or_comm
    · exact Iff.rfl
  constructor
  · rintro (hx | ⟨key, hmem, hx⟩)
    · exact .inl hx
    · rcases Constraint.mem_map_key_insert.mp hmem with rfl | hmem
      · exact .inr (hkey.mp hx)
      · exact .inl (hs x ⟨key, hmem, hx⟩)
  · rintro (hx | hx)
    · exact .inl hx
    · exact .inr ⟨_, Constraint.mem_map_key_insert.mpr (.inl rfl), hkey.mpr hx⟩

/-- A clause stores the candidates of its synonyms. -/
theorem extends_of_acts {facts : Facts} {c : Clause} (hs : s.StoresKeys)
    (h : c.Acts facts settle s (some t)) :
    s.domains.Extends t.domains (· ∈ c.synonyms) ∧ t.StoresKeys := by
  generalize hresult : some t = result at h
  cases h with
  | ground hnone _ =>
    obtain rfl := Option.some.inj hresult
    exact ⟨⟨rfl, fun x => by simp [hnone]⟩, hs⟩
  | refused _ => cases hresult
  | single hsynonyms _ =>
    simp only [hsynonyms]
    exact extends_of_narrow hsettle hs hresult.symm
  | pair _ hsynonyms _ =>
    simp only [hsynonyms]
    exact extends_of_constrain hsettle hs hresult.symm

end Steps

section Run

variable {facts : Facts} {declared : Declarations} {clauses : List Clause} {s t : Candidates}
  (hf : facts.IsWellFormed) (htyped : ∀ c ∈ clauses, c.IsTyped declared)

include hf htyped

theorem extends_of_canApply {plan : List Clause} (hplan : ∀ c ∈ plan, c ∈ clauses)
    (hs : s.IsSound facts declared clauses) (hkeys : s.StoresKeys)
    (h : CanApply facts plan s (some t)) :
    s.domains.Extends t.domains (fun x => ∃ c ∈ plan, x ∈ c.synonyms) ∧ t.StoresKeys := by
  generalize hresult : some t = result at h
  induction h with
  | nil =>
    obtain rfl := Option.some.inj hresult
    exact ⟨⟨rfl, fun x => by simp⟩, hkeys⟩
  | fails _ _ => cases hresult
  | @cons settle c rest s u result hsettle happly _ ih =>
    obtain ⟨hc, hplan⟩ := List.forall_mem_cons.mp hplan
    have hacts : c.Acts facts settle s (some u) :=
      happly ▸ Clause.acts_apply hf (htyped c hc) hs.within
    obtain ⟨hextends, hkeys⟩ := extends_of_acts hsettle hkeys hacts
    obtain ⟨hextends', hkeys'⟩ := ih hplan (hs.of_acts hsettle hc hacts).1 hkeys hresult
    exact ⟨hextends.trans hextends' fun x => by simp [or_assoc], hkeys'⟩

/-- A run stores the candidates of the synonyms of its clauses. -/
theorem extends_of_canRun {plan : List Clause} (hplan : ∀ c ∈ plan, c ∈ clauses)
    (hs : s.IsSound facts declared clauses) (hkeys : s.StoresKeys)
    (h : CanRun facts plan s (some t)) :
    s.domains.Extends t.domains fun x => ∃ c ∈ plan, x ∈ c.synonyms := by
  cases h with
  | @reapplies u _ hforward hrest =>
    have hsound := (hs.of_canApply hf htyped hplan hforward).1
    obtain ⟨hextends, hkeys⟩ := extends_of_canApply hf htyped hplan hs hkeys hforward
    have hplan' : ∀ c ∈ plan.reverse, c ∈ clauses := fun c hc => hplan c (List.mem_reverse.mp hc)
    refine (hrest.of_step (P := fun u => u.IsSound facts declared clauses ∧ u.StoresKeys ∧
      s.domains.Extends u.domains fun x => ∃ c ∈ plan, x ∈ c.synonyms) ?_
      ⟨hsound, hkeys, hextends⟩).2.2
    rintro a b hab ⟨hsound, hkeys, hextends⟩
    obtain ⟨hextends', hkeys'⟩ := extends_of_canApply hf htyped hplan' hsound hkeys hab
    refine ⟨(hsound.of_canApply hf htyped hplan' hab).1, hkeys', hextends.trans hextends' ?_⟩
    intro x
    simp only [List.mem_reverse, or_assoc, or_self]

end Run

/-! ## The same candidates -/

/-- The same candidates, stored for the same synonyms, and the same constraints. -/
structure Same (s t : Candidates) : Prop where
  stores_iff : ∀ x, s.domains.Stores x ↔ t.domains.Stores x
  mem_iff : ∀ x v, v ∈ s.domains.get x ↔ v ∈ t.domains.get x
  keys_eq : s.keys = t.keys
  mem_pairs_iff : ∀ k ∈ s.constraints, ∀ k' ∈ t.constraints, k.key = k'.key →
    ∀ p, p ∈ k.pairs ↔ p ∈ k'.pairs

theorem Same.symm {s t : Candidates} (h : s.Same t) : t.Same s :=
  ⟨fun x => (h.stores_iff x).symm, fun x v => (h.mem_iff x v).symm, h.keys_eq.symm,
    fun k hk k' hk' hkey p => (h.mem_pairs_iff k' hk' k hk hkey.symm p).symm⟩

theorem Ordered.keys_eq {s t : Candidates} (hs : s.Ordered) (ht : t.Ordered)
    (h : ∀ key, key ∈ s.keys ↔ key ∈ t.keys) : s.keys = t.keys := by
  have hnodup : ∀ u : Candidates, u.Ordered → u.keys.Nodup := by
    intro u hu
    refine hu.pairwise.imp fun hlt heq => ?_
    exact Constraint.KeyLt.irrefl _ (heq ▸ hlt)
  refine ((List.perm_ext_iff_of_nodup (hnodup s hs) (hnodup t ht)).mpr h).eq_of_pairwise ?_
    hs.pairwise ht.pairwise
  intro a b _ _ hab hba
  exact absurd (hab.trans hba) (Constraint.KeyLt.irrefl a)

end Candidates

/-! ## The ends of runs -/

namespace Query

variable {facts : Facts} {q : Query} {s t : Candidates}

/-- What every successful run of the clauses of a query ends in. -/
structure IsEnd (facts : Facts) (q : Query) (s : Candidates) : Prop where
  isSound : s.IsSound facts q.declarations q.clauses
  enforces : ∀ c ∈ q.clauses, s.Enforces facts c
  initial_eq : s.domains.initial = initialDomain facts q.declarations
  stores_iff : ∀ x, s.domains.Stores x ↔ ∃ c ∈ q.clauses, x ∈ c.synonyms

theorem isEnd_of_canRun (hf : facts.IsWellFormed)
    (htyped : ∀ c ∈ q.clauses, c.IsTyped q.declarations) {plan : List Clause}
    (hplan : ∀ c, c ∈ plan ↔ c ∈ q.clauses)
    (h : Candidates.CanRun facts plan (.initial facts q.declarations) (some s)) :
    q.IsEnd facts s := by
  have hmem : ∀ c ∈ plan, c ∈ q.clauses := fun c => (hplan c).mp
  obtain ⟨hsound, henforces⟩ := Candidates.isSound_initial.of_canRun hf htyped hmem h
  have hnone : ∀ x, ¬Occurs (Candidates.initial facts q.declarations).keys x := by
    rintro x ⟨key, hkey, -⟩
    cases hkey
  have hextends := Candidates.extends_of_canRun hf htyped hmem Candidates.isSound_initial
    (fun x hx => absurd hx (hnone x)) h
  refine ⟨hsound, fun c hc => henforces c ((hplan c).mpr hc), hextends.initial_eq, fun x => ?_⟩
  have hempty : ¬(Candidates.initial facts q.declarations).domains.Stores x := by
    simp [Candidates.initial, Domains.Stores]
  rw [hextends.stores_iff, or_iff_right hempty]
  simp only [hplan]

/-- The clauses alone, with nothing selected. -/
def unselected (q : Query) : Query :=
  { q with elements := [] }

theorem mem_synonyms_unselected {x : String} :
    x ∈ q.unselected.synonyms ↔ ∃ c ∈ q.clauses, x ∈ c.synonyms := by
  simp [synonyms, selected, unselected]

namespace IsEnd

variable (hs : q.IsEnd facts s)

include hs

/-- An end is a consistent family of values. -/
theorem isConsistent :
    q.unselected.IsConsistent facts fun x value => value ∈ s.domains.get x := by
  refine isConsistent_of_isSound (q := q.unselected) hs.isSound hs.enforces fun x hx => ?_
  simp [selected, unselected] at hx

theorem compatible {k : Constraint} (hk : k ∈ s.constraints) {p : String × String}
    (hp : p ∈ k.pairs) : q.unselected.Compatible facts k.first p.1 k.second p.2 := by
  intro c hc hall v hfirst hsecond
  have hsettled := hs.isSound.settled k hk
  refine (hs.enforces c hc).holds v (fun x hx => ?_) fun k' hk' hfirst' hsecond' => ?_
  · rcases hall x hx with rfl | rfl
    · exact hfirst ▸ hsettled.fst_mem p hp
    · exact hsecond ▸ hsettled.snd_mem p hp
  · -- there is no other constraint on the two synonyms
    have hkey := hs.isSound.ordered.key_eq hk hk' (hall _ hfirst') (hall _ hsecond')
    rw [hs.isSound.ordered.eq_of_key hk' hk hkey, Constraint.Admits, hfirst, hsecond]
    exact hp

theorem mem_keys_iff {x y : String} :
    (x, y) ∈ s.keys ↔ x < y ∧ ∃ c ∈ q.clauses, x ∈ c.synonyms ∧ y ∈ c.synonyms := by
  constructor
  · intro hkey
    exact ⟨hs.isSound.ordered.lt _ hkey, hs.isSound.exists_clause _ hkey⟩
  · rintro ⟨hlt, c, hc, hx, hy⟩
    have hne : x ≠ y := fun heq => String.lt_irrefl _ (heq ▸ hlt)
    refine ((hs.enforces c hc).mem_keys x hx y hy hne).resolve_right fun hkey => ?_
    exact String.lt_asymm hlt (hs.isSound.ordered.lt _ hkey)

/-- An end has all that another end has which every run keeps. -/
theorem mem_of_contains (ht : q.IsEnd facts t)
    (hcontains : t.Contains (q.unselected.family fun x value => value ∈ s.domains.get x)
      (q.unselected.Compatible facts)) {x value : String} (hvalue : value ∈ s.domains.get x) :
    value ∈ t.domains.get x := by
  by_cases hx : ∃ c ∈ q.clauses, x ∈ c.synonyms
  · exact hcontains.mem x value ⟨mem_synonyms_unselected.mpr hx, hvalue⟩
  · -- no clause is about the synonym
    have hsx : ¬s.domains.Stores x := fun h => hx ((hs.stores_iff x).mp h)
    have htx : ¬t.domains.Stores x := fun h => hx ((ht.stores_iff x).mp h)
    rw [Domains.get_of_not_stores hsx, hs.initial_eq] at hvalue
    rw [Domains.get_of_not_stores htx, ht.initial_eq]
    exact hvalue

theorem mem_pairs_of_contains
    (hcontains : t.Contains (q.unselected.family fun x value => value ∈ s.domains.get x)
      (q.unselected.Compatible facts)) {k k' : Constraint} (hk : k ∈ s.constraints)
    (hk' : k' ∈ t.constraints) (hkey : k.key = k'.key) {p : String × String} (hp : p ∈ k.pairs) :
    p ∈ k'.pairs := by
  obtain ⟨c, hc, hfirst, hsecond⟩ := hs.isSound.exists_clause k.key (List.mem_map_of_mem hk)
  have hsettled := hs.isSound.settled k hk
  have hcompatible := hs.compatible hk hp
  have hx : q.unselected.family (fun x value => value ∈ s.domains.get x) k.first p.1 :=
    ⟨mem_synonyms_unselected.mpr ⟨c, hc, hfirst⟩, hsettled.fst_mem p hp⟩
  have hy : q.unselected.family (fun x value => value ∈ s.domains.get x) k.second p.2 :=
    ⟨mem_synonyms_unselected.mpr ⟨c, hc, hsecond⟩, hsettled.snd_mem p hp⟩
  obtain ⟨hfirst', hsecond'⟩ := Prod.mk.inj hkey
  rw [hfirst'] at hx hcompatible
  rw [hsecond'] at hy hcompatible
  exact hcontains.pair_mem k' hk' p.1 p.2 hx hy hcompatible

theorem same (ht : q.IsEnd facts t)
    (hst : t.Contains (q.unselected.family fun x value => value ∈ s.domains.get x)
      (q.unselected.Compatible facts))
    (hts : s.Contains (q.unselected.family fun x value => value ∈ t.domains.get x)
      (q.unselected.Compatible facts)) : s.Same t where
  stores_iff x := (hs.stores_iff x).trans (ht.stores_iff x).symm
  mem_iff _ _ := ⟨hs.mem_of_contains ht hst, ht.mem_of_contains hs hts⟩
  keys_eq := hs.isSound.ordered.keys_eq ht.isSound.ordered fun _ =>
    hs.mem_keys_iff.trans ht.mem_keys_iff.symm
  mem_pairs_iff _ hk _ hk' hkey _ :=
    ⟨hs.mem_pairs_of_contains hst hk hk' hkey, ht.mem_pairs_of_contains hts hk' hk hkey.symm⟩

end IsEnd

/-- Two runs of the clauses of a query end the same way. -/
theorem same_of_canRun (hf : facts.IsWellFormed)
    (htyped : ∀ c ∈ q.clauses, c.IsTyped q.declarations) {plan plan' : List Clause}
    (hplan : ∀ c, c ∈ plan ↔ c ∈ q.clauses) (hplan' : ∀ c, c ∈ plan' ↔ c ∈ q.clauses)
    {left left' : Option Candidates}
    (h : Candidates.CanRun facts plan (.initial facts q.declarations) left)
    (h' : Candidates.CanRun facts plan' (.initial facts q.declarations) left') :
    Option.Rel Candidates.Same left left' := by
  -- an end is kept by every run
  have hkeeps : ∀ {plan s left}, (∀ c, c ∈ plan ↔ c ∈ q.clauses) → q.IsEnd facts s →
      Candidates.CanRun facts plan (.initial facts q.declarations) left → ∃ t, left = some t ∧
        t.Contains (q.unselected.family fun x value => value ∈ s.domains.get x)
          (q.unselected.Compatible facts) := fun hplan hs h =>
    hs.isConsistent.exists_of_canRun hf htyped (fun c => (hplan c).mp) h
  cases left with
  | some s =>
    have hs := isEnd_of_canRun hf htyped hplan h
    obtain ⟨t, rfl, hst⟩ := hkeeps hplan' hs h'
    have ht := isEnd_of_canRun hf htyped hplan' h'
    obtain ⟨s', hs', hts⟩ := hkeeps hplan ht h
    obtain rfl := Option.some.inj hs'
    exact .some (hs.same ht hst hts)
  | none =>
    cases left' with
    | none => exact .none
    | some t =>
      obtain ⟨s, hs, -⟩ := hkeeps hplan (isEnd_of_canRun hf htyped hplan' h') h
      cases hs

end Query

/-! ## Answers -/

namespace Candidates

variable {s t : Candidates}

/-- Which synonyms are involved is a matter of the keys. -/
theorem involved_eq (s : Candidates) (synonyms : List String) : s.involved synonyms =
    closure (fun x => s.keys.flatMap fun key => (if key.1 = x then [key.2] else []) ++
      (if key.2 = x then [key.1] else []))
      (synonyms ++ s.keys.flatMap fun key => [key.1, key.2]) synonyms := by
  have hlinked : s.linked = fun x => s.keys.flatMap fun key =>
      (if key.1 = x then [key.2] else []) ++ (if key.2 = x then [key.1] else []) := by
    funext x
    rw [linked, keys, List.flatMap_map]
    rfl
  rw [involved, hlinked, keys, List.flatMap_map]
  rfl

theorem Same.admits (h : s.Same t) {synonyms : List String} {v : String → String}
    (hs : ∀ k ∈ s.constraints, k.first ∈ s.involved synonyms → k.Admits v) :
    ∀ k ∈ t.constraints, k.first ∈ t.involved synonyms → k.Admits v := by
  intro k' hk' hinvolved
  have hmem : k'.key ∈ s.keys := h.keys_eq ▸ List.mem_map_of_mem hk'
  obtain ⟨k, hk, hkey⟩ := List.mem_map.mp hmem
  obtain ⟨hfirst, hsecond⟩ := Prod.mk.inj hkey
  rw [involved_eq, ← h.keys_eq, ← involved_eq, ← hfirst] at hinvolved
  rw [Constraint.Admits, ← hfirst, ← hsecond, ← h.mem_pairs_iff k hk k' hk' hkey]
  exact hs k hk hinvolved

/-- The same candidates and constraints give the same rows. -/
theorem Same.mem_selectedRows? (h : s.Same t) (hs : s.Ordered) (ht : t.Ordered)
    {elements : List Element} (hne : elements ≠ []) (row : Row) :
    (∃ rows, s.selectedRows? elements = some rows ∧ row ∈ rows) ↔
      ∃ rows, t.selectedRows? elements = some rows ∧ row ∈ rows := by
  by_cases hsingle : ∃ e, elements = [e]
  · obtain ⟨e, rfl⟩ := hsingle
    simp [selectedRows?, h.mem_iff]
  · have hrows : ∀ u : Candidates,
        u.selectedRows? elements = u.rows? (elements.map Element.synonym) := fun u =>
      selectedRows?.eq_2 u elements fun e he => hsingle ⟨e, he⟩
    have hne' : elements.map Element.synonym ≠ [] := by simpa using hne
    rw [hrows, hrows, mem_rows? (fun k => hs.first_ne_second) hne',
      mem_rows? (fun k => ht.first_ne_second) hne']
    refine exists_congr fun v => and_congr ⟨h.admits, h.symm.admits⟩ (and_congr_left' ?_)
    exact forall₂_congr fun x _ => h.mem_iff x (v x)

end Candidates

theorem sortedRows_congr {rows rows' : List Row} (h : ∀ row, row ∈ rows ↔ row ∈ rows') :
    sortedRows rows = sortedRows rows' := by
  rw [sortedRows, sortedRows, sortedBy_congr]
  intro key
  simp only [List.mem_map, h]

namespace Query

variable {facts : Facts} {q : Query}

/-- The rows that a query selects from what a run leaves. -/
def rowsFrom (facts : Facts) (q : Query) (left : Option Candidates) : List Row :=
  match left.bind (·.selectedRows? q.elements) with
  | none => []
  | some rows => sortedRows (rows.filterMap (shownRow? facts q.elements))

/-- The answer to a query by what a run leaves. -/
def answerFrom (facts : Facts) (q : Query) (left : Option Candidates) : List String :=
  if q.isEmpty then
    []
  else if q.isBoolean then
    [if left.isSome then "TRUE" else "FALSE"]
  else
    (q.rowsFrom facts left).map (" ".intercalate ·)

theorem answerFrom_evaluate? : q.answerFrom facts (evaluate? facts q) = q.answer facts :=
  rfl

theorem rowsFrom_eq (facts : Facts) (q : Query) (left : Option Candidates) :
    q.rowsFrom facts left = sortedRows (((left.bind (·.selectedRows? q.elements)).getD []).filterMap
      (shownRow? facts q.elements)) := by
  rw [rowsFrom]
  split
  · rename_i hnone
    rw [hnone]
    rfl
  · rename_i rows hsome
    rw [hsome]
    rfl

theorem answerFrom_congr {left left' : Option Candidates}
    (h : Option.Rel Candidates.Same left left')
    (hleft : ∀ s, left = some s → s.Ordered) (hleft' : ∀ s, left' = some s → s.Ordered) :
    q.answerFrom facts left = q.answerFrom facts left' := by
  cases h with
  | none => rfl
  | @some s t hsame =>
    by_cases hempty : q.elements = []
    · simp [answerFrom, isEmpty, hempty]
    have hrow : ∀ row, row ∈ (s.selectedRows? q.elements).getD [] ↔
        row ∈ (t.selectedRows? q.elements).getD [] := by
      intro row
      have hmem := hsame.mem_selectedRows? (hleft s rfl) (hleft' t rfl) hempty row
      cases hs : s.selectedRows? q.elements <;> cases ht : t.selectedRows? q.elements <;>
        simp_all
    have hrows : q.rowsFrom facts (some s) = q.rowsFrom facts (some t) := by
      rw [rowsFrom_eq, rowsFrom_eq]
      refine sortedRows_congr fun row => ?_
      simp only [Option.bind_some, List.mem_filterMap, hrow]
    rw [answerFrom, answerFrom, hrows, Option.isSome_some, Option.isSome_some]

end Query

/-- The answer does not depend on the plan. Any sequence of exactly the clauses of a query can be
run, with the constraints visited in any order; and every such run fails if the evaluation does, and
otherwise leaves the same candidates, the same constraints and the same answer. -/
theorem answer_of_canRun {source text : String} {facts : Facts} {q : Query} {plan : List Clause}
    (hlength : source.length < numeralBound) (hfacts : Facts.ofSource source = .ok facts)
    (hquery : Query.ofText text = .ok q) (hplan : ∀ c, c ∈ plan ↔ c ∈ q.clauses) :
    (∃ left, Candidates.CanRun facts plan (.initial facts q.declarations) left) ∧
      ∀ left, Candidates.CanRun facts plan (.initial facts q.declarations) left →
        Option.Rel Candidates.Same left (evaluate? facts q) ∧
          q.answerFrom facts left = q.answer facts := by
  have hf := isWellFormed_of_ofSource hfacts hlength
  have ht := isTyped_of_ofText hquery
  refine ⟨⟨_, Candidates.canRun_run facts plan _⟩, fun left hrun => ?_⟩
  obtain ⟨plan', hplan', hrun'⟩ := ht.exists_canRun facts
  have hsame := Query.same_of_canRun hf ht.clauses hplan hplan' hrun hrun'
  have hordered : ∀ s, left = some s → s.Ordered := by
    rintro s rfl
    exact (Query.isEnd_of_canRun hf ht.clauses hplan hrun).isSound.ordered
  have hordered' : ∀ s, evaluate? facts q = some s → s.Ordered := fun s hs =>
    (Query.enforces_of_evaluate? hf ht hs).1.ordered
  refine ⟨hsame, ?_⟩
  rw [Query.answerFrom_congr hsame hordered hordered', Query.answerFrom_evaluate?]

/-- Which assignments of a variable are directly followed by a loop that uses it. -/
def feedsLoop : String :=
  "assign a; while w; variable v; " ++
    "Select <a, v> such that Next(a, w) and Uses(w, v) and Modifies(a, v)"

/-- The clauses from last to first and then once more in order have the same answers. -/
theorem answer_of_canRun_feedsLoop : ∃ facts q,
    countingUp.length < numeralBound ∧ Facts.ofSource countingUp = .ok facts ∧
      Query.ofText feedsLoop = .ok q ∧
      (∀ c, c ∈ q.clauses.reverse ++ q.clauses ↔ c ∈ q.clauses) ∧
      ∃ left, Candidates.CanRun facts (q.clauses.reverse ++ q.clauses)
          (.initial facts q.declarations) left ∧
        Option.Rel Candidates.Same left (evaluate? facts q) ∧
        q.answerFrom facts left = ["1 x", "3 x"] := by
  have hlength : countingUp.length < numeralBound := by decide +kernel
  have hrun : (do
      let facts ← (Facts.ofSource countingUp).toOption
      let q ← (Query.ofText feedsLoop).toOption
      return decide (q.answer facts = ["1 x", "3 x"])) = some true := by
    decide +kernel
  obtain ⟨facts, hfacts, hrun⟩ := Option.bind_eq_some_iff.mp hrun
  obtain ⟨q, hquery, hrun⟩ := Option.bind_eq_some_iff.mp hrun
  have hanswer := of_decide_eq_true (Option.some.inj hrun)
  have hfacts := eq_ok_of_toOption hfacts
  have hquery := eq_ok_of_toOption hquery
  have hplan : ∀ c, c ∈ q.clauses.reverse ++ q.clauses ↔ c ∈ q.clauses := fun c => by simp
  obtain ⟨⟨left, hleft⟩, hall⟩ := answer_of_canRun hlength hfacts hquery hplan
  obtain ⟨hsame, hfrom⟩ := hall left hleft
  exact ⟨facts, q, hlength, hfacts, hquery, hplan, left, hleft, hsame, hfrom.trans hanswer⟩

end ProgramQuery
