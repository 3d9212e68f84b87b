import Mathlib.Data.List.Perm.Basic
import ProgramQuery.Query.Candidates

/-!
# What settling keeps and drops

Candidates and pairs only get fewer, and settling ends where each supports the other. Nothing is
dropped that has support: a family of values in which every value has a partner for each constraint
stays among the candidates. All this holds in whatever order the constraints are visited.

## Main definitions

- `Candidates.IsSettling`: a way to settle that may visit the constraints in any order.
- `Candidates.Refines`: candidates and pairs that are left of others.
- `Candidates.Settled`: pairs are made of candidates, and every candidate is in a pair.
- `Candidates.Contains`: a family of values is among the candidates.

## Main statements

- `Candidates.CanSettle.settled`: settling ends in a settled state.
- `Candidates.exists_narrow`, `Candidates.exists_constrain`: what has support is kept.
-/

namespace ProgramQuery

namespace Domains

theorem lookup_cons_eq {α : Type} (x y : String) (a : α) (l : List (String × α)) :
    ((x, a) :: l).lookup y = if y = x then some a else l.lookup y := by
  rw [List.lookup_cons]
  by_cases h : y = x
  · simp [h]
  · simp [h, beq_eq_false_iff_ne.mpr h]

theorem lookup_replace (x y : String) (values : List String) (l : List (String × List String)) :
    (replace x values l).lookup y = if y = x then some values else l.lookup y := by
  induction l with
  | nil => rw [replace, lookup_cons_eq]
  | cons entry entries ih =>
    obtain ⟨z, zs⟩ := entry
    by_cases hz : z = x
    · simp only [replace, hz, if_true, lookup_cons_eq]
      split <;> rfl
    · simp only [replace, hz, if_false, lookup_cons_eq, ih]
      by_cases hy : y = z
      · subst hy
        rw [if_pos rfl, if_neg hz, if_pos rfl]
      · simp [hy]

theorem get_set (d : Domains) (x y : String) (values : List String) :
    (d.set x values).get y = if y = x then values else d.get y := by
  rw [get, set, lookup_replace]
  split <;> rfl

/-- Restricting a synonym keeps its allowed candidates, of which there are some, and leaves all
other synonyms alone. -/
theorem get_of_restrict {d d' : Domains} {x : String} {allowed : List String}
    (h : d.restrict x allowed = some d') (y : String) :
    d'.get y = if y = x then (d.get x).filter (· ∈ allowed) else d.get y := by
  rw [restrict, keep_eq_filter] at h
  split at h
  · cases h
  · rename_i value values hkept
    obtain rfl := Option.some.inj h
    rw [get_set, hkept]

theorem ne_nil_of_restrict {d d' : Domains} {x : String} {allowed : List String}
    (h : d.restrict x allowed = some d') : d'.get x ≠ [] := by
  rw [restrict] at h
  split at h
  · cases h
  · obtain rfl := Option.some.inj h
    rw [get_set, if_pos rfl]
    exact List.cons_ne_nil _ _

theorem exists_restrict {d : Domains} {x value : String} {allowed : List String}
    (hvalue : value ∈ d.get x) (hallowed : value ∈ allowed) :
    ∃ d', d.restrict x allowed = some d' := by
  have hmem : value ∈ keep allowed (d.get x) := by
    simp [keep_eq_filter, hvalue, hallowed]
  rw [restrict]
  split
  · rename_i hnil
    rw [hnil] at hmem
    cases hmem
  · exact ⟨_, rfl⟩

theorem sublist_of_restrict {d d' : Domains} {x : String} {allowed : List String}
    (h : d.restrict x allowed = some d') (y : String) : (d'.get y).Sublist (d.get y) := by
  rw [get_of_restrict h]
  split
  · rename_i heq
    exact heq ▸ List.filter_sublist
  · exact List.Sublist.refl _

theorem ne_nil_of_restrict' {d d' : Domains} {x : String} {allowed : List String}
    (h : d.restrict x allowed = some d') {y : String} (hy : d.get y ≠ []) : d'.get y ≠ [] := by
  by_cases hxy : y = x
  · exact hxy ▸ ne_nil_of_restrict h
  · rwa [get_of_restrict h, if_neg hxy]

end Domains

namespace Constraint

/-- The two synonyms, in order. -/
def key (c : Constraint) : String × String :=
  (c.first, c.second)

theorem mem_pairs_restrict {c : Constraint} {d : Domains} {p : String × String} :
    p ∈ (c.restrict d).pairs ↔ p ∈ c.pairs ∧ p.1 ∈ d.get c.first ∧ p.2 ∈ d.get c.second := by
  simp only [restrict, keepBy_eq_filter, List.mem_filter, decide_eq_true_eq, and_assoc]

theorem pairs_restrict_sublist (c : Constraint) (d : Domains) :
    (c.restrict d).pairs.Sublist c.pairs :=
  (List.filter_sublist).trans List.filter_sublist

/-- The pairs are made of candidates, and every candidate is in a pair. -/
structure IsSettled (c : Constraint) (d : Domains) : Prop where
  fst_mem : ∀ p ∈ c.pairs, p.1 ∈ d.get c.first
  snd_mem : ∀ p ∈ c.pairs, p.2 ∈ d.get c.second
  exists_snd : ∀ v ∈ d.get c.first, ∃ w, (v, w) ∈ c.pairs
  exists_fst : ∀ w ∈ d.get c.second, ∃ v, (v, w) ∈ c.pairs

theorem IsSettled.congr {c : Constraint} {d d' : Domains} (h : c.IsSettled d)
    (hfirst : d'.get c.first = d.get c.first) (hsecond : d'.get c.second = d.get c.second) :
    c.IsSettled d' :=
  ⟨hfirst ▸ h.fst_mem, hsecond ▸ h.snd_mem, hfirst ▸ h.exists_snd, hsecond ▸ h.exists_fst⟩

/-- One constraint is what is left of another. -/
def LeftOf (c c' : Constraint) : Prop :=
  c'.key = c.key ∧ c'.pairs.Sublist c.pairs

end Constraint

namespace Candidates

/-- The pairs of synonyms that are constrained. -/
def keys (s : Candidates) : List (String × String) :=
  s.constraints.map Constraint.key

/-- All constraints are settled. -/
def Settled (s : Candidates) : Prop :=
  ∀ c ∈ s.constraints, c.IsSettled s.domains

/-! ## Sweeps -/

/-- One step of a sweep. -/
theorem sweep_cons {c : Constraint} {cs cs' : List Constraint} {d d' : Domains}
    (h : sweep (c :: cs) d = some (cs', d')) : ∃ d₁ d₂ cs₂,
      d.restrict c.first ((c.restrict d).pairs.map Prod.fst) = some d₁ ∧
      d₁.restrict c.second ((c.restrict d).pairs.map Prod.snd) = some d₂ ∧
      sweep cs d₂ = some (cs₂, d') ∧ cs' = c.restrict d :: cs₂ := by
  rw [sweep] at h
  obtain ⟨d₁, h₁, h⟩ := Option.bind_eq_some_iff.mp h
  obtain ⟨d₂, h₂, h⟩ := Option.bind_eq_some_iff.mp h
  obtain ⟨⟨cs₂, d₃⟩, h₃, h⟩ := Option.bind_eq_some_iff.mp h
  obtain ⟨rfl, rfl⟩ := Prod.mk.inj (Option.some.inj h)
  exact ⟨d₁, d₂, cs₂, h₁, h₂, h₃, rfl⟩

theorem sublist_of_sweep {cs cs' : List Constraint} {d d' : Domains}
    (h : sweep cs d = some (cs', d')) (x : String) : (d'.get x).Sublist (d.get x) := by
  induction cs generalizing d cs' with
  | nil =>
    obtain ⟨-, rfl⟩ := Prod.mk.inj (Option.some.inj h)
    exact List.Sublist.refl _
  | cons c cs ih =>
    obtain ⟨d₁, d₂, cs₂, h₁, h₂, h₃, -⟩ := sweep_cons h
    exact (ih h₃).trans ((Domains.sublist_of_restrict h₂ x).trans
      (Domains.sublist_of_restrict h₁ x))

theorem ne_nil_of_sweep {cs cs' : List Constraint} {d d' : Domains}
    (h : sweep cs d = some (cs', d')) {x : String} (hx : d.get x ≠ []) : d'.get x ≠ [] := by
  induction cs generalizing d cs' with
  | nil =>
    obtain ⟨-, rfl⟩ := Prod.mk.inj (Option.some.inj h)
    exact hx
  | cons c cs ih =>
    obtain ⟨d₁, d₂, cs₂, h₁, h₂, h₃, -⟩ := sweep_cons h
    exact ih h₃ (Domains.ne_nil_of_restrict' h₂ (Domains.ne_nil_of_restrict' h₁ hx))

/-- The synonyms of a constraint have candidates after a sweep. -/
theorem ne_nil_of_mem_sweep {cs cs' : List Constraint} {d d' : Domains}
    (h : sweep cs d = some (cs', d')) {c : Constraint} (hc : c ∈ cs) :
    d'.get c.first ≠ [] ∧ d'.get c.second ≠ [] := by
  induction cs generalizing d cs' with
  | nil => cases hc
  | cons b cs ih =>
    obtain ⟨d₁, d₂, cs₂, h₁, h₂, h₃, -⟩ := sweep_cons h
    rcases List.mem_cons.mp hc with rfl | hc
    · refine ⟨ne_nil_of_sweep h₃ ?_, ne_nil_of_sweep h₃ (Domains.ne_nil_of_restrict h₂)⟩
      exact Domains.ne_nil_of_restrict' h₂ (Domains.ne_nil_of_restrict h₁)
    · exact ih h₃ hc

theorem forall₂_of_sweep {cs cs' : List Constraint} {d d' : Domains}
    (h : sweep cs d = some (cs', d')) : List.Forall₂ Constraint.LeftOf cs cs' := by
  induction cs generalizing d cs' with
  | nil =>
    obtain ⟨rfl, -⟩ := Prod.mk.inj (Option.some.inj h)
    exact .nil
  | cons c cs ih =>
    obtain ⟨d₁, d₂, cs₂, h₁, h₂, h₃, rfl⟩ := sweep_cons h
    exact .cons ⟨rfl, c.pairs_restrict_sublist d⟩ (ih h₃)

/-- A sweep that drops nothing finds all constraints settled. -/
theorem isSettled_of_sweep {cs : List Constraint} {d d' : Domains}
    (h : sweep cs d = some (cs, d'))
    (hsame : ∀ c ∈ cs, d'.get c.first = d.get c.first ∧ d'.get c.second = d.get c.second) :
    ∀ c ∈ cs, c.IsSettled d := by
  induction cs generalizing d with
  | nil => exact nofun
  | cons c cs ih =>
    obtain ⟨d₁, d₂, cs₂, h₁, h₂, h₃, heq⟩ := sweep_cons h
    obtain ⟨hc, rfl⟩ := List.cons.inj heq
    -- what is between two equal domains is equal to both
    have hbetween : ∀ x, d'.get x = d.get x → d₁.get x = d.get x ∧ d₂.get x = d.get x := by
      intro x hx
      have h₁' := Domains.sublist_of_restrict h₁ x
      have h₂' := Domains.sublist_of_restrict h₂ x
      have h₃' := sublist_of_sweep h₃ x
      rw [hx] at h₃'
      exact ⟨h₁'.antisymm (h₃'.trans h₂'), (h₂'.trans h₁').antisymm h₃'⟩
    have hrest : ∀ b ∈ cs, b.IsSettled d := by
      intro b hb
      obtain ⟨hfirst, hsecond⟩ := hsame b (List.mem_cons_of_mem c hb)
      have hsettled := ih h₃ (fun e he => ?_) b hb
      · exact hsettled.congr (hbetween _ hfirst).2.symm (hbetween _ hsecond).2.symm
      · obtain ⟨hfirst, hsecond⟩ := hsame e (List.mem_cons_of_mem c he)
        exact ⟨hfirst.trans (hbetween _ hfirst).2.symm, hsecond.trans (hbetween _ hsecond).2.symm⟩
    have hfirst := hbetween _ (hsame c List.mem_cons_self).1
    have hsecond := hbetween _ (hsame c List.mem_cons_self).2
    intro b hb
    rcases List.mem_cons.mp hb with rfl | hb
    · refine ⟨fun p hp => ?_, fun p hp => ?_, fun v hv => ?_, fun w hw => ?_⟩
      · rw [hc] at hp
        exact (Constraint.mem_pairs_restrict.mp hp).2.1
      · rw [hc] at hp
        exact (Constraint.mem_pairs_restrict.mp hp).2.2
      · rw [← hfirst.1, Domains.get_of_restrict h₁, if_pos rfl, ← hc] at hv
        simpa using (List.mem_filter.mp hv).2
      · rw [← hsecond.2, Domains.get_of_restrict h₂, if_pos rfl, ← hc] at hw
        simpa using (List.mem_filter.mp hw).2
    · exact hrest b hb

theorem size_le_of_leftOf {c c' : Constraint} {d d' : Domains} (hc : c.LeftOf c')
    (hd : ∀ x, (d'.get x).Sublist (d.get x)) :
    c'.pairs.length ≤ c.pairs.length ∧ (d'.get c'.first).length ≤ (d.get c.first).length ∧
      (d'.get c'.second).length ≤ (d.get c.second).length := by
  obtain ⟨hkey, hpairs⟩ := hc
  obtain ⟨hfirst, hsecond⟩ := Prod.mk.inj hkey
  rw [hfirst, hsecond]
  exact ⟨hpairs.length_le, (hd _).length_le, (hd _).length_le⟩

theorem sum_size_le {cs cs' : List Constraint} {d d' : Domains}
    (hcs : List.Forall₂ Constraint.LeftOf cs cs') (hd : ∀ x, (d'.get x).Sublist (d.get x)) :
    cs'.foldr (fun c size => c.size d' + size) 0 ≤ cs.foldr (fun c size => c.size d + size) 0 := by
  induction hcs with
  | nil => exact Nat.le_refl _
  | cons hc hrest ih =>
    have hle := size_le_of_leftOf hc hd
    simp only [List.foldr_cons, Constraint.size] at ih ⊢
    omega

/-- A sweep after which there is as much as before has dropped nothing. -/
theorem eq_of_sum_size_le {cs cs' : List Constraint} {d d' : Domains}
    (hcs : List.Forall₂ Constraint.LeftOf cs cs') (hd : ∀ x, (d'.get x).Sublist (d.get x))
    (hsize : cs.foldr (fun c size => c.size d + size) 0 ≤
      cs'.foldr (fun c size => c.size d' + size) 0) :
    cs' = cs ∧ ∀ c ∈ cs, d'.get c.first = d.get c.first ∧ d'.get c.second = d.get c.second := by
  induction hcs with
  | nil => exact ⟨rfl, nofun⟩
  | @cons c c' cs cs' hc hrest ih =>
    -- no part of the sum is larger than before, so none is smaller
    obtain ⟨hpairs, hfirst, hsecond⟩ := size_le_of_leftOf hc hd
    have hsum := sum_size_le hrest hd
    simp only [List.foldr_cons, Constraint.size] at hsize hsum ih
    obtain ⟨rfl, hsame⟩ := ih (by omega)
    obtain ⟨hkey, hsublist⟩ := hc
    obtain ⟨hkey₁, hkey₂⟩ := Prod.mk.inj hkey
    have heq : c' = c := by
      have hlist := hsublist.eq_of_length (by omega)
      cases c
      cases c'
      simp_all
    subst heq
    refine ⟨rfl, fun b hb => ?_⟩
    rcases List.mem_cons.mp hb with rfl | hb
    · exact ⟨(hd _).eq_of_length (by omega), (hd _).eq_of_length (by omega)⟩
    · exact hsame b hb

theorem keys_eq_of_forall₂ {cs cs' : List Constraint}
    (h : List.Forall₂ Constraint.LeftOf cs cs') :
    cs'.map Constraint.key = cs.map Constraint.key := by
  induction h with
  | nil => rfl
  | cons hc _ ih => rw [List.map_cons, List.map_cons, ih, hc.1]

/-! ## Sweeps in any order -/

/-- A sweep through all constraints, in any order. What is left of the constraints is listed in the
order of before. -/
inductive Sweeps (s : Candidates) : Option Candidates → Prop where
  /-- A synonym loses its last candidate. -/
  | fails {order : List Constraint} (horder : order.Perm s.constraints)
      (h : sweep order s.domains = none) : Sweeps s none
  /-- All constraints have been visited. -/
  | passes {order swept left : List Constraint} {d : Domains} (horder : order.Perm s.constraints)
      (h : sweep order s.domains = some (swept, d)) (hleft : left.Perm swept)
      (hkeys : left.map Constraint.key = s.keys) : Sweeps s (some ⟨d, left⟩)

/-- The ends that settling can come to if each sweep may visit the constraints in any order. -/
def CanSettle : Candidates → Option Candidates → Prop :=
  Stabilises size Sweeps

/-- The function settles the candidates, each sweep in an order of its own. -/
def IsSettling (settle : Candidates → Option Candidates) : Prop :=
  ∀ s : Candidates, s.CanSettle (settle s)

variable {settle : Candidates → Option Candidates}

theorem IsSettling.canSettle (h : IsSettling settle) {s t : Candidates} (hs : settle s = some t) :
    s.CanSettle (some t) :=
  hs ▸ h s

theorem sweeps_sweepAll (s : Candidates) : s.Sweeps s.sweepAll := by
  rw [sweepAll]
  cases hsweep : sweep s.constraints s.domains with
  | none => exact .fails (.refl _) hsweep
  | some result =>
    obtain ⟨swept, d⟩ := result
    exact .passes (.refl _) hsweep (.refl _) (keys_eq_of_forall₂ (forall₂_of_sweep hsweep))

/-- Visiting the constraints in the order in which they are listed is one way to settle. -/
theorem isSettling_settle? : IsSettling settle? :=
  stabilises_stabilise sweeps_sweepAll

theorem sum_size_eq_of_perm {cs cs' : List Constraint} (h : cs.Perm cs') (d : Domains) :
    cs.foldr (fun c size => c.size d + size) 0 = cs'.foldr (fun c size => c.size d + size) 0 :=
  h.foldr_eq' (fun a _ b _ _ => Nat.add_left_comm (b.size d) (a.size d) _) 0

/-- A sweep that does not make the candidates fewer ends in a settled state. -/
theorem Sweeps.settled {s t : Candidates} (h : s.Sweeps (some t)) (hsize : ¬t.size < s.size) :
    t.Settled := by
  cases h with
  | @passes order swept left d horder hsweep hleft _ =>
    have hbefore : order.foldr (fun c size => c.size s.domains + size) 0 = s.size :=
      sum_size_eq_of_perm horder s.domains
    have hafter : swept.foldr (fun c size => c.size d + size) 0 = size ⟨d, left⟩ :=
      sum_size_eq_of_perm hleft.symm d
    obtain ⟨rfl, hsame⟩ := eq_of_sum_size_le (forall₂_of_sweep hsweep) (sublist_of_sweep hsweep)
      (by omega)
    intro c hc
    have hmem : c ∈ swept := hleft.mem_iff.mp hc
    exact (isSettled_of_sweep hsweep hsame c hmem).congr (hsame c hmem).1 (hsame c hmem).2

theorem CanSettle.settled {s t : Candidates} (h : s.CanSettle (some t)) : t.Settled := by
  obtain ⟨u, hstep, hsize⟩ := Stabilises.exists_step h
  exact hstep.settled hsize

/-! ## What is left -/

/-- Candidates and pairs are left of others. No synonym has lost its last candidate, and no
constraint is forgotten. -/
structure Refines (t s : Candidates) : Prop where
  mem_of_mem : ∀ x, ∀ v ∈ t.domains.get x, v ∈ s.domains.get x
  ne_nil : ∀ x, s.domains.get x ≠ [] → t.domains.get x ≠ []
  exists_constraint : ∀ c ∈ s.constraints, ∃ c' ∈ t.constraints, c'.key = c.key ∧
    ∀ p ∈ c'.pairs, p ∈ c.pairs

theorem Refines.refl (s : Candidates) : s.Refines s :=
  ⟨fun _ _ h => h, fun _ h => h, fun c hc => ⟨c, hc, rfl, fun _ h => h⟩⟩

theorem Refines.trans {s t u : Candidates} (h : u.Refines t) (h' : t.Refines s) : u.Refines s := by
  refine ⟨fun x v hv => h'.mem_of_mem x v (h.mem_of_mem x v hv),
    fun x hx => h.ne_nil x (h'.ne_nil x hx), fun c hc => ?_⟩
  obtain ⟨c', hc', hkey, hpairs⟩ := h'.exists_constraint c hc
  obtain ⟨c'', hc'', hkey', hpairs'⟩ := h.exists_constraint c' hc'
  exact ⟨c'', hc'', hkey'.trans hkey, fun p hp => hpairs p (hpairs' p hp)⟩

theorem exists_of_forall₂ {cs cs' : List Constraint}
    (h : List.Forall₂ Constraint.LeftOf cs cs') {c : Constraint} (hc : c ∈ cs) :
    ∃ c' ∈ cs', c'.key = c.key ∧ ∀ p ∈ c'.pairs, p ∈ c.pairs := by
  induction h with
  | nil => cases hc
  | @cons b b' bs bs' hb _ ih =>
    rcases List.mem_cons.mp hc with rfl | hc
    · exact ⟨b', List.mem_cons_self, hb.1, fun p hp => hb.2.subset hp⟩
    · obtain ⟨c', hc', h'⟩ := ih hc
      exact ⟨c', List.mem_cons_of_mem b' hc', h'⟩

/-- What settling does: it leaves a part of the candidates, with some for every synonym that is
constrained, and the same pairs of synonyms constrained. -/
structure Settles (s t : Candidates) : Prop where
  refines : t.Refines s
  keys_eq : t.keys = s.keys
  ne_nil : ∀ c ∈ s.constraints, t.domains.get c.first ≠ [] ∧ t.domains.get c.second ≠ []

theorem Sweeps.settles {s t : Candidates} (h : s.Sweeps (some t)) : s.Settles t := by
  cases h with
  | passes horder hsweep hleft hkeys =>
    refine ⟨⟨fun x _ hv => (sublist_of_sweep hsweep x).subset hv, fun _ => ne_nil_of_sweep hsweep,
      fun c hc => ?_⟩, hkeys, fun c hc => ne_nil_of_mem_sweep hsweep (horder.mem_iff.mpr hc)⟩
    obtain ⟨c', hc', h'⟩ := exists_of_forall₂ (forall₂_of_sweep hsweep) (horder.mem_iff.mpr hc)
    exact ⟨c', hleft.mem_iff.mpr hc', h'⟩

theorem Settles.trans {s t u : Candidates} (h : s.Settles t) (h' : t.Settles u) : s.Settles u := by
  refine ⟨h'.refines.trans h.refines, h'.keys_eq.trans h.keys_eq, fun c hc => ?_⟩
  obtain ⟨hfirst, hsecond⟩ := h.ne_nil c hc
  exact ⟨h'.refines.ne_nil _ hfirst, h'.refines.ne_nil _ hsecond⟩

theorem CanSettle.settles {s t : Candidates} (h : s.CanSettle (some t)) : s.Settles t := by
  generalize hresult : some t = result at h
  induction h with
  | fails _ => cases hresult
  | stops hstep _ =>
    obtain rfl := Option.some.inj hresult
    exact hstep.settles
  | again hstep _ _ ih => exact hstep.settles.trans (ih hresult)

/-- Narrowing a synonym in a settled state: what is left is settled and allowed. -/
theorem refines_of_narrow (hsettle : IsSettling settle) {s t : Candidates} {x : String}
    {allowed : List String} (h : s.narrow x allowed settle = some t) (hs : s.Settled) :
    t.Refines s ∧ t.Settled ∧ t.keys = s.keys ∧ t.domains.get x ≠ [] ∧
      ∀ v ∈ t.domains.get x, v ∈ allowed := by
  obtain ⟨d, hrestrict, h⟩ := Option.bind_eq_some_iff.mp h
  have hallowed : ∀ v ∈ d.get x, v ∈ allowed := by
    intro v hv
    rw [Domains.get_of_restrict hrestrict, if_pos rfl] at hv
    simpa using (List.mem_filter.mp hv).2
  have hrefines : Refines { s with domains := d } s :=
    ⟨fun y v hv => (Domains.sublist_of_restrict hrestrict y).subset hv,
      fun y hy => Domains.ne_nil_of_restrict' hrestrict hy,
      fun c hc => ⟨c, hc, rfl, fun _ hp => hp⟩⟩
  have hne := Domains.ne_nil_of_restrict hrestrict
  split at h
  · -- nothing has been dropped
    rename_i hsame
    obtain rfl := Option.some.inj h
    have hget : ∀ y, d.get y = s.domains.get y := by
      intro y
      by_cases hy : y = x
      · exact hy ▸ hsame
      · rw [Domains.get_of_restrict hrestrict, if_neg hy]
    exact ⟨hrefines, fun c hc => (hs c hc).congr (hget _) (hget _), rfl, hne, hallowed⟩
  · have hcan := hsettle.canSettle h
    have hsettles := hcan.settles
    exact ⟨hsettles.refines.trans hrefines, hcan.settled, hsettles.keys_eq,
      hsettles.refines.ne_nil x hne, fun v hv => hallowed v (hsettles.refines.mem_of_mem x v hv)⟩

end Candidates

/-! ## New constraints -/

namespace Constraint

/-- The order of constraints by their synonyms. -/
def KeyLt (a b : String × String) : Prop :=
  a.1 < b.1 ∨ a.1 = b.1 ∧ a.2 < b.2

theorem lt_of_not_lt_of_ne {a b : String} (h : ¬a < b) (hne : a ≠ b) : b < a := by
  refine Decidable.byContradiction fun hlt => hne ?_
  exact String.le_antisymm (String.not_lt.mp hlt) (String.not_lt.mp h)

theorem KeyLt.irrefl (a : String × String) : ¬KeyLt a a := by
  rintro (h | ⟨-, h⟩)
  · exact String.lt_irrefl _ h
  · exact String.lt_irrefl _ h

theorem KeyLt.trans {a b c : String × String} (h : KeyLt a b) (h' : KeyLt b c) : KeyLt a c := by
  obtain ⟨a₁, a₂⟩ := a
  obtain ⟨b₁, b₂⟩ := b
  obtain ⟨c₁, c₂⟩ := c
  rcases h with h | ⟨rfl, h⟩
  · rcases h' with h' | ⟨rfl, -⟩
    · exact .inl (String.lt_trans h h')
    · exact .inl h
  · rcases h' with h' | ⟨rfl, h'⟩
    · exact .inl h'
    · exact .inr ⟨rfl, String.lt_trans h h'⟩

theorem KeyLt.of_not {a b : String × String} (h : ¬KeyLt a b) (hne : a ≠ b) : KeyLt b a := by
  obtain ⟨a₁, a₂⟩ := a
  obtain ⟨b₁, b₂⟩ := b
  by_cases hfirst : a₁ = b₁
  · subst hfirst
    have hsecond : a₂ ≠ b₂ := fun heq => hne (heq ▸ rfl)
    exact .inr ⟨rfl, lt_of_not_lt_of_ne (fun hlt => h (.inr ⟨rfl, hlt⟩)) hsecond⟩
  · exact .inl (lt_of_not_lt_of_ne (fun hlt => h (.inl hlt)) hfirst)

theorem mem_keepBy_pairs {l m : List (String × String)} {p : String × String} :
    p ∈ keepBy comparePairs id l m ↔ p ∈ m ∧ p ∈ l := by
  rw [keepBy_eq_filter]
  simp

/-- The three things that can become of the first constraint of a list. -/
theorem insert_cons (c d : Constraint) (ds : List Constraint) :
    (d.key = c.key ∧
      insert c (d :: ds) = { d with pairs := keepBy comparePairs id c.pairs d.pairs } :: ds) ∨
    (KeyLt c.key d.key ∧ insert c (d :: ds) = c :: d :: ds) ∨
    (KeyLt d.key c.key ∧ insert c (d :: ds) = d :: insert c ds) := by
  rw [insert]
  split
  · rename_i hkey
    exact .inl ⟨Prod.ext hkey.1 hkey.2, rfl⟩
  · rename_i hkey
    split
    · rename_i hlt
      exact .inr (.inl ⟨hlt, rfl⟩)
    · rename_i hlt
      refine .inr (.inr ⟨KeyLt.of_not hlt fun heq => hkey ?_, rfl⟩)
      obtain ⟨hfirst, hsecond⟩ := Prod.mk.inj heq
      exact ⟨hfirst.symm, hsecond.symm⟩

theorem exists_insert (c : Constraint) (cs : List Constraint) :
    ∃ c' ∈ insert c cs, c'.key = c.key ∧ ∀ p ∈ c'.pairs, p ∈ c.pairs := by
  induction cs with
  | nil => exact ⟨c, List.mem_singleton_self c, rfl, fun _ hp => hp⟩
  | cons d ds ih =>
    rcases insert_cons c d ds with ⟨hkey, heq⟩ | ⟨-, heq⟩ | ⟨-, heq⟩ <;> rw [heq]
    · exact ⟨_, List.mem_cons_self, hkey, fun p hp => (mem_keepBy_pairs.mp hp).2⟩
    · exact ⟨c, List.mem_cons_self, rfl, fun _ hp => hp⟩
    · obtain ⟨c', hc', h⟩ := ih
      exact ⟨c', List.mem_cons_of_mem d hc', h⟩

theorem exists_insert_of_mem (c : Constraint) {d : Constraint} {cs : List Constraint}
    (hd : d ∈ cs) : ∃ d' ∈ insert c cs, d'.key = d.key ∧ ∀ p ∈ d'.pairs, p ∈ d.pairs := by
  induction cs with
  | nil => cases hd
  | cons b bs ih =>
    rcases insert_cons c b bs with ⟨hkey, heq⟩ | ⟨-, heq⟩ | ⟨-, heq⟩ <;> rw [heq]
    · rcases List.mem_cons.mp hd with rfl | hd
      · exact ⟨_, List.mem_cons_self, rfl, fun p hp => (mem_keepBy_pairs.mp hp).1⟩
      · exact ⟨d, List.mem_cons_of_mem _ hd, rfl, fun _ hp => hp⟩
    · exact ⟨d, List.mem_cons_of_mem c hd, rfl, fun _ hp => hp⟩
    · rcases List.mem_cons.mp hd with rfl | hd
      · exact ⟨d, List.mem_cons_self, rfl, fun _ hp => hp⟩
      · obtain ⟨d', hd', h⟩ := ih hd
        exact ⟨d', List.mem_cons_of_mem b hd', h⟩

/-- A pair that all constraints on two synonyms allow is allowed when they are put together. -/
theorem mem_pairs_of_mem_insert {c c' : Constraint} {cs : List Constraint}
    (hc' : c' ∈ insert c cs) {p : String × String}
    (hp : ∀ d ∈ c :: cs, d.key = c'.key → p ∈ d.pairs) : p ∈ c'.pairs := by
  induction cs with
  | nil =>
    obtain rfl := List.mem_singleton.mp hc'
    exact hp c' List.mem_cons_self rfl
  | cons b bs ih =>
    have hb := hp b (List.mem_cons_of_mem c List.mem_cons_self)
    have hbs : ∀ d ∈ c :: bs, d.key = c'.key → p ∈ d.pairs := by
      intro d hd
      rcases List.mem_cons.mp hd with rfl | hd
      · exact hp d List.mem_cons_self
      · exact hp d (List.mem_cons_of_mem _ (List.mem_cons_of_mem _ hd))
    rcases insert_cons c b bs with ⟨hkey, heq⟩ | ⟨-, heq⟩ | ⟨-, heq⟩ <;> rw [heq] at hc' <;>
      rcases List.mem_cons.mp hc' with rfl | hc'
    · exact mem_keepBy_pairs.mpr ⟨hb rfl, hp c List.mem_cons_self hkey.symm⟩
    · exact hbs c' (List.mem_cons_of_mem c hc') rfl
    · exact hp c' List.mem_cons_self rfl
    · exact hp c' (List.mem_cons_of_mem c hc') rfl
    · exact hb rfl
    · exact ih hc' hbs

theorem mem_map_key_insert {c : Constraint} {cs : List Constraint} {key : String × String} :
    key ∈ (insert c cs).map Constraint.key ↔ key = c.key ∨ key ∈ cs.map Constraint.key := by
  induction cs with
  | nil => simp [insert]
  | cons d ds ih =>
    rcases insert_cons c d ds with ⟨hkey, heq⟩ | ⟨-, heq⟩ | ⟨-, heq⟩ <;> rw [heq]
    · have hsame : { d with pairs := keepBy comparePairs id c.pairs d.pairs }.key = c.key := hkey
      simp only [List.map_cons, List.mem_cons, hsame, hkey]
      exact ⟨.inr, fun h => h.elim .inl id⟩
    · simp
    · simp only [List.map_cons, List.mem_cons, ih, or_left_comm]

theorem pairwise_insert {c : Constraint} {cs : List Constraint}
    (h : (cs.map Constraint.key).Pairwise KeyLt) :
    ((insert c cs).map Constraint.key).Pairwise KeyLt := by
  induction cs with
  | nil => simp [insert]
  | cons d ds ih =>
    rw [List.map_cons, List.pairwise_cons] at h
    rcases insert_cons c d ds with ⟨hkey, heq⟩ | ⟨hlt, heq⟩ | ⟨hlt, heq⟩ <;> rw [heq]
    · exact List.pairwise_cons.mpr h
    · rw [List.map_cons, List.map_cons, List.pairwise_cons, List.pairwise_cons]
      refine ⟨fun key hkey => ?_, h⟩
      rcases List.mem_cons.mp hkey with rfl | hkey
      · exact hlt
      · exact hlt.trans (h.1 key hkey)
    · rw [List.map_cons, List.pairwise_cons]
      refine ⟨fun key hkey => ?_, ih h.2⟩
      rcases mem_map_key_insert.mp hkey with rfl | hkey
      · exact hlt
      · exact h.1 key hkey

/-- The constraint allows the values of an assignment. -/
def Admits (c : Constraint) (v : String → String) : Prop :=
  (v c.first, v c.second) ∈ c.pairs

theorem admits_of {a b : String} {pairs : List (String × String)} {v : String → String} :
    (of a b pairs).Admits v ↔ (v a, v b) ∈ pairs := by
  rw [of]
  split
  · simp only [Admits, List.mem_map, Prod.exists, Prod.swap_prod_mk, Prod.mk.injEq]
    constructor
    · rintro ⟨x, y, hmem, rfl, rfl⟩
      exact hmem
    · exact fun hmem => ⟨_, _, hmem, rfl, rfl⟩
  · exact Iff.rfl

theorem key_of (a b : String) (pairs : List (String × String)) :
    (of a b pairs).key = if b < a then (b, a) else (a, b) := by
  rw [of]
  split <;> rfl

end Constraint

namespace Candidates

variable {settle : Candidates → Option Candidates}

/-- The constraints are in order, each with the smaller synonym first. So there is only one
constraint on two synonyms. -/
structure Ordered (s : Candidates) : Prop where
  pairwise : s.keys.Pairwise Constraint.KeyLt
  lt : ∀ key ∈ s.keys, key.1 < key.2

theorem eq_of_pairwise {cs : List Constraint}
    (h : (cs.map Constraint.key).Pairwise Constraint.KeyLt) {c d : Constraint} (hc : c ∈ cs)
    (hd : d ∈ cs) (hkey : c.key = d.key) : c = d := by
  induction cs with
  | nil => cases hc
  | cons b bs ih =>
    rw [List.map_cons, List.pairwise_cons] at h
    rcases List.mem_cons.mp hc with heq | hc' <;> rcases List.mem_cons.mp hd with heq' | hd'
    · rw [heq, heq']
    · exact absurd (heq ▸ hkey ▸ h.1 _ (List.mem_map_of_mem hd')) (Constraint.KeyLt.irrefl _)
    · exact absurd (heq' ▸ hkey ▸ h.1 _ (List.mem_map_of_mem hc')) (Constraint.KeyLt.irrefl _)
    · exact ih h.2 hc' hd'

theorem Ordered.eq_of_key {s : Candidates} (h : s.Ordered) {c d : Constraint}
    (hc : c ∈ s.constraints) (hd : d ∈ s.constraints) (hkey : c.key = d.key) : c = d :=
  eq_of_pairwise h.pairwise hc hd hkey

theorem Ordered.first_lt_second {s : Candidates} (h : s.Ordered) {c : Constraint}
    (hc : c ∈ s.constraints) : c.first < c.second :=
  h.lt c.key (List.mem_map_of_mem hc)

theorem Ordered.first_ne_second {s : Candidates} (h : s.Ordered) {c : Constraint}
    (hc : c ∈ s.constraints) : c.first ≠ c.second := by
  intro heq
  have hlt := h.first_lt_second hc
  rw [heq] at hlt
  exact String.lt_irrefl _ hlt

/-- A constraint on the two synonyms of another one is a constraint on the same in order. -/
theorem Ordered.key_eq {s : Candidates} (h : s.Ordered) {c d : Constraint}
    (hc : c ∈ s.constraints) (hd : d ∈ s.constraints)
    (hfirst : d.first = c.first ∨ d.first = c.second)
    (hsecond : d.second = c.first ∨ d.second = c.second) : d.key = c.key := by
  have hlt := h.first_lt_second hd
  rcases hfirst with hfirst | hfirst <;> rcases hsecond with hsecond | hsecond
  · exact absurd (hfirst.trans hsecond.symm) (h.first_ne_second hd)
  · exact Prod.ext hfirst hsecond
  · rw [hfirst, hsecond] at hlt
    exact absurd (h.first_lt_second hc) (String.lt_asymm hlt)
  · exact absurd (hfirst.trans hsecond.symm) (h.first_ne_second hd)

/-- Constraining two synonyms: what is left is settled, and one constraint admits no more than the
given pairs. -/
theorem refines_of_constrain (hsettle : IsSettling settle) {s t : Candidates} {a b : String}
    {pairs : List (String × String)} (h : s.constrain a b pairs settle = some t) :
    t.Refines s ∧ t.Settled ∧
      (∀ key, key ∈ t.keys ↔ key = (Constraint.of a b pairs).key ∨ key ∈ s.keys) ∧
      (t.domains.get a ≠ [] ∧ t.domains.get b ≠ []) ∧
      ∃ c ∈ t.constraints, c.key = (Constraint.of a b pairs).key ∧
        ∀ p ∈ c.pairs, p ∈ (Constraint.of a b pairs).pairs := by
  have hcan := hsettle.canSettle h
  have hsettles := hcan.settles
  obtain ⟨c, hc, hkey, hpairs⟩ := (Constraint.of a b pairs).exists_insert s.constraints
  obtain ⟨c', hc', hkey', hpairs'⟩ := hsettles.refines.exists_constraint c hc
  have hrefines : Refines { s with constraints := (Constraint.of a b pairs).insert s.constraints }
      s := ⟨fun _ _ hv => hv, fun _ hx => hx, fun d hd => Constraint.exists_insert_of_mem _ hd⟩
  refine ⟨hsettles.refines.trans hrefines, hcan.settled, fun key => ?_, ?_,
    c', hc', hkey'.trans hkey, fun p hp => hpairs p (hpairs' p hp)⟩
  · rw [hsettles.keys_eq]
    exact Constraint.mem_map_key_insert
  · obtain ⟨hfirst, hsecond⟩ := hsettles.ne_nil c hc
    rw [Constraint.key_of] at hkey
    split at hkey <;> obtain ⟨rfl, rfl⟩ := Prod.mk.inj hkey
    · exact ⟨hsecond, hfirst⟩
    · exact ⟨hfirst, hsecond⟩

theorem Ordered.constrain (hsettle : IsSettling settle) {s t : Candidates} {a b : String}
    {pairs : List (String × String)} (hs : s.Ordered) (hne : a ≠ b)
    (h : s.constrain a b pairs settle = some t) : t.Ordered := by
  have hcan := hsettle.canSettle h
  constructor
  · rw [hcan.settles.keys_eq]
    exact Constraint.pairwise_insert hs.pairwise
  · intro key hkey
    rcases ((refines_of_constrain hsettle h).2.2.1 key).mp hkey with rfl | hkey
    · rw [Constraint.key_of]
      split
      · assumption
      · rename_i hlt
        exact Constraint.lt_of_not_lt_of_ne hlt hne.symm
    · exact hs.lt key hkey

/-! ## What is never dropped -/

section Support

variable (F : String → String → Prop) (R : String → String → String → String → Prop)

/-- The values of a family are among the candidates, and their compatible pairs are possible. -/
structure Contains (s : Candidates) : Prop where
  mem : ∀ x v, F x v → v ∈ s.domains.get x
  pair_mem : ∀ c ∈ s.constraints, ∀ v w, F c.first v → F c.second w →
    R c.first v c.second w → (v, w) ∈ c.pairs

/-- Every value that a family has for one of two synonyms is compatible with one for the other. -/
structure Supported (key : String × String) : Prop where
  nonempty : ∃ v, F key.1 v
  exists_snd : ∀ v, F key.1 v → ∃ w, F key.2 w ∧ R key.1 v key.2 w
  exists_fst : ∀ w, F key.2 w → ∃ v, F key.1 v ∧ R key.1 v key.2 w

variable {F R}

theorem mem_of_restrict {d d' : Domains} {x : String} {allowed : List String}
    (h : d.restrict x allowed = some d') (hd : ∀ y v, F y v → v ∈ d.get y)
    (hallowed : ∀ v, F x v → v ∈ allowed) : ∀ y v, F y v → v ∈ d'.get y := by
  intro y v hv
  rw [Domains.get_of_restrict h]
  split
  · rename_i heq
    subst heq
    simp [hd y v hv, hallowed v hv]
  · exact hd y v hv

/-- A sweep drops nothing that has support. -/
theorem exists_sweep {cs : List Constraint} {d : Domains} (hd : ∀ x v, F x v → v ∈ d.get x)
    (hcs : ∀ c ∈ cs, ∀ v w, F c.first v → F c.second w → R c.first v c.second w → (v, w) ∈ c.pairs)
    (hsupported : ∀ c ∈ cs, Supported F R c.key) :
    ∃ cs' d', sweep cs d = some (cs', d') ∧ Contains F R ⟨d', cs'⟩ := by
  induction cs generalizing d with
  | nil => exact ⟨[], d, rfl, hd, nofun⟩
  | cons c cs ih =>
    obtain ⟨⟨v, hv⟩, hsnd, hfst⟩ := hsupported c List.mem_cons_self
    dsimp only [Constraint.key] at hv hsnd hfst
    -- the compatible pairs of the family are left, so its values are
    have hpairs : ∀ v w, F c.first v → F c.second w → R c.first v c.second w →
        (v, w) ∈ (c.restrict d).pairs := fun v w hv hw hvw =>
      Constraint.mem_pairs_restrict.mpr
        ⟨hcs c List.mem_cons_self v w hv hw hvw, hd _ _ hv, hd _ _ hw⟩
    have hfirst : ∀ v, F c.first v → v ∈ (c.restrict d).pairs.map Prod.fst := by
      intro v hv
      obtain ⟨w, hw, hvw⟩ := hsnd v hv
      exact List.mem_map.mpr ⟨(v, w), hpairs v w hv hw hvw, rfl⟩
    have hsecond : ∀ w, F c.second w → w ∈ (c.restrict d).pairs.map Prod.snd := by
      intro w hw
      obtain ⟨v, hv, hvw⟩ := hfst w hw
      exact List.mem_map.mpr ⟨(v, w), hpairs v w hv hw hvw, rfl⟩
    obtain ⟨w, hw, -⟩ := hsnd v hv
    obtain ⟨d₁, h₁⟩ := Domains.exists_restrict (hd _ _ hv) (hfirst v hv)
    have hd₁ := mem_of_restrict h₁ hd hfirst
    obtain ⟨d₂, h₂⟩ := Domains.exists_restrict (hd₁ _ _ hw) (hsecond w hw)
    obtain ⟨cs', d', hsweep, hcontains⟩ := ih (mem_of_restrict h₂ hd₁ hsecond)
      (fun b hb => hcs b (List.mem_cons_of_mem c hb))
      (fun b hb => hsupported b (List.mem_cons_of_mem c hb))
    refine ⟨c.restrict d :: cs', d', ?_, hcontains.mem, fun b hb => ?_⟩
    · rw [sweep, show d.restrict (c.restrict d).first _ = some d₁ from h₁, Option.bind_eq_bind,
        Option.bind_some, show d₁.restrict (c.restrict d).second _ = some d₂ from h₂,
        Option.bind_some, hsweep]
      rfl
    · rcases List.mem_cons.mp hb with rfl | hb
      · exact hpairs
      · exact hcontains.pair_mem b hb

theorem Sweeps.exists_contains {s : Candidates} {result : Option Candidates}
    (h : s.Sweeps result) (hs : Contains F R s) (hsupported : ∀ key ∈ s.keys, Supported F R key) :
    ∃ t, result = some t ∧ Contains F R t ∧ ∀ key ∈ t.keys, Supported F R key := by
  have hsweep : ∀ order, order.Perm s.constraints →
      ∃ cs d, sweep order s.domains = some (cs, d) ∧ Contains F R ⟨d, cs⟩ := fun order horder =>
    exists_sweep hs.mem (fun c hc => hs.pair_mem c (horder.mem_iff.mp hc))
      (fun c hc => hsupported c.key (List.mem_map_of_mem (horder.mem_iff.mp hc)))
  cases h with
  | @fails order horder hfails =>
    obtain ⟨cs, d, hpasses, -⟩ := hsweep order horder
    rw [hfails] at hpasses
    cases hpasses
  | @passes order swept left d horder hpasses hleft hkeys =>
    obtain ⟨cs, d', hpasses', hcontains⟩ := hsweep order horder
    obtain ⟨rfl, rfl⟩ := Prod.mk.inj (Option.some.inj (hpasses.symm.trans hpasses'))
    exact ⟨⟨d, left⟩, rfl,
      ⟨hcontains.mem, fun c hc => hcontains.pair_mem c (hleft.mem_iff.mp hc)⟩,
      fun key hkey => hsupported key (hkeys ▸ hkey)⟩

/-- Settling drops nothing that has support. -/
theorem CanSettle.exists_contains {s : Candidates} {result : Option Candidates}
    (h : s.CanSettle result) (hs : Contains F R s)
    (hsupported : ∀ key ∈ s.keys, Supported F R key) :
    ∃ t, result = some t ∧ Contains F R t := by
  obtain ⟨t, ht, hcontains, -⟩ := Stabilises.exists_of_step
    (P := fun u => Contains F R u ∧ ∀ key ∈ u.keys, Supported F R key) h
    (fun _ _ hstep hu => hstep.exists_contains hu.1 hu.2) ⟨hs, hsupported⟩
  exact ⟨t, ht, hcontains⟩

theorem exists_narrow (hsettle : IsSettling settle) {s : Candidates} {x v : String}
    {allowed : List String} (hs : Contains F R s)
    (hsupported : ∀ key ∈ s.keys, Supported F R key) (hv : F x v)
    (hallowed : ∀ v, F x v → v ∈ allowed) :
    ∃ t, s.narrow x allowed settle = some t ∧ Contains F R t := by
  obtain ⟨d, hd⟩ := Domains.exists_restrict (hs.mem x v hv) (hallowed v hv)
  have hcontains : Contains F R { s with domains := d } :=
    ⟨mem_of_restrict hd hs.mem hallowed, hs.pair_mem⟩
  rw [narrow, hd]
  dsimp only [Option.bind_eq_bind, Option.bind_some]
  split
  · exact ⟨_, rfl, hcontains⟩
  · exact (hsettle _).exists_contains hcontains hsupported

theorem exists_constrain (hsettle : IsSettling settle) {s : Candidates} {a b : String}
    {pairs : List (String × String)} (hs : Contains F R s)
    (hsupported : ∀ key ∈ s.keys, Supported F R key)
    (hsymm : ∀ x v y w, R x v y w → R y w x v) (hab : Supported F R (a, b))
    (hpairs : ∀ v w, F a v → F b w → R a v b w → (v, w) ∈ pairs) :
    ∃ t, s.constrain a b pairs settle = some t ∧ Contains F R t := by
  -- a constraint is about the smaller synonym first
  have hkey : Supported F R (Constraint.of a b pairs).key ∧
      ∀ v w, F (Constraint.of a b pairs).first v → F (Constraint.of a b pairs).second w →
        R (Constraint.of a b pairs).first v (Constraint.of a b pairs).second w →
        (v, w) ∈ (Constraint.of a b pairs).pairs := by
    rw [Constraint.of]
    split
    · refine ⟨⟨?_, fun w hw => ?_, fun v hv => ?_⟩, fun w v hw hv hvw => ?_⟩
      · obtain ⟨v, hv⟩ := hab.nonempty
        obtain ⟨w, hw, -⟩ := hab.exists_snd v hv
        exact ⟨w, hw⟩
      · obtain ⟨v, hv, hvw⟩ := hab.exists_fst w hw
        exact ⟨v, hv, hsymm _ _ _ _ hvw⟩
      · obtain ⟨w, hw, hvw⟩ := hab.exists_snd v hv
        exact ⟨w, hw, hsymm _ _ _ _ hvw⟩
      · exact List.mem_map.mpr ⟨(v, w), hpairs v w hv hw (hsymm _ _ _ _ hvw), rfl⟩
    · exact ⟨hab, hpairs⟩
  refine (hsettle _).exists_contains ⟨hs.mem, fun c hc v w hv hw hvw => ?_⟩ fun key hmem => ?_
  · refine Constraint.mem_pairs_of_mem_insert hc fun d hd hsame => ?_
    obtain ⟨hfirst, hsecond⟩ := Prod.mk.inj hsame
    rw [← hfirst] at hv hvw
    rw [← hsecond] at hw hvw
    rcases List.mem_cons.mp hd with rfl | hd
    · exact hkey.2 v w hv hw hvw
    · exact hs.pair_mem d hd v w hv hw hvw
  · rcases Constraint.mem_map_key_insert.mp hmem with rfl | hmem
    · exact hkey.1
    · exact hsupported key hmem

end Support

end Candidates

end ProgramQuery
