/-!
# Repeating a step until nothing shrinks

`stabilise size step` repeats a step that may fail for as long as it makes the state smaller. The
size is a natural number, so every start comes to an end. `Stabilises` says the same of a step that
can go in several ways, and `StabilisesIn` counts the steps.
-/

namespace ProgramQuery

variable {σ : Type}

/-- Repeats `step` until the size stays the same, or the step fails. The result is the last state
reached. -/
def stabilise (size : σ → Nat) (step : σ → Option σ) (s : σ) : Option σ :=
  match step s with
  | none => none
  | some t => if size t < size s then stabilise size step t else some t
termination_by size s

/-- The ends that repeating a step can come to, where `step s result` says that `result` can become
of `s`, and `none` that the step can fail. -/
inductive Stabilises (size : σ → Nat) (step : σ → Option σ → Prop) : σ → Option σ → Prop where
  /-- The step fails. -/
  | fails {s : σ} (h : step s none) : Stabilises size step s none
  /-- The step does not make the state smaller. -/
  | stops {s t : σ} (h : step s (some t)) (hsize : ¬size t < size s) :
      Stabilises size step s (some t)
  /-- The step makes the state smaller, and is repeated. -/
  | again {s t : σ} {result : Option σ} (h : step s (some t)) (hsize : size t < size s)
      (hrest : Stabilises size step t result) : Stabilises size step s result

/-- The ends that repeating a step can come to in some number of steps. -/
inductive StabilisesIn (size : σ → Nat) (step : σ → Option σ → Prop) :
    Nat → σ → Option σ → Prop where
  /-- The step fails. -/
  | fails {s : σ} (h : step s none) : StabilisesIn size step 1 s none
  /-- The step does not make the state smaller. -/
  | stops {s t : σ} (h : step s (some t)) (hsize : ¬size t < size s) :
      StabilisesIn size step 1 s (some t)
  /-- The step makes the state smaller, and is repeated. -/
  | again {n : Nat} {s t : σ} {result : Option σ} (h : step s (some t)) (hsize : size t < size s)
      (hrest : StabilisesIn size step n t result) : StabilisesIn size step (n + 1) s result

variable {size : σ → Nat} {step : σ → Option σ → Prop} {s t : σ} {P : σ → Prop}

/-- A function that always goes one of the ways of a step comes to one of its ends. -/
theorem stabilises_stabilise {advance : σ → Option σ} (h : ∀ s, step s (advance s)) (s : σ) :
    Stabilises size step s (stabilise size advance s) := by
  fun_induction stabilise size advance s with
  | case1 s hstep => exact .fails (hstep ▸ h s)
  | case2 s t hstep hlt ih => exact .again (hstep ▸ h s) hlt ih
  | case3 s t hstep hlt => exact .stops (hstep ▸ h s) hlt

namespace Stabilises

/-- The result is what a last step made of a state without making it smaller. -/
theorem exists_step (h : Stabilises size step s (some t)) :
    ∃ u, step u (some t) ∧ ¬size t < size u := by
  generalize hresult : some t = result at h
  induction h with
  | fails _ => cases hresult
  | @stops u _ hstep hlt =>
    obtain rfl := Option.some.inj hresult
    exact ⟨u, hstep, hlt⟩
  | again _ _ _ ih => exact ih hresult

/-- What a step keeps, and the start has, the result has. -/
theorem of_step (h : Stabilises size step s (some t)) (keep : ∀ u v, step u (some v) → P u → P v)
    (hs : P s) : P t := by
  generalize hresult : some t = result at h
  induction h with
  | fails _ => cases hresult
  | stops hstep _ =>
    obtain rfl := Option.some.inj hresult
    exact keep _ _ hstep hs
  | again hstep _ _ ih => exact ih (keep _ _ hstep hs) hresult

/-- If no step fails from where the start is, there is a result, and it is there too. -/
theorem exists_of_step {result : Option σ} (h : Stabilises size step s result)
    (advance : ∀ u r, step u r → P u → ∃ v, r = some v ∧ P v) (hs : P s) :
    ∃ t, result = some t ∧ P t := by
  induction h with
  | fails hstep => exact advance _ _ hstep hs
  | stops hstep _ => exact advance _ _ hstep hs
  | again hstep _ _ ih =>
    obtain ⟨v, hv, hP⟩ := advance _ _ hstep hs
    obtain rfl := Option.some.inj hv
    exact ih hP

end Stabilises

/-! ## Counted steps -/

section Counted

variable {result : Option σ}

/-- The ends of a repetition are those that it comes to in some number of steps. -/
theorem stabilises_iff_exists_stabilisesIn :
    Stabilises size step s result ↔ ∃ n, StabilisesIn size step n s result := by
  constructor
  · intro h
    induction h with
    | fails h => exact ⟨1, .fails h⟩
    | stops h hsize => exact ⟨1, .stops h hsize⟩
    | again h hsize _ ih =>
      obtain ⟨n, hn⟩ := ih
      exact ⟨n + 1, .again h hsize hn⟩
  · rintro ⟨n, h⟩
    induction h with
    | fails h => exact .fails h
    | stops h hsize => exact .stops h hsize
    | again h hsize _ ih => exact .again h hsize ih

/-- A step that can only leave the state as it is, is taken once. -/
theorem stabilisesIn_iff_of_idle (hidle : ∀ result, step s result ↔ result = some s) {n : Nat} :
    StabilisesIn size step n s result ↔ n = 1 ∧ result = some s := by
  constructor
  · intro h
    cases h with
    | fails h => cases (hidle none).mp h
    | stops h _ => exact ⟨rfl, (hidle _).mp h⟩
    | again h hsize _ =>
      obtain rfl := Option.some.inj ((hidle _).mp h)
      exact absurd hsize (Nat.lt_irrefl _)
  · rintro ⟨rfl, rfl⟩
    exact .stops ((hidle _).mpr rfl) (Nat.lt_irrefl _)

end Counted

end ProgramQuery
