/-!
# Computations that may fail

What it takes for a sequence of steps to succeed, and how it fails. A fold is a sequence with one
step for each element of a list.
-/

namespace ProgramQuery

section Steps

variable {ε α β : Type}

theorem ok_bind (a : α) (f : α → Except ε β) : (Except.ok a >>= f) = f a :=
  rfl

theorem exists_of_bind_eq_ok {x : Except ε α} {f : α → Except ε β} {b : β}
    (h : x >>= f = .ok b) : ∃ a, x = .ok a ∧ f a = .ok b := by
  cases x with
  | error e => cases h
  | ok a => exact ⟨a, rfl, h⟩

theorem of_bind_eq_error {x : Except ε α} {f : α → Except ε β} {e : ε}
    (h : x >>= f = .error e) : x = .error e ∨ ∃ a, x = .ok a ∧ f a = .error e := by
  cases x with
  | error e' => exact .inl (congrArg _ (Except.error.inj h))
  | ok a => exact .inr ⟨a, rfl, h⟩

theorem eq_ok_of_mapError {δ : Type} {x : Except ε α} {f : ε → δ} {a : α}
    (h : x.mapError f = .ok a) : x = .ok a := by
  cases x with
  | error e => cases h
  | ok b => exact congrArg Except.ok (Except.ok.inj h)

theorem eq_ok_of_toOption {x : Except ε α} {a : α} (h : x.toOption = some a) : x = .ok a := by
  cases x with
  | error e => cases h
  | ok b => exact congrArg Except.ok (Option.some.inj h)

end Steps

section Folds

variable {ε α β : Type} {f : β → α → Except ε β} {l : List α} {b : β}

/-- What every step keeps, a fold keeps. -/
theorem of_foldlM {P : β → Prop} (hf : ∀ b a b', f b a = .ok b' → P b → P b') {b' : β}
    (h : l.foldlM f b = .ok b') (hb : P b) : P b' := by
  induction l generalizing b with
  | nil => exact Except.ok.inj h ▸ hb
  | cons a l ih =>
    rw [List.foldlM_cons] at h
    obtain ⟨next, hnext, h⟩ := exists_of_bind_eq_ok h
    exact ih h (hf b a next hnext hb)

/-- A fold fails as one of its steps does. -/
theorem exists_of_foldlM_eq_error {e : ε} (h : l.foldlM f b = .error e) :
    ∃ b', ∃ a ∈ l, f b' a = .error e := by
  induction l generalizing b with
  | nil => cases h
  | cons a l ih =>
    rw [List.foldlM_cons] at h
    rcases of_bind_eq_error h with herror | ⟨next, -, hrest⟩
    · exact ⟨b, a, List.mem_cons_self, herror⟩
    · obtain ⟨b', a', ha', herror⟩ := ih hrest
      exact ⟨b', a', List.mem_cons_of_mem a ha', herror⟩

/-- If every step adds its element to a list and drops none, a fold adds all elements. -/
theorem mem_of_foldlM {f : List α → α → Except ε (List α)}
    (hf : ∀ l a l', f l a = .ok l' → a ∈ l' ∧ ∀ x ∈ l, x ∈ l') {as l l' : List α}
    (h : as.foldlM f l = .ok l') : (∀ x ∈ l, x ∈ l') ∧ ∀ x ∈ as, x ∈ l' := by
  induction as generalizing l with
  | nil =>
    obtain rfl := Except.ok.inj h
    exact ⟨fun x hx => hx, fun x hx => absurd hx List.not_mem_nil⟩
  | cons a as ih =>
    rw [List.foldlM_cons] at h
    obtain ⟨next, hnext, h⟩ := exists_of_bind_eq_ok h
    obtain ⟨ha, hkeep⟩ := hf _ _ _ hnext
    obtain ⟨hgrow, hall⟩ := ih h
    refine ⟨fun x hx => hgrow x (hkeep x hx), fun x hx => ?_⟩
    rcases List.mem_cons.mp hx with rfl | hx
    · exact hgrow x ha
    · exact hall x hx

end Folds

end ProgramQuery
