import Lisp.Action

/-! Outcomes of actions that came to an end, as a result and a store, and the outcome of each
way to make an action. -/

namespace Lisp

def Outcome.of {α : Type} (r : Except EvalError α) (τ : Store) : Outcome α :=
  match r with
  | .ok a => .value a τ
  | .error e => .failure e τ

namespace Outcome

variable {α : Type} {a : α} {e : EvalError} {r r' : Except EvalError α} {τ τ' : Store}

@[simp] theorem value_eq_of : .value a τ = of r τ' ↔ r = .ok a ∧ τ' = τ := by
  cases r with
  | ok b => simp [of, eq_comm]
  | error e => simp [of]

@[simp] theorem failure_eq_of : .failure e τ = of r τ' ↔ r = .error e ∧ τ' = τ := by
  cases r with
  | ok b => simp [of]
  | error e => simp [of, eq_comm]

@[simp] theorem halted_ne_of (why : Halt) : .halted why ≠ of r τ := by
  cases r <;> simp [of]

theorem of_inj : of r τ = of r' τ' ↔ r = r' ∧ τ = τ' := by
  cases r <;> cases r' <;> simp [of]

end Outcome

namespace Action

variable {α β : Type} {r : Except EvalError α} {σ τ : Store}

@[simp] theorem pure_eq_of {a : α} : (pure a : Action α) σ = .of r τ ↔ r = .ok a ∧ τ = σ :=
  Outcome.value_eq_of

@[simp] theorem fail_eq_of {e : EvalError} :
    (fail e : Action α) σ = .of r τ ↔ r = .error e ∧ τ = σ :=
  Outcome.failure_eq_of

@[simp] theorem halt_ne_of {why : Halt} : (halt why : Action α) σ ≠ .of r τ :=
  Outcome.halted_ne_of why

@[simp] theorem ofExcept_eq_of {x : Except EvalError α} :
    ofExcept x σ = .of r τ ↔ r = x ∧ τ = σ := by
  cases x with
  | ok a => exact Outcome.value_eq_of
  | error e => exact Outcome.failure_eq_of

@[simp] theorem query_eq_of {f : Store → α} : query f σ = .of r τ ↔ r = .ok (f σ) ∧ τ = σ :=
  Outcome.value_eq_of

@[simp] theorem modify_eq_of {f : Store → Store} {r : Except EvalError Unit} :
    modify f σ = .of r τ ↔ r = .ok () ∧ τ = f σ :=
  Outcome.value_eq_of

@[simp] theorem update_eq_of {f : Store → α × Store} :
    update f σ = .of r τ ↔ r = .ok (f σ).1 ∧ τ = (f σ).2 :=
  Outcome.value_eq_of

@[simp] theorem attempt_eq_of {x : Action α} {r : Except EvalError (Except EvalError α)} :
    x.attempt σ = .of r τ ↔ ∃ s, x σ = .of s τ ∧ r = .ok s := by
  unfold attempt
  cases hx : x σ with
  | value a ρ =>
    refine ⟨fun h => ?_, ?_⟩
    · obtain ⟨rfl, rfl⟩ := Outcome.value_eq_of.mp h
      exact ⟨.ok a, rfl, rfl⟩
    · rintro ⟨s, h, rfl⟩
      obtain ⟨rfl, rfl⟩ := Outcome.value_eq_of.mp h
      rfl
  | failure e ρ =>
    refine ⟨fun h => ?_, ?_⟩
    · obtain ⟨rfl, rfl⟩ := Outcome.value_eq_of.mp h
      exact ⟨.error e, rfl, rfl⟩
    · rintro ⟨s, h, rfl⟩
      obtain ⟨rfl, rfl⟩ := Outcome.failure_eq_of.mp h
      rfl
  | halted why => simp

/-- An action in two parts fails in the first, or ends as the second does. -/
theorem bind_eq_of {x : Action α} {f : α → Action β} {r : Except EvalError β} :
    (x >>= f) σ = .of r τ ↔
      (∃ e, r = .error e ∧ x σ = .of (.error e) τ) ∨
        ∃ a ρ, x σ = .of (.ok a) ρ ∧ f a ρ = .of r τ := by
  rw [bind_apply]
  cases hx : x σ with
  | value a ρ =>
    refine ⟨fun h => .inr ⟨a, ρ, rfl, h⟩, ?_⟩
    rintro (⟨e, -, h⟩ | ⟨a', ρ', h, hf⟩)
    · cases h
    · cases h
      exact hf
  | failure e ρ =>
    refine ⟨fun h => ?_, ?_⟩
    · obtain ⟨rfl, rfl⟩ := Outcome.failure_eq_of.mp h
      exact .inl ⟨e, rfl, rfl⟩
    · rintro (⟨e', rfl, h⟩ | ⟨a, ρ', h, -⟩)
      · cases h
        rfl
      · cases h
  | halted why => simp [Outcome.andThen]

theorem bind_eq_ok {x : Action α} {f : α → Action β} {b : β} :
    (x >>= f) σ = .of (.ok b) τ ↔ ∃ a ρ, x σ = .of (.ok a) ρ ∧ f a ρ = .of (.ok b) τ := by
  simp [bind_eq_of]

theorem map_eq_of {x : Action α} {f : α → β} {r : Except EvalError β} :
    (x >>= fun a => pure (f a)) σ = .of r τ ↔ ∃ s, x σ = .of s τ ∧ r = s.map f := by
  rw [bind_eq_of]
  constructor
  · rintro (⟨e, rfl, h⟩ | ⟨a, ρ, h, hf⟩)
    · exact ⟨.error e, h, rfl⟩
    · obtain ⟨rfl, rfl⟩ := pure_eq_of.mp hf
      exact ⟨.ok a, h, rfl⟩
  · rintro ⟨s, h, rfl⟩
    cases s with
    | ok a => exact .inr ⟨a, τ, h, rfl⟩
    | error e => exact .inl ⟨e, rfl, h⟩

theorem bind_of_ok {x : Action α} {f : α → Action β} {a : α} {ρ : Store}
    (hx : x σ = .of (.ok a) ρ) :
    (x >>= f) σ = f a ρ := by
  rw [bind_apply, hx]
  rfl

theorem bind_of_error {x : Action α} (f : α → Action β) {e : EvalError}
    (hx : x σ = .of (.error e) τ) :
    (x >>= f) σ = .of (.error e) τ := by
  rw [bind_apply, hx]
  rfl

end Action

end Lisp
