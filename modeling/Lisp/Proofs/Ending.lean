import Lisp.Proofs.Inversion
import Lisp.Repl

/-! What an action of a host ends with, when its budget is large enough. An action that is made of
evaluations ends with one result at most, and in two parts if it has two. -/

namespace Lisp

/-- With some budget, an action of a host has this result and leaves this store. -/
def Ends {α : Type} (files : Files) (x : Host → Action α) (σ : Store) (r : Except EvalError α)
    (τ : Store) : Prop :=
  ∃ steps depth, x ⟨files, steps, depth⟩ σ = .of r τ

/-- What an action ends with does not change when the budget grows. -/
def Steady {α : Type} (files : Files) (x : Host → Action α) : Prop :=
  ∀ ⦃σ : Store⦄ ⦃r : Except EvalError α⦄ ⦃τ : Store⦄, Ends files x σ r τ →
    ∃ k, ∀ steps depth, k ≤ steps → k ≤ depth → x ⟨files, steps, depth⟩ σ = .of r τ

variable {α β : Type} {files : Files} {σ τ : Store}

theorem ends_const {x : Action α} {r : Except EvalError α} :
    Ends files (fun _ => x) σ r τ ↔ x σ = .of r τ :=
  ⟨fun ⟨_, _, h⟩ => h, fun h => ⟨0, 0, h⟩⟩

theorem ends_eval {value : Value} {env : Env} {r : Except EvalError Value} :
    Ends files (·.eval value env) σ r τ ↔ Evaluates files value env σ r τ :=
  exists_eval_iff

theorem ends_evalAll {forms : List Value} {env : Env} {r : Except EvalError (List Value)} :
    Ends files (·.evaluator.evalAll forms env) σ r τ ↔ EvaluatesAll files forms env σ r τ := by
  constructor
  · rintro ⟨steps, depth, h⟩
    exact (Host.sound files steps depth).evalAll h
  · intro h
    obtain ⟨k, hk⟩ := h.settles
    exact ⟨k, k, hk k k le_rfl le_rfl⟩

theorem ends_apply {f : Value} {args : List Value} {r : Except EvalError Value} :
    Ends files (·.apply f args) σ r τ ↔ Applies files f args σ r τ := by
  constructor
  · rintro ⟨steps, depth, h⟩
    exact (Host.sound files steps depth).apply h
  · intro h
    obtain ⟨k, hk⟩ := h.finishes.apply
    exact ⟨k, k, hk k k le_rfl le_rfl⟩

theorem Ends.unique {x : Host → Action α} (hx : Steady files x) {r r' : Except EvalError α}
    {τ' : Store} (h : Ends files x σ r τ) (h' : Ends files x σ r' τ') : r' = r ∧ τ' = τ := by
  obtain ⟨k, hk⟩ := hx h
  obtain ⟨l, hl⟩ := hx h'
  have hr := hk (max k l) (max k l) (le_max_left k l) (le_max_left k l)
  have hr' := hl (max k l) (max k l) (le_max_right k l) (le_max_right k l)
  exact Outcome.of_inj.mp (hr'.symm.trans hr)

theorem ends_then {x : Host → Action α} {f : α → Action β} {r : Except EvalError β} :
    Ends files (fun host => x host >>= f) σ r τ ↔
      (∃ e, r = .error e ∧ Ends files x σ (.error e) τ) ∨
        ∃ a ρ, Ends files x σ (.ok a) ρ ∧ f a ρ = .of r τ := by
  constructor
  · rintro ⟨steps, depth, h⟩
    obtain ⟨e, rfl, he⟩ | ⟨a, ρ, ha, h⟩ := Action.bind_eq_of.mp h
    · exact .inl ⟨e, rfl, steps, depth, he⟩
    · exact .inr ⟨a, ρ, ⟨steps, depth, ha⟩, h⟩
  · rintro (⟨e, rfl, steps, depth, he⟩ | ⟨a, ρ, ⟨steps, depth, ha⟩, h⟩)
    · exact ⟨steps, depth, Action.bind_of_error _ he⟩
    · exact ⟨steps, depth, (Action.bind_of_ok ha).trans h⟩

/-- An action in two parts fails in the first, or ends as the second does, each within a budget of
its own. -/
theorem ends_bind {x : Host → Action α} {f : Host → α → Action β} (hx : Steady files x)
    (hf : ∀ a, Steady files (f · a)) {r : Except EvalError β} :
    Ends files (fun host => x host >>= f host) σ r τ ↔
      (∃ e, r = .error e ∧ Ends files x σ (.error e) τ) ∨
        ∃ a ρ, Ends files x σ (.ok a) ρ ∧ Ends files (f · a) ρ r τ := by
  constructor
  · rintro ⟨steps, depth, h⟩
    obtain ⟨e, rfl, he⟩ | ⟨a, ρ, ha, h⟩ := Action.bind_eq_of.mp h
    · exact .inl ⟨e, rfl, steps, depth, he⟩
    · exact .inr ⟨a, ρ, ⟨steps, depth, ha⟩, steps, depth, h⟩
  · rintro (⟨e, rfl, steps, depth, he⟩ | ⟨a, ρ, ha, h⟩)
    · exact ⟨steps, depth, Action.bind_of_error _ he⟩
    · obtain ⟨k, hk⟩ := hx ha
      obtain ⟨l, hl⟩ := hf a h
      refine ⟨max k l, max k l, ?_⟩
      have ha := hk (max k l) (max k l) (le_max_left k l) (le_max_left k l)
      exact (Action.bind_of_ok ha).trans (hl _ _ (le_max_right k l) (le_max_right k l))

theorem ends_attempt {x : Host → Action α} {r : Except EvalError (Except EvalError α)} :
    Ends files (fun host => (x host).attempt) σ r τ ↔ ∃ s, Ends files x σ s τ ∧ r = .ok s := by
  constructor
  · rintro ⟨steps, depth, h⟩
    obtain ⟨s, hs, rfl⟩ := Action.attempt_eq_of.mp h
    exact ⟨s, ⟨steps, depth, hs⟩, rfl⟩
  · rintro ⟨s, ⟨steps, depth, hs⟩, rfl⟩
    exact ⟨steps, depth, Action.attempt_eq_of.mpr ⟨s, hs, rfl⟩⟩

namespace Steady

theorem const (x : Action α) : Steady files fun _ => x :=
  fun _ _ _ ⟨_, _, h⟩ => ⟨0, fun _ _ _ _ => h⟩

theorem bind {x : Host → Action α} {f : Host → α → Action β} (hx : Steady files x)
    (hf : ∀ a, Steady files (f · a)) : Steady files fun host => x host >>= f host := by
  intro σ r τ h
  obtain ⟨e, rfl, he⟩ | ⟨a, ρ, ha, h⟩ := (ends_bind hx hf).mp h
  · obtain ⟨k, hk⟩ := hx he
    exact ⟨k, fun steps depth hs hd => Action.bind_of_error _ (hk steps depth hs hd)⟩
  · obtain ⟨k, hk⟩ := hx ha
    obtain ⟨l, hl⟩ := hf a h
    refine ⟨max k l, fun steps depth hs hd => ?_⟩
    have ha := hk steps depth (by omega) (by omega)
    exact (Action.bind_of_ok ha).trans (hl steps depth (by omega) (by omega))

theorem attempt {x : Host → Action α} (hx : Steady files x) :
    Steady files fun host => (x host).attempt := by
  rintro σ r τ ⟨steps, depth, h⟩
  obtain ⟨s, hs, rfl⟩ := Action.attempt_eq_of.mp h
  obtain ⟨k, hk⟩ := hx ⟨steps, depth, hs⟩
  exact ⟨k, fun steps depth hs hd => Action.attempt_eq_of.mpr ⟨s, hk steps depth hs hd, rfl⟩⟩

theorem eval (value : Value) (env : Env) : Steady files (·.eval value env) :=
  fun _ _ _ h => (ends_eval.mp h).settles

theorem apply (f : Value) (args : List Value) : Steady files (·.apply f args) :=
  fun _ _ _ h => (ends_apply.mp h).finishes.apply

theorem evalSource (source : String) : Steady files (·.evalSource source) :=
  (const _).bind fun form => eval form .global

theorem evalToValue (source : String) : Steady files (·.evalToValue source) := by
  refine (evalSource source).attempt.bind fun s => ?_
  cases s <;> exact const _

theorem rep (source : String) : Steady files (·.rep source) :=
  (evalToValue source).bind fun _ => const _

end Steady

theorem ends_evalSource {source : String} {value : Value} {r : Except EvalError Value}
    (h : read source = .ok value) :
    Ends files (·.evalSource source) σ r τ ↔ Evaluates files value .global σ r τ := by
  have hsource : Ends files (·.evalSource source) σ r τ ↔
      Ends files (·.eval value .global) σ r τ := by
    simp only [Host.evalSource, readSource, h]
    rfl
  exact hsource.trans ends_eval

end Lisp
