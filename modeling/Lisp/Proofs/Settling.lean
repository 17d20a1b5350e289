import Lisp.Proofs.Rules

/-! What evaluation comes to with enough steps and enough depth. Each rule of evaluation settles
when the evaluations that it asks for do. -/

namespace Lisp

open SpecialForm (form)

/-- With enough steps and enough depth, what an evaluator does in a store has this outcome. -/
def Settles {α : Type} (files : Files) (x : Evaluator → Action α) (σ : Store)
    (r : Except EvalError α) (τ : Store) : Prop :=
  ∃ k, ∀ steps depth, k ≤ steps → k ≤ depth → x (Host.evaluator ⟨files, steps, depth⟩) σ = .of r τ

/-- What a step that settles comes to, when it is gone on with. -/
inductive Finishes (files : Files) (x : Evaluator → Action Step) (σ : Store) :
    Except EvalError Value → Store → Prop
  | fails {e τ} (step : Settles files x σ (.error e) τ) : Finishes files x σ (.error e) τ
  | finish {s ρ r τ} (step : Settles files x σ (.ok s) ρ)
      (rest : Settles files (·.finish s) ρ r τ) :
    Finishes files x σ r τ

section

variable {α β : Type} {files : Files} {σ ρ τ : Store}

namespace Settles

theorem of_patience {x : Evaluator → Action α} {r : Except EvalError α} (k : Nat)
    (h : ∀ ev : Evaluator, ev.files = files → k ≤ ev.patience → x ev σ = .of r τ) :
    Settles files x σ r τ :=
  ⟨k, fun _ _ hs _ => h _ rfl hs⟩

theorem of_forall {x : Evaluator → Action α} {r : Except EvalError α}
    (h : ∀ ev : Evaluator, ev.files = files → x ev σ = .of r τ) : Settles files x σ r τ :=
  of_patience 0 fun ev hfiles _ => h ev hfiles

theorem congr_patience {x y : Evaluator → Action α} {r : Except EvalError α} (k : Nat)
    (h : Settles files x σ r τ) (heq : ∀ ev, k ≤ ev.patience → y ev σ = x ev σ) :
    Settles files y σ r τ := by
  obtain ⟨l, h⟩ := h
  refine ⟨max k l, fun steps depth hs hd => ?_⟩
  exact (heq _ (le_of_max_le_left hs)).trans (h steps depth (by omega) (by omega))

theorem congr {x y : Evaluator → Action α} {r : Except EvalError α} (h : Settles files x σ r τ)
    (heq : ∀ ev, y ev σ = x ev σ) : Settles files y σ r τ :=
  h.congr_patience 0 fun ev _ => heq ev

theorem bind {x : Evaluator → Action α} {f : Evaluator → α → Action β} {a : α}
    {r : Except EvalError β}
    (hx : Settles files x σ (.ok a) ρ) (hf : Settles files (fun ev => f ev a) ρ r τ) :
    Settles files (fun ev => x ev >>= f ev) σ r τ := by
  obtain ⟨k, hx⟩ := hx
  obtain ⟨l, hf⟩ := hf
  refine ⟨max k l, fun steps depth hs hd => ?_⟩
  have hx := hx steps depth (by omega) (by omega)
  exact (Action.bind_of_ok hx).trans (hf steps depth (by omega) (by omega))

theorem bind_error {x : Evaluator → Action α} {f : Evaluator → α → Action β} {e : EvalError}
    (hx : Settles files x σ (.error e) τ) :
    Settles files (fun ev => x ev >>= f ev) σ (.error e) τ := by
  obtain ⟨k, hx⟩ := hx
  exact ⟨k, fun steps depth hs hd => Action.bind_of_error _ (hx steps depth hs hd)⟩

theorem map {x : Evaluator → Action α} {f : α → β} {r : Except EvalError α}
    (hx : Settles files x σ r τ) :
    Settles files (fun ev => x ev >>= fun a => pure (f a)) σ (r.map f) τ := by
  cases r with
  | ok a => exact hx.bind (.of_forall fun _ _ => rfl)
  | error e => exact hx.bind_error

end Settles

namespace Finishes

variable {r : Except EvalError Value}

theorem done {x : Evaluator → Action Step} {v : Value}
    (step : Settles files x σ (.ok (.done v)) τ) :
    Finishes files x σ (.ok v) τ :=
  .finish step (.of_forall fun _ _ => rfl)

theorem next {x : Evaluator → Action Step} {value : Value} {env : Env}
    (step : Settles files x σ (.ok (.next value env)) ρ)
    (rest : Settles files (·.eval value env) ρ r τ) :
    Finishes files x σ r τ :=
  .finish step rest

theorem congr {x y : Evaluator → Action Step} (h : Finishes files x σ r τ)
    (heq : ∀ ev, y ev σ = x ev σ) :
    Finishes files y σ r τ := by
  cases h with
  | fails step => exact .fails (step.congr heq)
  | finish step rest => exact .finish (step.congr heq) rest

theorem bind {x : Evaluator → Action α} {f : Evaluator → α → Action Step} {a : α}
    (hx : Settles files x σ (.ok a) ρ) (hf : Finishes files (fun ev => f ev a) ρ r τ) :
    Finishes files (fun ev => x ev >>= f ev) σ r τ := by
  cases hf with
  | fails step => exact .fails (hx.bind step)
  | finish step rest => exact .finish (hx.bind step) rest

theorem bind_error {x : Evaluator → Action α} {f : Evaluator → α → Action Step} {e : EvalError}
    (hx : Settles files x σ (.error e) τ) :
    Finishes files (fun ev => x ev >>= f ev) σ (.error e) τ :=
  .fails hx.bind_error

theorem of_settles {x : Evaluator → Action Value} (hx : Settles files x σ r τ) :
    Finishes files (fun ev => x ev >>= fun v => pure (.done v)) σ r τ := by
  cases r with
  | ok v => exact .done hx.map
  | error e => exact .bind_error hx

theorem of_map {x : Evaluator → Action α} {f : α → Value} {r : Except EvalError α}
    (hx : Settles files x σ r τ) :
    Finishes files (fun ev => x ev >>= fun a => pure (.done (f a))) σ (r.map f) τ := by
  cases r with
  | ok a => exact .done hx.map
  | error e => exact .bind_error hx

theorem settles {x : Evaluator → Action Step} (h : Finishes files x σ r τ) :
    Settles files (fun ev => x ev >>= ev.finish) σ r τ := by
  cases h with
  | fails step => exact step.bind_error
  | finish step rest => exact step.bind rest

/-- A form that a step goes on with is evaluated in its place: with the same depth, and one step
less. -/
theorem eval {value : Value} {env : Env} (h : Finishes files (·.step value env) σ r τ) :
    Settles files (·.eval value env) σ r τ := by
  have hsucc (k : Nat) (h : ∀ steps depth, k ≤ steps → k ≤ depth →
      evalWithin files (steps + 1) (depth + 1) value env σ = .of r τ) :
      Settles files (·.eval value env) σ r τ := by
    refine ⟨k + 1, fun steps depth hs hd => ?_⟩
    obtain ⟨steps, rfl⟩ := Nat.exists_eq_add_of_le' (Nat.le_of_add_left_le hs)
    obtain ⟨depth, rfl⟩ := Nat.exists_eq_add_of_le' (Nat.le_of_add_left_le hd)
    exact h steps depth (by omega) (by omega)
  cases h with
  | fails step =>
    obtain ⟨k, hk⟩ := step
    refine hsucc k fun steps depth hs hd => ?_
    rw [evalWithin_succ]
    exact Action.bind_of_error _ (hk steps depth hs hd)
  | finish step rest =>
    obtain ⟨k, hk⟩ := step
    obtain ⟨l, hl⟩ := rest
    refine hsucc (max k l) fun steps depth hs hd => ?_
    have hstep := hk steps depth (by omega) (by omega)
    rw [evalWithin_succ, Action.bind_of_ok hstep]
    exact hl steps (depth + 1) (by omega) (by omega)

end Finishes

end

end Lisp
