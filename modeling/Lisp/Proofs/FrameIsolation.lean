import Lisp.Proofs.Confinement
import Lisp.Proofs.StepDerivation

/-! What a run does to the frames that were there when it began, at its end and at every point
that it passes. To speak of points inside of a run, evaluation is put under a watch. -/

namespace Lisp

/-- Evaluation with a watch, which sees each form before a step is taken with it and can end the
run there. -/
def evalWatched (watch : Value → Env → Action Unit) (files : Files) :
    Nat → Nat → Value → Env → Action Value
  | 0, _, _, _ => .halt .outOfSteps
  | _ + 1, 0, _, _ => .halt .tooDeep
  | steps + 1, depth + 1, value, env => do
    watch value env
    let s ← Evaluator.step ⟨evalWatched watch files steps depth, files, steps⟩ value env
    Evaluator.finish ⟨evalWatched watch files steps (depth + 1), files, steps⟩ s

namespace Host

variable (host : Host)

def watched (watch : Value → Env → Action Unit) : Evaluator :=
  ⟨evalWatched watch host.files host.steps host.depth, host.files, host.steps⟩

/-- The evaluator of a run that ends where a form, its environment and the store are such. -/
def endingAt (point : Value → Env → Store → Bool) : Evaluator :=
  host.watched fun value env σ => if point value env σ then .failure (.thrown "") σ else .value () σ

/-- The evaluator of a run that is given up before a definition is evaluated in this environment. -/
def sparing (env : Env) : Evaluator :=
  host.watched fun value e => if e = env ∧ value.isDefinition then .halt .tooDeep else pure ()

end Host

/-- A watch that writes no frame, and lets definitions be evaluated in no environments but these. -/
def Guards (defining : Env → Prop) (watch : Value → Env → Action Unit) : Prop :=
  ∀ ⦃value env σ r τ⦄, watch value env σ = .of r τ →
    τ = σ ∧ (r = .ok () → value.isDefinition → defining env)

variable {defining : Env → Prop} {watch : Value → Env → Action Unit} {files : Files} {host : Host}

theorem evalWatched_pure (files : Files) (steps depth : Nat) :
    evalWatched (fun _ _ => pure ()) files steps depth = evalWithin files steps depth := by
  induction steps generalizing depth with
  | zero => rfl
  | succ steps ih =>
    cases depth with
    | zero => rfl
    | succ depth =>
      funext value env
      rw [evalWatched, pure_bind, ih depth, ih (depth + 1)]
      exact (evalWithin_succ files steps depth value env).symm

theorem evalWatched_confined (hwatch : Guards defining watch) (files : Files) (steps depth : Nat) :
    Evaluator.Confined defining ⟨evalWatched watch files steps depth, files, steps⟩ := by
  induction steps generalizing depth with
  | zero => exact ⟨fun _ _ => Keeps.halt _⟩
  | succ steps ih =>
    cases depth with
    | zero => exact ⟨fun _ _ => Keeps.halt _⟩
    | succ depth =>
      refine ⟨fun value env σ r τ h => ?_⟩
      obtain ⟨e, rfl, he⟩ | ⟨_, ρ, hpass, hrest⟩ := Action.bind_eq_of.mp h
      · rw [(hwatch he).1]
        exact .refl σ
      · obtain ⟨rfl, henv⟩ := hwatch hpass
        exact (ih depth).step (henv rfl) _ (ih (depth + 1)) hrest

theorem evalWatched_sound
    (hwatch : ∀ ⦃value env σ r τ⦄, watch value env σ = .of r τ → r = .ok () ∧ τ = σ)
    (files : Files) (steps depth : Nat) :
    Evaluator.Sound files ⟨evalWatched watch files steps depth, files, steps⟩ := by
  induction steps generalizing depth with
  | zero => exact ⟨rfl, fun h => absurd h (Outcome.halted_ne_of _)⟩
  | succ steps ih =>
    cases depth with
    | zero => exact ⟨rfl, fun h => absurd h (Outcome.halted_ne_of _)⟩
    | succ depth =>
      refine ⟨rfl, fun {value env σ r τ} h => ?_⟩
      obtain ⟨e, rfl, he⟩ | ⟨_, ρ, hpass, hrest⟩ := Action.bind_eq_of.mp h
      · cases (hwatch he).1
      · obtain ⟨-, rfl⟩ := hwatch hpass
        exact (ih depth).finish (ih (depth + 1)) hrest

namespace Host

theorem watched_confined (hwatch : Guards defining watch) (host : Host) :
    (host.watched watch).Confined defining :=
  evalWatched_confined hwatch host.files host.steps host.depth

theorem watched_pure (host : Host) : host.watched (fun _ _ => pure ()) = host.evaluator := by
  unfold watched evaluator
  rw [evalWatched_pure]

theorem endingAt_confined (host : Host) (point : Value → Env → Store → Bool) :
    (host.endingAt point).Confined fun _ => True := by
  refine host.watched_confined fun value env σ r τ h => ⟨?_, fun _ _ => trivial⟩
  split at h
  · exact (Outcome.failure_eq_of.mp h).2
  · exact (Outcome.value_eq_of.mp h).2

theorem confined (host : Host) : host.evaluator.Confined fun _ => True := by
  rw [← watched_pure]
  exact host.watched_confined fun _ _ _ _ _ h => ⟨(Action.pure_eq_of.mp h).2, fun _ _ => trivial⟩

theorem sparing_confined (host : Host) (env : Env) : (host.sparing env).Confined (· ≠ env) := by
  refine host.watched_confined fun value e σ r τ h => ?_
  split at h
  · exact absurd h Action.halt_ne_of
  · next hno => exact ⟨(Action.pure_eq_of.mp h).2, fun _ hdef heq => hno ⟨heq, hdef⟩⟩

theorem sparing_sound (host : Host) (env : Env) : (host.sparing env).Sound host.files := by
  refine evalWatched_sound (fun value e σ r τ h => ?_) host.files host.steps host.depth
  split at h
  · exact absurd h Action.halt_ne_of
  · exact Action.pure_eq_of.mp h

theorem keeps_letIn (host : Host) (operands : List Value) (env : Env) :
    Keeps (fun e => e = .global) (host.eval (SpecialForm.form .letIn operands) env) := by
  obtain ⟨files, steps, depth⟩ := host
  cases steps with
  | zero => exact Keeps.halt _
  | succ steps =>
    cases depth with
    | zero => exact Keeps.halt _
    | succ depth =>
      change Keeps _ (evalWithin files (steps + 1) (depth + 1) _ env)
      rw [evalWithin_succ, Evaluator.step_form]
      have hnext := confined ⟨files, steps, depth + 1⟩
      exact ((confined ⟨files, steps, depth⟩).letIn operands env _ hnext).mono fun e he => he.1

end Host

/-- A run writes no frame that was there but that of its own environment and the global one, and
applying a function or evaluating `let*` writes none but the global one. A run that comes to its
end without a definition in some environment does not write the frame of this environment
either. All this holds at every point of a run. A name that means something in an environment
keeps a meaning there. -/
theorem frames_isolated (host : Host) {σ τ : Store} {r : Except EvalError Value} :
    (∀ value env, host.eval value env σ = .of r τ → Isolated (fun e => e = env ∨ e = .global) σ τ) ∧
    (∀ f args, host.apply f args σ = .of r τ → Isolated (fun e => e = .global) σ τ) ∧
    (∀ operands env, host.eval (SpecialForm.form .letIn operands) env σ = .of r τ →
      Isolated (fun e => e = .global) σ τ) ∧
    (∀ d value env, (host.sparing d).eval value env σ = .of r τ →
      Evaluates host.files value env σ r τ ∧
      Isolated (fun e => (e = env ∨ e = .global) ∧ e ≠ d) σ τ) ∧
    (∀ d f args, (host.sparing d).apply f args σ = .of r τ →
      Applies host.files f args σ r τ ∧ Isolated (fun e => e = .global ∧ e ≠ d) σ τ) ∧
    (∀ point value env, (host.endingAt point).eval value env σ = .of r τ →
      Isolated (fun e => e = env ∨ e = .global) σ τ) ∧
    (∀ writable, Isolated writable σ τ →
      ∀ e name, (σ.find? e name).isSome → (τ.find? e name).isSome) := by
  refine ⟨?_, ?_, ?_, ?_, ?_, ?_, ?_⟩
  · exact fun value env h => (host.confined.eval value env h).mono fun e he => he.1
  · exact fun f args h => (host.confined.apply f args h).mono fun e he => he.1
  · exact fun operands env h => host.keeps_letIn operands env h
  · intro d value env h
    exact ⟨(host.sparing_sound d).eval h, (host.sparing_confined d).eval value env h⟩
  · intro d f args h
    exact ⟨(host.sparing_sound d).apply h, (host.sparing_confined d).apply f args h⟩
  · intro point value env h
    have hkeeps := (host.endingAt_confined point).eval value env h
    exact hkeeps.mono fun e he => he.1
  · exact fun writable h e name => h.find?

/-- A definition in `let*` or in a closure of the global environment binds in the new frame
alone. -/
theorem frames_isolated_new :
    let host : Host := ⟨.empty, 8, 8⟩
    let body : Value := SpecialForm.form .define [.symbol "y", .symbol "x"]
    let f : Value := .closure ⟨0, ⟨["x"], none⟩, body, .global, false⟩
    let operands : List Value := [.list [.symbol "x", .int 2], body]
    let g : Value := SpecialForm.form .letIn operands
    let σ : Store := ⟨#[⟨[("y", .int 1)], none⟩], #[], 1, .silent⟩
    let τ : Store :=
      ⟨#[⟨[("y", .int 1)], none⟩, ⟨[("y", .int 2), ("x", .int 2)], some .global⟩], #[], 1, .silent⟩
    (host.eval g .global σ = .of (.ok (.int 2)) τ ∧
      Isolated (fun e => e = .global ∨ e = .global) σ τ ∧
      Isolated (fun e => e = .global) σ τ) ∧
    (host.apply f [.int 2] σ = .of (.ok (.int 2)) τ ∧ Isolated (fun e => e = .global) σ τ) ∧
    ((host.sparing .global).eval g .global σ = .of (.ok (.int 2)) τ ∧
      Evaluates host.files g .global σ (.ok (.int 2)) τ ∧
      Isolated (fun e => (e = .global ∨ e = .global) ∧ e ≠ .global) σ τ) ∧
    ((host.sparing .global).apply f [.int 2] σ = .of (.ok (.int 2)) τ ∧
      Applies host.files f [.int 2] σ (.ok (.int 2)) τ ∧
      Isolated (fun e => e = .global ∧ e ≠ .global) σ τ) ∧
    ((host.endingAt fun _ _ _ => false).eval g .global σ = .of (.ok (.int 2)) τ ∧
      Isolated (fun e => e = .global ∨ e = .global) σ τ) ∧
    (σ.find? .global "y").isSome ∧ (τ.find? .global "y").isSome := by
  intro host body f operands g σ τ
  obtain ⟨heval, happly, hlet, hspare, hspareApply, hpoint, hfind⟩ :=
    frames_isolated host (σ := σ) (τ := τ) (r := .ok (.int 2))
  have h := happly f [.int 2] rfl
  refine ⟨⟨rfl, heval g .global rfl, hlet operands .global rfl⟩, ⟨rfl, h⟩, ?_, ?_, ?_, rfl, ?_⟩
  · exact ⟨rfl, hspare .global g .global rfl⟩
  · exact ⟨rfl, hspareApply .global f [.int 2] rfl⟩
  · exact ⟨rfl, hpoint (fun _ _ _ => false) g .global rfl⟩
  · exact hfind _ h .global "y" rfl

end Lisp
