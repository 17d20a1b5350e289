import Lisp.Proofs.Ending
import Lisp.Proofs.Lifting
import Lisp.Proofs.TailPositions

/-! How deep evaluations nest. Evaluation is run with the number of evaluations that are active at the same
time. A step that goes on with a form leaves this number as it is, so that only what is evaluated inside of
the steps counts. -/

namespace Lisp

/-- Evaluation that shows the number of active evaluations to a watch, which can end the run. It has this
number itself and hands it on by one more to what its steps evaluate. -/
def evalCounted (watch : Nat → Action Unit) (files : Files) : Nat → Nat → Value → Env → Action Value
  | 0, _, _, _ => .halt .outOfSteps
  | steps + 1, active, value, env => do
    watch active
    let s ← Evaluator.step ⟨evalCounted watch files steps (active + 1), files, steps⟩ value env
    Evaluator.finish ⟨evalCounted watch files steps active, files, steps⟩ s

/-- A watch that gives the run up when more evaluations than these are active. -/
def depthLimit (limit active : Nat) : Action Unit :=
  if active ≤ limit then pure () else .halt .tooDeep

/-- Evaluators for what a step evaluates, when at most `d` of these evaluations are to be active. -/
def Evaluator.nesting (files : Files) (d steps : Nat) : Evaluator :=
  ⟨evalCounted (depthLimit d) files steps 1, files, steps⟩

/-- An evaluation has this result and leaves this store, with at most `d` evaluations active at a time. -/
def NestsWithin (files : Files) (d : Nat) (value : Value) (env : Env) (σ : Store)
    (r : Except EvalError Value) (τ : Store) : Prop :=
  ∃ steps, (Evaluator.nesting files d steps).eval value env σ = .of r τ

/-- One step comes to this, and what it evaluates nests at most `d` deep. -/
def StepsWithin (files : Files) (d : Nat) (value : Value) (env : Env) (σ : Store)
    (r : Except EvalError Step) (τ : Store) : Prop :=
  ∃ steps, (Evaluator.nesting files d steps).step value env σ = .of r τ

/-- An evaluation step by step, which goes on with another form `n` times. What each of the steps
evaluates nests at most `d` deep. -/
inductive TailRun (files : Files) (d : Nat) :
    Nat → Value → Env → Store → Except EvalError Value → Store → Prop
  | fails {value env σ e τ} (step : StepsWithin files d value env σ (.error e) τ) :
    TailRun files d 0 value env σ (.error e) τ
  | done {value env σ v τ} (step : StepsWithin files d value env σ (.ok (.done v)) τ) :
    TailRun files d 0 value env σ (.ok v) τ
  | next {n value env σ value' env' ρ r τ}
    (step : StepsWithin files d value env σ (.ok (.next value' env')) ρ)
    (rest : TailRun files d n value' env' ρ r τ) : TailRun files d (n + 1) value env σ r τ

theorem evalCounted_depthLimit (limit : Nat) (files : Files) (steps active : Nat) :
    evalCounted (depthLimit limit) files steps active =
      evalWithin files steps (limit + 1 - active) := by
  induction steps generalizing active with
  | zero => rfl
  | succ steps ih =>
    funext value env
    rw [evalCounted, ih (active + 1), ih active, depthLimit]
    by_cases h : active ≤ limit
    · obtain ⟨depth, rfl⟩ := Nat.exists_eq_add_of_le h
      have hself : active + depth + 1 - active = depth + 1 := by omega
      have hinner : active + depth + 1 - (active + 1) = depth := by omega
      rw [if_pos (Nat.le_add_right active depth), hself, hinner, pure_bind, evalWithin_succ]
      rfl
    · have hnone : limit + 1 - active = 0 := by omega
      rw [if_neg h, hnone]
      rfl

theorem Evaluator.nesting_eq (files : Files) (d steps : Nat) :
    nesting files d steps = Host.evaluator ⟨files, steps, d⟩ := by
  rw [nesting, evalCounted_depthLimit, Nat.add_sub_cancel]
  rfl

/-- Of two versions of an action, the second ends as the first does, if that ends. -/
def EndsAlike (α : Type) (x : Bool → Action α) : Prop :=
  ∀ ⦃σ : Store⦄ ⦃r : Except EvalError α⦄ ⦃τ : Store⦄, x false σ = .of r τ → x true σ = .of r τ

theorem EndsAlike.lifts : Lifts false EndsAlike where
  blind _ _ _ _ h := h
  same hle a b σ r τ h := by
    simp only [Evaluator.same_apply, Outcome.ofOption_eq_of] at h ⊢
    obtain ⟨answer, hanswer, h⟩ := h
    exact ⟨answer, Evaluator.equal?_refines σ.cells (hle true) a b answer hanswer, h⟩
  halted hx σ r τ h := by
    rw [hx] at h
    exact absurd h Action.halt_ne_of
  bind hx hf σ r τ h := by
    obtain ⟨e, rfl, he⟩ | ⟨a, ρ, ha, h⟩ := Action.bind_eq_of.mp h
    · exact Action.bind_of_error _ (hx he)
    · exact (Action.bind_of_ok (hx ha)).trans (hf a h)

namespace Evaluator

variable {files : Files} {d steps more : Nat} {value : Value} {env : Env} {σ τ : Store}

theorem nesting_alike (files : Files) (d : Nat) (hle : steps ≤ more) :
    Alike false EndsAlike files (fun _ => printLine)
      fun longer => nesting files d (if longer then more else steps) := by
  have hprint (readable : Bool) (args : List Value) :
      EndsAlike Value fun _ => printLine readable args :=
    fun _ _ _ h => h
  simp only [nesting_eq, ← Host.printing_printLine]
  refine EndsAlike.lifts.alike hprint files (fun longer => ?_) fun _ => le_rfl
  cases longer with
  | false => exact le_rfl
  | true => exact hle

theorem nesting_eval_more {r : Except EvalError Value} (hle : steps ≤ more)
    (h : (nesting files d steps).eval value env σ = .of r τ) :
    (nesting files d more).eval value env σ = .of r τ :=
  (nesting_alike files d hle).eval value env h

theorem nesting_step_more {r : Except EvalError Step} (hle : steps ≤ more)
    (h : (nesting files d steps).step value env σ = .of r τ) :
    (nesting files d more).step value env σ = .of r τ := by
  have hstep := (nesting_alike files d hle).stepPrinting EndsAlike.lifts value env
  simp only [stepPrinting_printLine] at hstep
  exact hstep h

/-- The evaluations in a step are one level further in than what the step goes on with. -/
theorem nesting_eval (files : Files) (d steps : Nat) (value : Value) (env : Env) :
    (nesting files (d + 1) (steps + 1)).eval value env =
      (nesting files d steps).step value env >>= (nesting files (d + 1) steps).finish := by
  simp only [nesting_eq]
  exact evalWithin_succ files steps d value env

theorem nesting_halts {r : Except EvalError Value} :
    (nesting files (d + 1) 0).eval value env σ ≠ .of r τ :=
  Outcome.halted_ne_of _

/-! What simple forms nest. A name or an integer is evaluated in one step, and a call of a builtin has its
operands one level further in. -/

variable {ev : Evaluator} {v w : Value}

theorem step_symbol {name : String} (found : σ.find? env name = some v) :
    ev.step (.symbol name) env σ = .of (.ok (.done v)) σ := by
  have hlookup : env.lookup name σ = .of (.ok v) σ := by
    rw [Env.lookup_apply, found]
    rfl
  rw [step, Action.bind_of_ok hlookup]
  rfl

theorem nesting_eval_of_done
    (h : (nesting files d steps).step value env σ = .of (.ok (.done v)) τ) :
    (nesting files (d + 1) (steps + 1)).eval value env σ = .of (.ok v) τ := by
  rw [nesting_eval, Action.bind_of_ok h]
  rfl

theorem nesting_eval_symbol {name : String} (found : σ.find? env name = some v) :
    (nesting files (d + 1) (steps + 1)).eval (.symbol name) env σ = .of (.ok v) σ :=
  nesting_eval_of_done (step_symbol found)

theorem nesting_eval_int (n : Int64) :
    (nesting files (d + 1) (steps + 1)).eval (.int n) env σ = .of (.ok (.int n)) σ :=
  nesting_eval_of_done rfl

theorem evalAll_pair {x y : Value} (hx : ev.eval x env σ = .of (.ok v) σ)
    (hy : ev.eval y env σ = .of (.ok w) σ) :
    ev.evalAll [x, y] env σ = .of (.ok [v, w]) σ := by
  have hlast : ev.evalAll [y] env σ = .of (.ok [w]) σ := by
    rw [evalAll_cons, Action.bind_of_ok hy]
    rfl
  rw [evalAll_cons, Action.bind_of_ok hx, Action.bind_of_ok hlast]
  rfl

/-- A call of a builtin with two operands that only name or are their values. -/
theorem nesting_eval_builtin {b : Builtin} {x y u : Value}
    (found : σ.find? env b.name = some (.function b))
    (hx : (nesting files (d + 1) (steps + 1)).eval x env σ = .of (.ok v) σ)
    (hy : (nesting files (d + 1) (steps + 1)).eval y env σ = .of (.ok w) σ)
    (called : (nesting files (d + 1) (steps + 1)).call b [v, w] σ = .of (.ok u) σ) :
    (nesting files (d + 2) (steps + 2)).eval (.list [.symbol b.name, x, y]) env σ = .of (.ok u) σ := by
  have noMacro : σ.macroCall? env (.list [.symbol b.name, x, y]) = none :=
    macroCall?_of_find? found (by simp [Value.kind])
  refine nesting_eval_of_done ?_
  rw [step_application (b.ordinary _) noMacro, Action.bind_of_ok (nesting_eval_symbol found),
    Action.bind_of_ok (evalAll_pair hx hy), enterCall, Action.bind_of_ok called]
  rfl

end Evaluator

variable {files : Files} {d n : Nat} {value : Value} {env : Env} {σ τ : Store}
  {r : Except EvalError Value}

theorem TailRun.nestsWithin (h : TailRun files d n value env σ r τ) :
    NestsWithin files (d + 1) value env σ r τ := by
  induction h with
  | fails step =>
    obtain ⟨steps, hstep⟩ := step
    refine ⟨steps + 1, ?_⟩
    rw [Evaluator.nesting_eval]
    exact Action.bind_of_error _ hstep
  | done step =>
    obtain ⟨steps, hstep⟩ := step
    refine ⟨steps + 1, ?_⟩
    rw [Evaluator.nesting_eval, Action.bind_of_ok hstep]
    rfl
  | next step _ ih =>
    obtain ⟨steps, hstep⟩ := step
    obtain ⟨more, hrest⟩ := ih
    -- The step and the rest had budgets of their own, and both do the same with the larger one.
    refine ⟨max steps more + 1, ?_⟩
    have hstep := Evaluator.nesting_step_more (le_max_left steps more) hstep
    rw [Evaluator.nesting_eval, Action.bind_of_ok hstep]
    exact Evaluator.nesting_eval_more (le_max_right steps more) hrest

theorem NestsWithin.exists_tailRun (h : NestsWithin files (d + 1) value env σ r τ) :
    ∃ n, TailRun files d n value env σ r τ := by
  obtain ⟨steps, h⟩ := h
  induction steps generalizing value env σ with
  | zero => exact absurd h Evaluator.nesting_halts
  | succ steps ih =>
    rw [Evaluator.nesting_eval] at h
    obtain ⟨e, rfl, he⟩ | ⟨s, ρ, hs, h⟩ := Action.bind_eq_of.mp h
    · exact ⟨0, .fails ⟨steps, he⟩⟩
    · cases s with
      | done v =>
        obtain ⟨rfl, rfl⟩ := Action.pure_eq_of.mp h
        exact ⟨0, .done ⟨steps, hs⟩⟩
      | next value env =>
        obtain ⟨n, rest⟩ := ih h
        exact ⟨n + 1, .next ⟨steps, hs⟩ rest⟩

theorem ends_eval_iff_nestsWithin :
    Ends files (·.eval value env) σ r τ ↔ ∃ d, NestsWithin files d value env σ r τ := by
  simp only [NestsWithin, Evaluator.nesting_eq]
  exact exists_comm

/-! What stands before a tail position is evaluated one level further in, and the form in that position on the
level of the whole form. -/

variable {tail : Value} {env' : Env} {ρ : Store}

theorem Evaluator.monotone_nesting (files : Files) (d : Nat) :
    Monotone fun steps => (nesting files d steps).Evaluated :=
  fun _ _ hle _ _ _ _ _ h => nesting_eval_more hle h

theorem stepsWithin_next_iff :
    StepsWithin files d value env σ (.ok (.next tail env')) ρ ↔
      TailPosition (NestsWithin files d) value env σ tail env' ρ := by
  constructor
  · rintro ⟨steps, h⟩
    exact (Evaluator.step_eq_next.mp h).mono fun _ _ _ _ _ h => ⟨steps, h⟩
  · intro h
    obtain ⟨steps, h⟩ := h.exists_of_exists (Evaluator.monotone_nesting files d)
    exact ⟨steps, Evaluator.step_eq_next.mpr h⟩

theorem TailPosition.tailRun (h : TailPosition (NestsWithin files d) value env σ tail env' ρ)
    (rest : TailRun files d n tail env' ρ r τ) : TailRun files d (n + 1) value env σ r τ :=
  .next (stepsWithin_next_iff.mpr h) rest

theorem StepsWithin.unique {s s' : Except EvalError Step} (h : StepsWithin files d value env σ s ρ)
    (h' : StepsWithin files d value env σ s' τ) : s = s' ∧ ρ = τ := by
  obtain ⟨steps, h⟩ := h
  obtain ⟨more, h'⟩ := h'
  have hs := Evaluator.nesting_step_more (le_max_left steps more) h
  have hs' := Evaluator.nesting_step_more (le_max_right steps more) h'
  exact Outcome.of_inj.mp (hs.symm.trans hs')

/-- A form nests as deep as the form in its tail position does, if what is evaluated before that one does not
nest deeper. -/
theorem TailPosition.nestsWithin_iff (h : TailPosition (NestsWithin files d) value env σ tail env' ρ) :
    NestsWithin files (d + 1) value env σ r τ ↔ NestsWithin files (d + 1) tail env' ρ r τ := by
  have hstep : StepsWithin files d value env σ _ ρ := stepsWithin_next_iff.mpr h
  constructor
  · intro hnests
    obtain ⟨n, hrun⟩ := hnests.exists_tailRun
    cases hrun with
    | fails step => cases (hstep.unique step).1
    | done step => cases (hstep.unique step).1
    | next step rest =>
      obtain ⟨heq, rfl⟩ := hstep.unique step
      cases heq
      exact rest.nestsWithin
  · intro hnests
    obtain ⟨n, rest⟩ := hnests.exists_tailRun
    exact (h.tailRun rest).nestsWithin

end Lisp
