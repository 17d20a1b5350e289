import Lisp.Proofs.FailedWrites

/-! The two ways to a call. A list whose head is a function is evaluated, and its last step goes on with the
body of the function; a builtin or a host hands over the arguments, and the body is evaluated on its own. -/

namespace Lisp

open SpecialForm (form)

variable {files : Files} {env : Env} {σ τ : Store} {r : Except EvalError Value}

/-- The list that calls a value with these arguments. They are quoted, and so come to themselves. -/
def Value.callWith (f : Value) (args : List Value) : Value :=
  .list (f :: args.map fun a => form .quote [a])

theorem evaluatesAll_quoted (args : List Value) (env : Env) (σ : Store) :
    EvaluatesAll files (args.map fun a => form .quote [a]) env σ (.ok args) σ := by
  induction args with
  | nil => exact .nil
  | cons a args ih => exact .cons .quote ih

theorem evaluates_callWith {f : Value} (isConstant : f.IsConstant) (args : List Value) :
    Evaluates files (f.callWith args) env σ r τ ↔ Applies files f args σ r τ := by
  have hsymbol (name : String) : f ≠ .symbol name := by
    rintro rfl
    exact isConstant
  have ordinary : ∀ sf forms, f.callWith args ≠ form sf forms :=
    fun sf forms heq => hsymbol sf.name (List.cons.inj (Value.list.inj heq)).1
  have noMacro : σ.macroCall? env (f.callWith args) = none := by
    refine Option.eq_none_iff_forall_ne_some.mpr fun call hcall => ?_
    obtain ⟨name, heq, -⟩ := Store.macroCall?_eq_some.mp hcall
    exact hsymbol name (List.cons.inj (Value.list.inj heq)).1
  have head : Evaluates files f env σ (.ok f) σ := .constant isConstant
  have operands : EvaluatesAll files _ env σ (.ok args) σ := evaluatesAll_quoted args env σ
  exact ⟨fun h => h.applies ordinary noMacro head operands,
    .application ordinary noMacro head operands⟩

/-- To evaluate a call of a function or a closure, wherever that is done, is to apply it. What `swap!` makes
of the content of an atom is what the call of the function with it comes to. -/
theorem eval_callWith_iff_apply (files : Files) {f : Value}
    (callable : (∃ b, f = .function b) ∨ ∃ c, f = .closure c) (env : Env) (σ : Store) :
    (∀ args r τ, Ends files (·.eval (f.callWith args) env) σ r τ ↔
      Ends files (·.apply f args) σ r τ) ∧
    ∀ c extra r τ, Ends files (·.apply (.function .swap) (.atom c :: f :: extra)) σ r τ ↔
      ∃ ρ, Ends files (·.eval (f.callWith (σ.cells.content c :: extra)) env) σ r ρ ∧
        τ = r.toOption.elim ρ (ρ.setContent c) := by
  have isConstant : f.IsConstant := by
    obtain ⟨b, rfl⟩ | ⟨c, rfl⟩ := callable <;> exact trivial
  simp only [ends_eval, ends_apply, evaluates_callWith isConstant, true_and, implies_true]
  intro c extra r τ
  rw [applies_swap]
  constructor
  · rintro (⟨e, noSwap, -⟩ | ⟨c', f', extra', ρ, hargs, applied, hτ⟩)
    · cases noSwap with
      | number number => exact absurd number (by simp)
      | noAtom noAtom => exact absurd rfl (noAtom c)
    · cases hargs
      exact ⟨ρ, applied, hτ⟩
  · rintro ⟨ρ, applied, hτ⟩
    exact .inr ⟨c, f, extra, ρ, rfl, applied, hτ⟩

/-- A macro that binds a name and gives back what it was called with, which is no form that has a value. -/
theorem eval_callWith_iff_apply_macro :
    let c : Closure Value := ⟨0, ⟨["x"], none⟩,
      form .sequence [form .define [.symbol "y", .symbol "x"], .symbol "y"], .global, true⟩
    let arg : Value := .list [.symbol "unbound"]
    let σ : Store := ⟨#[⟨[], none⟩], #[arg], 1, .silent⟩
    let τ := (σ.addFrame ⟨[("x", arg)], some .global⟩).2.bind ⟨1⟩ "y" arg
    ((∃ b, Value.closure c = .function b) ∨ ∃ d, Value.closure c = .closure d) ∧
      Ends .empty (·.apply (.closure c) [arg]) σ (.ok arg) τ ∧
      Ends .empty (·.eval ((Value.closure c).callWith [arg]) .global) σ (.ok arg) τ ∧
      Ends .empty (·.apply (.function .swap) [.atom ⟨0⟩, .closure c]) σ (.ok arg)
        (τ.setContent ⟨0⟩ arg) := by
  intro c arg σ τ
  have callable : (∃ b, Value.closure c = .function b) ∨ ∃ d, Value.closure c = .closure d :=
    .inr ⟨c, rfl⟩
  obtain ⟨hboth, hswap⟩ := eval_callWith_iff_apply .empty callable .global σ
  have happly : Ends .empty (·.apply (.closure c) [arg]) σ (.ok arg) τ := ⟨9, 9, rfl⟩
  have heval := (hboth [arg] (.ok arg) τ).mpr happly
  exact ⟨callable, happly, heval, (hswap ⟨0⟩ [] (.ok arg) _).mpr ⟨τ, heval, rfl⟩⟩

end Lisp
