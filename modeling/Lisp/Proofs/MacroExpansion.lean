import Lisp.Proofs.Ending
import Lisp.Proofs.Scope
import Mathlib.Logic.Relation

/-! Macros are expanded in two ways: one call at a time while a form is evaluated, and by `macroexpand` up
to a form that calls no macro. Where no special form has the name of a macro, both come to the same. -/

namespace Lisp

open SpecialForm (form)

variable {files : Files} {env : Env} {σ ρ τ : Store}

/-- No special form has the name of a macro. -/
def Store.NoSpecialMacro (σ : Store) (env : Env) : Prop :=
  ∀ (sf : SpecialForm) c, σ.find? env sf.name = some (.closure c) → c.isMacro = false

/-- A macro that a form calls has turned it into another form, and the store into another store. -/
def Expansion (files : Files) (env : Env) (p q : Value × Store) : Prop :=
  ∃ c operands, p.2.macroCall? env p.1 = some (c, operands) ∧
    Ends files (·.apply (.closure c) operands) p.2 (.ok q.1) q.2

/-- While a form is expanded, no special form has the name of a macro. -/
def ExpandsPlainly (files : Files) (env : Env) (value : Value) (σ : Store) : Prop :=
  ∀ q, Relation.ReflTransGen (Expansion files env) (value, σ) q → q.2.NoSpecialMacro env

theorem Store.NoSpecialMacro.ordinary (h : σ.NoSpecialMacro env) {call : Value} {c : Closure Value}
    {operands : List Value} (calls : σ.macroCall? env call = some (c, operands)) :
    ∀ sf forms, call ≠ form sf forms := by
  rintro sf forms rfl
  obtain ⟨name, hform, hfind, hmacro⟩ := macroCall?_eq_some.mp calls
  obtain ⟨hname, -⟩ := List.cons.inj (Value.list.inj hform)
  rw [← Value.symbol.inj hname] at hfind
  exact nomatch hmacro.symm.trans (h sf c hfind)

namespace ExpandsPlainly

variable {value expansion : Value} {c : Closure Value} {operands : List Value}

theorem start (h : ExpandsPlainly files env value σ) : σ.NoSpecialMacro env :=
  h (value, σ) .refl

theorem tail (h : ExpandsPlainly files env value σ)
    (calls : σ.macroCall? env value = some (c, operands))
    (expanded : Applies files (.closure c) operands σ (.ok expansion) ρ) :
    ExpandsPlainly files env expansion ρ :=
  fun q hq => h q (.head ⟨c, operands, calls, ends_apply.mpr expanded⟩ hq)

theorem of_none (h : σ.NoSpecialMacro env) (noMacro : σ.macroCall? env value = none) :
    ExpandsPlainly files env value σ := by
  intro q hq
  obtain rfl | ⟨p, ⟨c, operands, calls, -⟩, -⟩ := hq.cases_head
  · exact h
  · exact nomatch noMacro.symm.trans calls

theorem of_step (h : σ.NoSpecialMacro env) (calls : σ.macroCall? env value = some (c, operands))
    (expanded : Ends files (·.apply (.closure c) operands) σ (.ok expansion) ρ)
    (rest : ExpandsPlainly files env expansion ρ) : ExpandsPlainly files env value σ := by
  intro q hq
  obtain rfl | ⟨⟨v, ρ'⟩, ⟨c', operands', calls', hv⟩, hq⟩ := hq.cases_head
  · exact h
  · obtain ⟨rfl, rfl⟩ := Prod.mk.inj (Option.some.inj (calls.symm.trans calls'))
    obtain ⟨hv, rfl⟩ := expanded.unique (Steady.apply _ _) hv
    obtain rfl := Except.ok.inj hv
    exact rest q hq

end ExpandsPlainly

/-- What an expansion came to is evaluated, unless the expansion failed. -/
def EvaluatesNext (files : Files) (env : Env) :
    Except EvalError Value → Store → Except EvalError Value → Store → Prop
  | .ok expansion, ρ, r, τ => Evaluates files expansion env ρ r τ
  | .error e, ρ, r, τ => r = .error e ∧ τ = ρ

/-- An evaluation begins with the expansion of its form. -/
theorem Evaluates.expands {value : Value} {σ τ : Store} {r : Except EvalError Value}
    (h : Evaluates files value env σ r τ) (plain : ExpandsPlainly files env value σ) :
    ∃ s ρ, Expands files value env σ s ρ ∧ EvaluatesNext files env s ρ r τ := by
  cases hcall : σ.macroCall? env value with
  | none => exact ⟨.ok value, σ, .done hcall, h⟩
  | some call =>
    have ordinary := plain.start.ordinary hcall
    match h with
    | .macroCall _ calls expanded evaluated =>
      obtain ⟨s, ρ, hexpands, hnext⟩ := evaluated.expands (plain.tail calls expanded)
      exact ⟨s, ρ, .step calls expanded hexpands, hnext⟩
    | .macroCallFails _ calls fails => exact ⟨.error _, _, .fails calls fails, rfl, rfl⟩
    | .application _ noMacro .. | .headFails _ noMacro .. | .argumentFails _ noMacro .. =>
      exact nomatch noMacro.symm.trans hcall
    | .constant isConstant =>
      obtain ⟨name, rfl, -⟩ := Store.macroCall?_eq_some.mp hcall
      cases isConstant
    | .symbol .. | .unbound .. | .thrown | .vector .. | .map .. | .mapFails .. => cases hcall
    | .malformed .. | .define .. | .defineFails .. | .letIn .. | .letInFails .. | .emptySequence
    | .sequence .. | .sequenceFails .. | .thenPart .. | .elsePart .. | .noElse ..
    | .conditionFails .. | .lambda .. | .quote | .quasiquote .. | .defineMacro ..
    | .macroNoClosure .. | .defineMacroFails .. | .macroExpand .. =>
      exact absurd rfl (ordinary _ _)
termination_by structural h

theorem Expands.evaluates {value : Value} {σ ρ τ : Store} {s r : Except EvalError Value}
    (h : Expands files value env σ s ρ) (plain : ExpandsPlainly files env value σ)
    (hnext : EvaluatesNext files env s ρ r τ) : Evaluates files value env σ r τ := by
  match h with
  | .done _ => exact hnext
  | .step calls expanded more =>
    have hmore := more.evaluates (plain.tail calls expanded) hnext
    exact .macroCall (plain.start.ordinary calls) calls expanded hmore
  | .fails calls expanded =>
    obtain ⟨rfl, rfl⟩ := hnext
    exact .macroCallFails (plain.start.ordinary calls) calls expanded
termination_by structural h

/-- What is expanded calls no macro any more. -/
theorem Expands.macroCall?_eq_none {value : Value} {σ ρ : Store} {s : Except EvalError Value}
    (h : Expands files value env σ s ρ) :
    ∀ expansion, s = .ok expansion → ρ.macroCall? env expansion = none := by
  match h with
  | .done noMacro =>
    rintro _ ⟨⟩
    exact noMacro
  | .step _ _ more => exact more.macroCall?_eq_none
  | .fails _ _ => exact fun _ hs => nomatch hs
termination_by structural h

theorem expands_iff_of_none {value : Value} {r : Except EvalError Value}
    (noMacro : σ.macroCall? env value = none) :
    Expands files value env σ r τ ↔ r = .ok value ∧ τ = σ := by
  constructor
  · intro h
    cases h with
    | done => exact ⟨rfl, rfl⟩
    | step calls | fails calls => exact nomatch noMacro.symm.trans calls
  · rintro ⟨rfl, rfl⟩
    exact .done noMacro

/-- Evaluating a form is expanding it and evaluating what comes of that, unless a special form has the name
of a macro while it is expanded. What comes of expanding a form calls no macro, and expanding it again
changes nothing. -/
theorem eval_iff_macroexpand (files : Files) (env : Env) (value : Value) (σ : Store) :
    (ExpandsPlainly files env value σ → ∀ r τ,
      (Ends files (·.eval value env) σ r τ ↔
        Ends files (fun host => do
          let expansion ← host.eval (form .macroExpand [value]) env
          host.eval expansion env) σ r τ)) ∧
    ∀ expansion ρ, Ends files (·.eval (form .macroExpand [value]) env) σ (.ok expansion) ρ →
      ρ.macroCall? env expansion = none ∧
      ∀ r τ, Ends files (·.eval (form .macroExpand [expansion]) env) ρ r τ ↔
        r = .ok expansion ∧ τ = ρ := by
  constructor
  · intro plain r τ
    rw [ends_bind (Steady.eval _ env) fun expansion => Steady.eval expansion env]
    simp only [ends_eval, evaluates_macroExpand]
    constructor
    · intro h
      obtain ⟨s, ρ, hexpands, hnext⟩ := h.expands plain
      cases s with
      | ok expansion => exact .inr ⟨expansion, ρ, hexpands, hnext⟩
      | error e =>
        obtain ⟨rfl, rfl⟩ := hnext
        exact .inl ⟨e, rfl, hexpands⟩
    · rintro (⟨e, rfl, hfails⟩ | ⟨expansion, ρ, hexpands, hrest⟩)
      · exact hfails.evaluates plain ⟨rfl, rfl⟩
      · exact hexpands.evaluates plain hrest
  · intro expansion ρ h
    rw [ends_eval, evaluates_macroExpand] at h
    have noMacro := h.macroCall?_eq_none expansion rfl
    refine ⟨noMacro, fun r τ => ?_⟩
    rw [ends_eval, evaluates_macroExpand, expands_iff_of_none noMacro]

/-- A macro whose call becomes the call of another, on its way to a number. -/
theorem eval_iff_macroexpand_twice :
    let number : Closure Value := ⟨0, ⟨[], none⟩, .int 7, .global, true⟩
    let call : Closure Value := ⟨1, ⟨["x"], none⟩, .symbol "x", .global, true⟩
    let σ : Store :=
      ⟨#[⟨[("number", .closure number), ("call", .closure call)], none⟩], #[], 2, .silent⟩
    let value : Value := .list [.symbol "call", .list [.symbol "number"]]
    let τ := ((σ.addFrame ⟨[("x", .list [.symbol "number"])], some .global⟩).2.addFrame
      ⟨[], some .global⟩).2
    ExpandsPlainly .empty .global value σ ∧
      Ends .empty (·.eval value .global) σ (.ok (.int 7)) τ ∧
      Ends .empty (fun host => do
        let expansion ← host.eval (form .macroExpand [value]) .global
        host.eval expansion .global) σ (.ok (.int 7)) τ ∧
      Ends .empty (·.eval (form .macroExpand [value]) .global) σ (.ok (.int 7)) τ ∧
      τ.macroCall? .global (.int 7) = none := by
  intro number call σ value τ
  let ρ := (σ.addFrame ⟨[("x", .list [.symbol "number"])], some .global⟩).2
  have hplain (ρ : Store) (hglobal : ρ.frame? .global = σ.frame? .global) :
      ρ.NoSpecialMacro .global := by
    intro sf c hfind
    rw [Store.find?_global, Store.bound?, hglobal] at hfind
    cases sf <;> cases hfind
  have hcall : Ends .empty (·.apply (.closure call) [.list [.symbol "number"]]) σ
      (.ok (.list [.symbol "number"])) ρ := ⟨4, 4, rfl⟩
  have hnumber : Ends .empty (·.apply (.closure number) []) ρ (.ok (.int 7)) τ := ⟨4, 4, rfl⟩
  have hnone : ExpandsPlainly .empty .global (.int 7) τ := .of_none (hplain τ rfl) rfl
  have plain : ExpandsPlainly .empty .global value σ :=
    .of_step (hplain σ rfl) rfl hcall (.of_step (hplain ρ rfl) rfl hnumber hnone)
  have heval : Ends .empty (·.eval value .global) σ (.ok (.int 7)) τ := ⟨9, 9, rfl⟩
  have hexpand : Ends .empty (·.eval (form .macroExpand [value]) .global) σ (.ok (.int 7)) τ :=
    ⟨9, 9, rfl⟩
  obtain ⟨hboth, hlast⟩ := eval_iff_macroexpand .empty .global value σ
  exact ⟨plain, heval, (hboth plain _ _).mp heval, hexpand, (hlast _ _ hexpand).1⟩

end Lisp
