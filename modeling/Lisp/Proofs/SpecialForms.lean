import Lisp.Proofs.MacroExpansion
import Lisp.Proofs.Writes

/-! What the special forms do, whatever their names are bound to: a list that one of these names heads is
evaluated by the rule of that special form. Expansion asks for macros alone. It leaves such a list as it is
when its name is no macro, and otherwise calls the macro, which evaluation never does. -/

namespace Lisp

/-- An evaluation in two parts, which fails in the first one or goes on with its value. -/
def Continues {α : Type} (first : Except EvalError α → Store → Prop)
    (rest : α → Store → Except EvalError Value → Store → Prop) (r : Except EvalError Value) (τ : Store) : Prop :=
  (∃ e, r = .error e ∧ first (.error e) τ) ∨ ∃ a ρ, first (.ok a) ρ ∧ rest a ρ r τ

/-- The rules of the special forms, by what becomes of their operands. -/
inductive SpecialForm.Does (files : Files) (env : Env) (σ : Store) :
    SpecialForm → List Value → Except EvalError Value → Store → Prop
  | malformed {sf operands e} (bad : Malformed sf operands e) : Does files env σ sf operands (.error e) σ
  | define {name value r τ}
    (h : Continues (Evaluates files value env σ) (fun v ρ r τ => r = .ok v ∧ τ = ρ.bind env name v) r τ) :
    Does files env σ .define [.symbol name, value] r τ
  | defineMacro {name value r τ}
    (h : Continues (Evaluates files value env σ) (fun v ρ r τ =>
      (∃ c m ρ', v = .closure c ∧ ρ.addClosure c.params c.body c.env true = (m, ρ') ∧
        r = .ok (.closure m) ∧ τ = ρ'.bind env name (.closure m)) ∨
      (∀ c, v ≠ .closure c) ∧ τ = ρ ∧
        r = .error (.invalidForm "defmacro!" s!"expected a function, got {v.kind.name}")) r τ) :
    Does files env σ .defineMacro [.symbol name, value] r τ
  | letIn {bindings items body inner σ' r τ} (isItems : bindings.items? = some items)
    (even : items.length % 2 = 0) (child : σ.addFrame ⟨[], some env⟩ = (inner, σ'))
    (h : Continues (BindsAll files inner items σ') (fun _ => Evaluates files body inner) r τ) :
    Does files env σ .letIn [bindings, body] r τ
  | emptySequence : Does files env σ .sequence [] (.ok .nil) σ
  | sequence {forms last r τ}
    (h : Continues (EvaluatesAll files forms env σ) (fun _ => Evaluates files last env) r τ) :
    Does files env σ .sequence (forms ++ [last]) r τ
  | conditional {condition thenForm rest r τ} (few : rest.length ≤ 1)
    (h : Continues (Evaluates files condition env σ) (fun v ρ r τ =>
      match v.isTruthy, rest with
      | true, _ => Evaluates files thenForm env ρ r τ
      | false, elseForm :: _ => Evaluates files elseForm env ρ r τ
      | false, [] => r = .ok .nil ∧ τ = ρ) r τ) :
    Does files env σ .conditional (condition :: thenForm :: rest) r τ
  | lambda {params items parsed body c τ} (isItems : params.items? = some items)
    (isParsed : Params.parse items = .ok parsed) (made : σ.addClosure parsed body env false = (c, τ)) :
    Does files env σ .lambda [params, body] (.ok (.closure c)) τ
  | quote {value} : Does files env σ .quote [value] (.ok value) σ
  | quasiquote {template r τ} (filled : Fills files template env σ r τ) :
    Does files env σ .quasiquote [template] r τ
  | macroExpand {value r τ} (expanded : Expands files value env σ r τ) :
    Does files env σ .macroExpand [value] r τ

open SpecialForm (form)

variable {files : Files} {env : Env} {σ τ : Store} {r : Except EvalError Value}

theorem SpecialForm.Does.evaluates {sf : SpecialForm} {operands : List Value}
    (h : sf.Does files env σ operands r τ) : Evaluates files (form sf operands) env σ r τ := by
  cases h with
  | malformed bad => exact .malformed bad
  | define h =>
    obtain ⟨e, rfl, fails⟩ | ⟨v, ρ, evaluated, rfl, rfl⟩ := h
    · exact .defineFails fails
    · exact .define evaluated
  | defineMacro h =>
    obtain ⟨e, rfl, fails⟩ | ⟨v, ρ, evaluated, h⟩ := h
    · exact .defineMacroFails fails
    · obtain ⟨c, m, ρ', rfl, made, rfl, rfl⟩ | ⟨noClosure, rfl, rfl⟩ := h
      · exact .defineMacro evaluated made
      · exact .macroNoClosure evaluated noClosure
  | letIn isItems even child h =>
    obtain ⟨e, rfl, fails⟩ | ⟨_, ρ, bound, evaluated⟩ := h
    · exact .letInFails isItems even child fails
    · exact .letIn isItems even child bound evaluated
  | emptySequence => exact .emptySequence
  | sequence h =>
    obtain ⟨e, rfl, fails⟩ | ⟨values, ρ, first, evaluated⟩ := h
    · exact .sequenceFails fails
    · exact .sequence first evaluated
  | @conditional _ _ rest _ _ few h =>
    obtain ⟨e, rfl, fails⟩ | ⟨v, ρ, chosen, h⟩ := h
    · exact .conditionFails few fails
    · cases ht : v.isTruthy with
      | true =>
        simp only [ht] at h
        exact .thenPart few chosen ht h
      | false =>
        match rest with
        | [] =>
          simp only [ht] at h
          obtain ⟨rfl, rfl⟩ := h
          exact .noElse chosen ht
        | [elseForm] =>
          simp only [ht] at h
          exact .elsePart chosen ht h
        | _ :: _ :: _ => simp at few
  | lambda isItems isParsed made => exact .lambda isItems isParsed made
  | quote => exact .quote
  | quasiquote filled => exact .quasiquote filled
  | macroExpand expanded => exact .macroExpand expanded

/-- A list that the name of a special form heads is evaluated by the rule of that special form. -/
theorem Evaluates.does {sf : SpecialForm} {operands : List Value}
    (h : Evaluates files (form sf operands) env σ r τ) : sf.Does files env σ operands r τ := by
  generalize hvalue : form sf operands = value at h
  cases h with
  | constant isConstant =>
    subst hvalue
    cases isConstant
  | symbol | unbound | thrown | vector | map | mapFails => cases hvalue
  | macroCall ordinary | macroCallFails ordinary => exact absurd hvalue.symm (ordinary sf operands)
  | application ordinary | headFails ordinary | argumentFails ordinary =>
    exact absurd hvalue.symm (ordinary sf operands)
  | malformed bad =>
    obtain ⟨rfl, rfl⟩ := SpecialForm.form_inj hvalue
    exact .malformed bad
  | define evaluated =>
    obtain ⟨rfl, rfl⟩ := SpecialForm.form_inj hvalue
    exact .define (.inr ⟨_, _, evaluated, rfl, rfl⟩)
  | defineFails fails =>
    obtain ⟨rfl, rfl⟩ := SpecialForm.form_inj hvalue
    exact .define (.inl ⟨_, rfl, fails⟩)
  | letIn isItems even child bound evaluated =>
    obtain ⟨rfl, rfl⟩ := SpecialForm.form_inj hvalue
    exact .letIn isItems even child (.inr ⟨_, _, bound, evaluated⟩)
  | letInFails isItems even child fails =>
    obtain ⟨rfl, rfl⟩ := SpecialForm.form_inj hvalue
    exact .letIn isItems even child (.inl ⟨_, rfl, fails⟩)
  | emptySequence =>
    obtain ⟨rfl, rfl⟩ := SpecialForm.form_inj hvalue
    exact .emptySequence
  | sequence first evaluated =>
    obtain ⟨rfl, rfl⟩ := SpecialForm.form_inj hvalue
    exact .sequence (.inr ⟨_, _, first, evaluated⟩)
  | sequenceFails fails =>
    obtain ⟨rfl, rfl⟩ := SpecialForm.form_inj hvalue
    exact .sequence (.inl ⟨_, rfl, fails⟩)
  | thenPart few chosen truthy evaluated =>
    obtain ⟨rfl, rfl⟩ := SpecialForm.form_inj hvalue
    exact .conditional few (.inr ⟨_, _, chosen, by simpa only [truthy] using evaluated⟩)
  | elsePart chosen falsy evaluated =>
    obtain ⟨rfl, rfl⟩ := SpecialForm.form_inj hvalue
    exact .conditional (by simp) (.inr ⟨_, _, chosen, by simpa only [falsy] using evaluated⟩)
  | noElse chosen falsy =>
    obtain ⟨rfl, rfl⟩ := SpecialForm.form_inj hvalue
    exact .conditional (by simp) (.inr ⟨_, _, chosen, by simp [falsy]⟩)
  | conditionFails few fails =>
    obtain ⟨rfl, rfl⟩ := SpecialForm.form_inj hvalue
    exact .conditional few (.inl ⟨_, rfl, fails⟩)
  | lambda isItems isParsed made =>
    obtain ⟨rfl, rfl⟩ := SpecialForm.form_inj hvalue
    exact .lambda isItems isParsed made
  | quote =>
    obtain ⟨rfl, rfl⟩ := SpecialForm.form_inj hvalue
    exact .quote
  | quasiquote filled =>
    obtain ⟨rfl, rfl⟩ := SpecialForm.form_inj hvalue
    exact .quasiquote filled
  | defineMacro evaluated made =>
    obtain ⟨rfl, rfl⟩ := SpecialForm.form_inj hvalue
    exact .defineMacro (.inr ⟨_, _, evaluated, .inl ⟨_, _, _, rfl, made, rfl, rfl⟩⟩)
  | macroNoClosure evaluated noClosure =>
    obtain ⟨rfl, rfl⟩ := SpecialForm.form_inj hvalue
    exact .defineMacro (.inr ⟨_, _, evaluated, .inr ⟨noClosure, rfl, rfl⟩⟩)
  | defineMacroFails fails =>
    obtain ⟨rfl, rfl⟩ := SpecialForm.form_inj hvalue
    exact .defineMacro (.inl ⟨_, rfl, fails⟩)
  | macroExpand expanded =>
    obtain ⟨rfl, rfl⟩ := SpecialForm.form_inj hvalue
    exact .macroExpand expanded

theorem expands_iff_of_some {value : Value} {c : Closure Value} {operands : List Value}
    (calls : σ.macroCall? env value = some (c, operands)) :
    Expands files value env σ r τ ↔
      Continues (Applies files (.closure c) operands σ) (fun expansion => Expands files expansion env) r τ := by
  constructor
  · intro h
    cases h with
    | done noMacro => exact nomatch noMacro.symm.trans calls
    | step calls' expanded more =>
      obtain ⟨rfl, rfl⟩ := Prod.mk.inj (Option.some.inj (calls'.symm.trans calls))
      exact .inr ⟨_, _, expanded, more⟩
    | fails calls' expanded =>
      obtain ⟨rfl, rfl⟩ := Prod.mk.inj (Option.some.inj (calls'.symm.trans calls))
      exact .inl ⟨_, rfl, expanded⟩
  · rintro (⟨e, rfl, fails⟩ | ⟨expansion, ρ, expanded, more⟩)
    · exact .fails calls fails
    · exact .step calls expanded more

/-- A call makes a frame, unless the arguments are refused. -/
theorem Applies.frames_size_lt {c : Closure Value} {args : List Value} {v : Value}
    (h : Applies files (.closure c) args σ (.ok v) τ) : σ.frames.size < τ.frames.size := by
  cases h with
  | @closure _ _ frame inner _ σ' _ _ _ entered body =>
    obtain ⟨-, rfl⟩ := Prod.mk.inj entered
    have hpush : σ.frames.size < (σ.frames.push frame).size := by simp
    exact hpush.trans_le body.writes.frames_size

theorem macroCall?_form (sf : SpecialForm) (operands : List Value) :
    σ.macroCall? env (form sf operands) = none ↔
      ∀ c, σ.find? env sf.name = some (.closure c) → c.isMacro = false := by
  rw [Option.eq_none_iff_forall_ne_some]
  constructor
  · intro h c found
    by_contra hmacro
    exact h (c, operands) (Store.macroCall?_eq_some.mpr ⟨sf.name, rfl, found, by simpa using hmacro⟩)
  · rintro h ⟨c, forms⟩ calls
    obtain ⟨name, hform, found, hmacro⟩ := Store.macroCall?_eq_some.mp calls
    obtain ⟨hname, -⟩ := List.cons.inj (Value.list.inj hform)
    rw [← Value.symbol.inj hname] at found
    exact nomatch hmacro.symm.trans (h c found)

/-- Evaluation treats a list that the name of a special form heads as that special form, in every store and
environment. Expansion leaves the list as it is, with no effect, when that name is no macro there. When it is
one, the macro is called, and what comes of the list is not the list with no effect. -/
theorem special_forms_first (files : Files) (env : Env) (σ : Store) (sf : SpecialForm)
    (operands : List Value) :
    (∀ r τ, Ends files (·.eval (form sf operands) env) σ r τ ↔ sf.Does files env σ operands r τ) ∧
    ((∀ c, σ.find? env sf.name = some (.closure c) → c.isMacro = false) →
      ∀ r τ, Ends files (·.eval (form .macroExpand [form sf operands]) env) σ r τ ↔
        r = .ok (form sf operands) ∧ τ = σ) ∧
    ∀ c, σ.find? env sf.name = some (.closure c) → c.isMacro = true →
      (∀ r τ, Ends files (·.eval (form .macroExpand [form sf operands]) env) σ r τ ↔
        Ends files (fun host => do
          let expansion ← host.apply (.closure c) operands
          host.eval (form .macroExpand [expansion]) env) σ r τ) ∧
      ¬ Ends files (·.eval (form .macroExpand [form sf operands]) env) σ (.ok (form sf operands)) σ := by
  refine ⟨fun r τ => ?_, fun noMacro r τ => ?_, fun c found hmacro => ?_⟩
  · rw [ends_eval]
    exact ⟨Evaluates.does, SpecialForm.Does.evaluates⟩
  · rw [ends_eval, evaluates_macroExpand, expands_iff_of_none ((macroCall?_form sf operands).mpr noMacro)]
  · have calls : σ.macroCall? env (form sf operands) = some (c, operands) :=
      Store.macroCall?_eq_some.mpr ⟨sf.name, rfl, found, hmacro⟩
    constructor
    · intro r τ
      rw [ends_bind (Steady.apply _ _) fun expansion => Steady.eval _ env]
      simp only [ends_eval, ends_apply, evaluates_macroExpand]
      exact expands_iff_of_some calls
    · rw [ends_eval, evaluates_macroExpand, expands_iff_of_some calls]
      rintro (⟨e, he, -⟩ | ⟨expansion, ρ, expanded, more⟩)
      · cases he
      · have hlt := expanded.frames_size_lt
        exact absurd more.writes.frames_size (Nat.not_le.mpr hlt)

/-- Two special forms, where the name of one is a macro and that of the other is not bound. -/
theorem special_forms_first_rebound :
    let c : Closure Value := ⟨0, ⟨[], some "xs"⟩, .int 42, .global, true⟩
    let σ : Store := ⟨#[⟨[("if", .closure c)], none⟩], #[], 1, .silent⟩
    let τ := (σ.addFrame ⟨[("xs", .list [.bool true, .int 1])], some .global⟩).2
    let value := form .conditional [.bool true, .int 1]
    σ.find? .global SpecialForm.conditional.name = some (.closure c) ∧ c.isMacro = true ∧
      SpecialForm.conditional.Does .empty .global σ [.bool true, .int 1] (.ok (.int 1)) σ ∧
      Ends .empty (·.eval value .global) σ (.ok (.int 1)) σ ∧
      Ends .empty (·.eval (form .macroExpand [value]) .global) σ (.ok (.int 42)) τ ∧
      ¬ Ends .empty (·.eval (form .macroExpand [value]) .global) σ (.ok value) σ ∧
      (∀ d, σ.find? .global SpecialForm.quote.name = some (.closure d) → d.isMacro = false) ∧
      Ends .empty (·.eval (form .macroExpand [form .quote [value]]) .global) σ
        (.ok (form .quote [value])) σ := by
  intro c σ τ value
  obtain ⟨heval, -, hmacro⟩ := special_forms_first .empty .global σ .conditional [.bool true, .int 1]
  obtain ⟨-, hplain, -⟩ := special_forms_first .empty .global σ .quote [value]
  obtain ⟨hexpand, hnot⟩ := hmacro c rfl rfl
  have hone : Ends .empty (·.eval value .global) σ (.ok (.int 1)) σ := ⟨9, 9, rfl⟩
  have hcall : Ends .empty (fun host => do
      let expansion ← host.apply (.closure c) [.bool true, .int 1]
      host.eval (form .macroExpand [expansion]) .global) σ (.ok (.int 42)) τ := ⟨9, 9, rfl⟩
  have hfree : ∀ d, σ.find? .global SpecialForm.quote.name = some (.closure d) → d.isMacro = false :=
    fun d found => by cases found
  exact ⟨rfl, rfl, (heval _ _).mp hone, hone, (hexpand _ _).mpr hcall, hnot, hfree,
    (hplain hfree _ _).mpr ⟨rfl, rfl⟩⟩

/-- After `(defmacro! if (fn* (& xs) 42))`, the form `(if true 1)` has the value 1, and its expansion is not
the form but 42. -/
theorem special_form_expanded :
    let macroForm : Value :=
      form .lambda [.list [.symbol "&", .symbol "xs"], .int 42]
    let c : Closure Value := ⟨1, ⟨[], some "xs"⟩, .int 42, .global, true⟩
    let before : Store := ⟨#[⟨[], none⟩], #[], 0, .silent⟩
    let σ : Store := ⟨#[⟨[("if", .closure c)], none⟩], #[], 2, .silent⟩
    let value := form .conditional [.bool true, .int 1]
    Ends .empty (·.eval (form .defineMacro [.symbol "if", macroForm]) .global) before (.ok (.closure c)) σ ∧
      Ends .empty (·.eval value .global) σ (.ok (.int 1)) σ ∧
      (∃ τ, Ends .empty (·.eval (form .macroExpand [value]) .global) σ (.ok (.int 42)) τ) ∧
      ¬ Ends .empty (·.eval (form .macroExpand [value]) .global) σ (.ok value) σ := by
  intro macroForm c before σ value
  have hdefined : Ends .empty (·.eval (form .defineMacro [.symbol "if", macroForm]) .global) before
      (.ok (.closure c)) σ := ⟨9, 9, rfl⟩
  have hone : Ends .empty (·.eval value .global) σ (.ok (.int 1)) σ := ⟨9, 9, rfl⟩
  have hexpanded : Ends .empty (·.eval (form .macroExpand [value]) .global) σ (.ok (.int 42))
      (σ.addFrame ⟨[("xs", .list [.bool true, .int 1])], some .global⟩).2 := ⟨9, 9, rfl⟩
  refine ⟨hdefined, hone, ⟨_, hexpanded⟩, fun hsame => ?_⟩
  obtain ⟨hvalue, -⟩ := hexpanded.unique (Steady.eval _ _) hsame
  exact Value.noConfusion (Except.ok.inj hvalue)

end Lisp
