import Lisp.Proofs.Trampoline

/-! What an evaluation of an application or of a sequence has gone through. -/

namespace Lisp

open SpecialForm (form)

variable {files : Files} {env : Env} {σ ρ τ : Store} {r : Except EvalError Value}

theorem exists_eval_iff {value : Value} :
    (∃ steps depth, Host.eval ⟨files, steps, depth⟩ value env σ = .of r τ) ↔
      Evaluates files value env σ r τ := by
  constructor
  · rintro ⟨steps, depth, h⟩
    exact (Host.sound files steps depth).eval h
  · intro h
    obtain ⟨k, hk⟩ := h.settles
    exact ⟨k, k, hk k k le_rfl le_rfl⟩

theorem EvaluatesAll.unique {forms : List Value} {s s' : Except EvalError (List Value)} {τ' : Store}
    (h : EvaluatesAll files forms env σ s τ) (h' : EvaluatesAll files forms env σ s' τ') :
    s' = s ∧ τ' = τ :=
  h.settles.unique h'.settles

theorem SpecialForm.form_inj {sf sf' : SpecialForm} {operands operands' : List Value}
    (h : form sf operands = form sf' operands') : sf = sf' ∧ operands = operands' := by
  obtain ⟨hhead, hoperands⟩ := List.cons.inj (Value.list.inj h)
  have hname := Value.symbol.inj hhead
  have hself : ofName? sf.name = some sf := ofName?_eq_some.mpr rfl
  rw [hname, ofName?_eq_some.mpr rfl] at hself
  exact ⟨(Option.some.inj hself).symm, hoperands⟩

/-- An evaluation goes through one step, which leads to what it ends with. -/
theorem Evaluates.leads {value : Value} (h : Evaluates files value env σ r τ) :
    ∃ ev : Evaluator, ev.Sound files ∧ (ev.step value env σ).Leads files r τ := by
  obtain ⟨k, hk⟩ := h.settles
  have heval := hk (k + 1) (k + 1) (Nat.le_succ k) (Nat.le_succ k)
  change evalWithin files (k + 1) (k + 1) value env σ = _ at heval
  rw [evalWithin_succ] at heval
  refine ⟨_, Host.sound files k k, ?_⟩
  obtain ⟨e, rfl, he⟩ | ⟨s, ρ, hs, hrest⟩ := Action.bind_eq_of.mp heval
  · rw [he]
    exact ⟨rfl, rfl⟩
  · rw [hs]
    cases s with
    | done v =>
      obtain ⟨rfl, rfl⟩ := Action.pure_eq_of.mp hrest
      exact ⟨rfl, rfl⟩
    | next value env => exact (Host.sound files k (k + 1)).eval hrest

theorem Evaluates.leads_form {sf : SpecialForm} {operands : List Value}
    (h : Evaluates files (form sf operands) env σ r τ) :
    ∃ ev : Evaluator, ev.Sound files ∧ (ev.evalSpecial sf operands env σ).Leads files r τ := by
  obtain ⟨ev, hev, h⟩ := h.leads
  rw [Evaluator.step_form] at h
  exact ⟨ev, hev, h⟩

theorem evaluates_macroExpand {value : Value} :
    Evaluates files (form .macroExpand [value]) env σ r τ ↔ Expands files value env σ r τ := by
  refine ⟨fun h => ?_, .macroExpand⟩
  obtain ⟨ev, hev, h⟩ := h.leads_form
  have hexpand : ev.expand value env σ = .of r τ := Action.leads_done.mp h
  exact hev.expandUpTo hexpand

/-- An application evaluates its head and its operands, and is a call once all of them have values. -/
theorem evaluates_application {head : Value} {operands : List Value}
    (ordinary : ∀ sf forms, .list (head :: operands) ≠ form sf forms)
    (noMacro : σ.macroCall? env (.list (head :: operands)) = none) :
    Evaluates files (.list (head :: operands)) env σ r τ ↔
      (∃ e, r = .error e ∧ Evaluates files head env σ (.error e) τ) ∨
      ∃ f ρ, Evaluates files head env σ (.ok f) ρ ∧
        ((∃ e, r = .error e ∧ EvaluatesAll files operands env ρ (.error e) τ) ∨
          ∃ args ρ', EvaluatesAll files operands env ρ (.ok args) ρ' ∧
            Applies files f args ρ' r τ) := by
  constructor
  · intro h
    generalize hcall : Value.list (head :: operands) = call at h
    cases h with
    | constant isConstant => subst hcall; cases isConstant
    | symbol | unbound | thrown | vector | map | mapFails => cases hcall
    | macroCall _ calls | macroCallFails _ calls =>
      subst hcall
      exact nomatch noMacro.symm.trans calls
    | application _ _ function arguments applied =>
      cases hcall
      exact .inr ⟨_, _, function, .inr ⟨_, _, arguments, applied⟩⟩
    | headFails _ _ fails =>
      cases hcall
      exact .inl ⟨_, rfl, fails⟩
    | argumentFails _ _ function fails =>
      cases hcall
      exact .inr ⟨_, _, function, .inl ⟨_, rfl, fails⟩⟩
    | _ => exact absurd hcall (ordinary _ _)
  · rintro (⟨e, rfl, fails⟩ | ⟨f, ρ, function, ⟨e, rfl, fails⟩ | ⟨args, ρ', arguments, applied⟩⟩)
    · exact .headFails ordinary noMacro fails
    · exact .argumentFails ordinary noMacro function fails
    · exact .application ordinary noMacro function arguments applied

theorem Evaluates.applies {head f : Value} {operands args : List Value} {ρ' : Store}
    (h : Evaluates files (.list (head :: operands)) env σ r τ)
    (ordinary : ∀ sf forms, .list (head :: operands) ≠ form sf forms)
    (noMacro : σ.macroCall? env (.list (head :: operands)) = none)
    (function : Evaluates files head env σ (.ok f) ρ)
    (arguments : EvaluatesAll files operands env ρ (.ok args) ρ') : Applies files f args ρ' r τ := by
  obtain ⟨e, -, fails⟩ | ⟨f', ρ₁, function', harguments⟩ :=
    (evaluates_application ordinary noMacro).mp h
  · exact nomatch (function.unique fails).1
  · obtain ⟨hf, rfl⟩ := function.unique function'
    obtain rfl := Except.ok.inj hf
    rcases harguments with ⟨e, -, fails⟩ | ⟨args', ρ₂, arguments', applied⟩
    · exact nomatch (arguments.unique fails).1
    · obtain ⟨hargs, rfl⟩ := arguments.unique arguments'
      obtain rfl := Except.ok.inj hargs
      exact applied

theorem Evaluates.of_sequence {forms : List Value} {last : Value}
    (h : Evaluates files (form .sequence (forms ++ [last])) env σ r τ) :
    (∃ e, r = .error e ∧ EvaluatesAll files forms env σ (.error e) τ) ∨
      ∃ values ρ, EvaluatesAll files forms env σ (.ok values) ρ ∧ Evaluates files last env ρ r τ := by
  obtain ⟨ev, hev, h⟩ := h.leads_form
  change (ev.sequence env (forms ++ [last]) σ).Leads files r τ at h
  rw [Evaluator.sequence_append] at h
  obtain ⟨e, rfl, he⟩ | ⟨values, ρ, hvalues, hlast⟩ := Action.leads_bind.mp h
  · exact .inl ⟨e, rfl, hev.evalAll he⟩
  · exact .inr ⟨values, ρ, hev.evalAll hvalues, hlast⟩

/-- The names of builtins are no names of special forms, so a list that one of them heads is a call. -/
theorem Builtin.ordinary (b : Builtin) (operands : List Value) :
    ∀ sf forms, .list (.symbol b.name :: operands) ≠ form sf forms :=
  SpecialForm.ofName?_eq_none.mp (by cases b <;> rfl)

theorem macroCall?_of_find? {name : String} {v : Value} {operands : List Value}
    (found : σ.find? env name = some v) (noMacro : v.kind ≠ .macroClosure) :
    σ.macroCall? env (.list (.symbol name :: operands)) = none := by
  cases v with
  | closure c =>
    have hc : c.isMacro = false := by
      cases hc : c.isMacro with
      | false => rfl
      | true => exact absurd (by simp [Value.kind, hc]) noMacro
    simp [Store.macroCall?, found, hc]
  | _ => simp [Store.macroCall?, found]

theorem evaluates_builtin {b : Builtin} {operands : List Value}
    (found : σ.find? env b.name = some (.function b)) :
    Evaluates files (.list (.symbol b.name :: operands)) env σ r τ ↔
      (∃ e, r = .error e ∧ EvaluatesAll files operands env σ (.error e) τ) ∨
        ∃ args ρ, EvaluatesAll files operands env σ (.ok args) ρ ∧
          Applies files (.function b) args ρ r τ := by
  have noMacro : σ.macroCall? env (.list (.symbol b.name :: operands)) = none :=
    macroCall?_of_find? found (by simp [Value.kind])
  have function : Evaluates files (.symbol b.name) env σ (.ok (.function b)) σ := .symbol found
  rw [evaluates_application (b.ordinary operands) noMacro]
  constructor
  · rintro (⟨e, -, fails⟩ | ⟨f, ρ, function', h⟩)
    · exact nomatch (function.unique fails).1
    · obtain ⟨hf, rfl⟩ := function.unique function'
      obtain rfl := Except.ok.inj hf
      exact h
  · exact fun h => .inr ⟨_, _, function, h⟩

theorem Evaluates.call_builtin {b : Builtin} {operands args : List Value}
    (found : σ.find? env b.name = some (.function b))
    (arguments : EvaluatesAll files operands env σ (.ok args) ρ)
    (applied : Applies files (.function b) args ρ r τ) :
    Evaluates files (.list (.symbol b.name :: operands)) env σ r τ :=
  (evaluates_builtin found).mpr (.inr ⟨args, ρ, arguments, applied⟩)

end Lisp
