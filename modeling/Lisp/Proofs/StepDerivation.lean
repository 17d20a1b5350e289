import Lisp.Proofs.Derivation

/-! Evaluation in steps is derived: a step leads to what is derived for its form, and so does a
run of steps. -/

namespace Lisp

open SpecialForm (form)

namespace Evaluator

namespace Sound

variable {files : Files} {ev : Evaluator} {env : Env} {σ τ : Store} {operands : List Value}
  {r : Except EvalError Value}

theorem malformed {sf : SpecialForm} {e : EvalError} (bad : Malformed sf operands e)
    (h : (ev.evalSpecial sf operands env σ).Leads files r τ) :
    Evaluates files (form sf operands) env σ r τ := by
  rw [evalSpecial_malformed bad] at h
  obtain ⟨rfl, rfl⟩ := h
  exact .malformed bad

theorem define (hev : ev.Sound files)
    (h : (ev.evalSpecial .define operands env σ).Leads files r τ) :
    Evaluates files (form .define operands) env σ r τ := by
  match operands with
  | [name, value] =>
    cases hname : name.symbolName? with
    | none => exact malformed (.definedName (.inl rfl) hname) h
    | some s =>
      obtain rfl := Value.symbolName?_eq_some.mp hname
      change ((ev.eval value env >>= _) σ).Leads files r τ at h
      obtain ⟨e, rfl, he⟩ | ⟨v, ρ, hv, h⟩ := Action.leads_bind.mp h
      · have hfails := hev.eval he
        exact .defineFails hfails
      · have hvalue := hev.eval hv
        obtain ⟨rfl, rfl⟩ := h
        exact .define hvalue
  | [] | [_] | _ :: _ :: _ :: _ => exact malformed (.count (by simp [SpecialForm.Takes])) h

theorem defineMacro (hev : ev.Sound files)
    (h : (ev.evalSpecial .defineMacro operands env σ).Leads files r τ) :
    Evaluates files (form .defineMacro operands) env σ r τ := by
  match operands with
  | [name, value] =>
    cases hname : name.symbolName? with
    | none => exact malformed (.definedName (.inr rfl) hname) h
    | some s =>
      obtain rfl := Value.symbolName?_eq_some.mp hname
      change ((ev.eval value env >>= _) σ).Leads files r τ at h
      obtain ⟨e, rfl, he⟩ | ⟨v, ρ, hv, h⟩ := Action.leads_bind.mp h
      · have hfails := hev.eval he
        exact .defineMacroFails hfails
      · have hvalue := hev.eval hv
        cases v with
        | closure c =>
          obtain ⟨rfl, rfl⟩ := h
          exact .defineMacro hvalue rfl
        | _ =>
          obtain ⟨rfl, rfl⟩ := h
          exact .macroNoClosure hvalue nofun
  | [] | [_] | _ :: _ :: _ :: _ => exact malformed (.count (by simp [SpecialForm.Takes])) h

theorem letIn (hev : ev.Sound files) (h : (ev.evalSpecial .letIn operands env σ).Leads files r τ) :
    Evaluates files (form .letIn operands) env σ r τ := by
  match operands with
  | [bindings, body] =>
    cases hitems : bindings.items? with
    | none => exact malformed (.bindings hitems) h
    | some items =>
      by_cases odd : items.length % 2 = 1
      · exact malformed (.oddBindings hitems odd) h
      · have even : items.length % 2 = 0 := by omega
        change ((ev.letIn [bindings, body] env) σ).Leads files r τ at h
        rw [letIn_eq hitems even] at h
        have hbind : ((ev.bindAll (σ.addFrame ⟨[], some env⟩).1 items >>=
            fun _ => pure (.next body (σ.addFrame ⟨[], some env⟩).1))
            (σ.addFrame ⟨[], some env⟩).2).Leads files r τ := h
        obtain ⟨e, rfl, he⟩ | ⟨_, ρ, hb, h⟩ := Action.leads_bind.mp hbind
        · have hfails := hev.bindAll even he
          exact .letInFails hitems even rfl hfails
        · have hbound := hev.bindAll even hb
          exact .letIn hitems even rfl hbound h
  | [] | [_] | _ :: _ :: _ :: _ => exact malformed (.count (by simp [SpecialForm.Takes])) h

theorem sequence (hev : ev.Sound files)
    (h : (ev.evalSpecial .sequence operands env σ).Leads files r τ) :
    Evaluates files (form .sequence operands) env σ r τ := by
  change (ev.sequence env operands σ).Leads files r τ at h
  obtain rfl | ⟨forms, last, rfl⟩ := List.eq_nil_or_concat' operands
  · obtain ⟨rfl, rfl⟩ := h
    exact .emptySequence
  · rw [sequence_append] at h
    obtain ⟨e, rfl, he⟩ | ⟨_, ρ, hf, h⟩ := Action.leads_bind.mp h
    · have hfails := hev.evalAll he
      exact .sequenceFails hfails
    · have hfirst := hev.evalAll hf
      exact .sequence hfirst h

theorem conditional (hev : ev.Sound files)
    (h : (ev.evalSpecial .conditional operands env σ).Leads files r τ) :
    Evaluates files (form .conditional operands) env σ r τ := by
  match operands with
  | [condition, thenForm] =>
    obtain ⟨e, rfl, he⟩ | ⟨v, ρ, hv, h⟩ := Action.leads_bind.mp h
    · have hfails := hev.eval he
      exact .conditionFails (by simp) hfails
    · have hchosen := hev.eval hv
      cases ht : v.isTruthy with
      | true =>
        rw [ht] at h
        exact .thenPart (by simp) hchosen ht h
      | false =>
        rw [ht] at h
        obtain ⟨rfl, rfl⟩ := h
        exact .noElse hchosen ht
  | [condition, thenForm, elseForm] =>
    obtain ⟨e, rfl, he⟩ | ⟨v, ρ, hv, h⟩ := Action.leads_bind.mp h
    · have hfails := hev.eval he
      exact .conditionFails (by simp) hfails
    · have hchosen := hev.eval hv
      cases ht : v.isTruthy with
      | true =>
        rw [ht] at h
        exact .thenPart (by simp) hchosen ht h
      | false =>
        rw [ht] at h
        exact .elsePart hchosen ht h
  | [] | [_] | _ :: _ :: _ :: _ :: _ => exact malformed (.count (by simp [SpecialForm.Takes])) h

theorem lambda (h : (ev.evalSpecial .lambda operands env σ).Leads files r τ) :
    Evaluates files (form .lambda operands) env σ r τ := by
  match operands with
  | [params, body] =>
    cases hitems : params.items? with
    | none => exact malformed (.params hitems) h
    | some items =>
      cases hparsed : Params.parse items with
      | error e => exact malformed (.param hitems hparsed) h
      | ok parsed =>
        change ((makeClosure [params, body] env) σ).Leads files r τ at h
        rw [makeClosure_eq hitems hparsed] at h
        obtain ⟨rfl, rfl⟩ := h
        exact .lambda hitems hparsed rfl
  | [] | [_] | _ :: _ :: _ :: _ => exact malformed (.count (by simp [SpecialForm.Takes])) h

theorem quote (h : (ev.evalSpecial .quote operands env σ).Leads files r τ) :
    Evaluates files (form .quote operands) env σ r τ := by
  match operands with
  | [value] =>
    obtain ⟨rfl, rfl⟩ := h
    exact .quote
  | [] | _ :: _ :: _ => exact malformed (.count (by simp [SpecialForm.Takes])) h

theorem quasiquote (hev : ev.Sound files)
    (h : (ev.evalSpecial .quasiquote operands env σ).Leads files r τ) :
    Evaluates files (form .quasiquote operands) env σ r τ := by
  match operands with
  | [template] =>
    have hfill : ev.fill env template σ = .of r τ := Action.leads_done.mp h
    have hfilled := hev.fill template hfill
    exact .quasiquote hfilled
  | [] | _ :: _ :: _ => exact malformed (.count (by simp [SpecialForm.Takes])) h

theorem macroExpand (hev : ev.Sound files)
    (h : (ev.evalSpecial .macroExpand operands env σ).Leads files r τ) :
    Evaluates files (form .macroExpand operands) env σ r τ := by
  match operands with
  | [value] =>
    have hexpand : ev.expandUpTo env ev.patience value σ = .of r τ := Action.leads_done.mp h
    have hexpanded := hev.expandUpTo hexpand
    exact .macroExpand hexpanded
  | [] | _ :: _ :: _ => exact malformed (.count (by simp [SpecialForm.Takes])) h

theorem evalSpecial (hev : ev.Sound files) {sf : SpecialForm}
    (h : (ev.evalSpecial sf operands env σ).Leads files r τ) :
    Evaluates files (form sf operands) env σ r τ := by
  cases sf with
  | define => exact hev.define h
  | letIn => exact hev.letIn h
  | sequence => exact hev.sequence h
  | conditional => exact hev.conditional h
  | lambda => exact lambda h
  | quote => exact quote h
  | quasiquote => exact hev.quasiquote h
  | defineMacro => exact hev.defineMacro h
  | macroExpand => exact hev.macroExpand h

theorem enterCall (hev : ev.Sound files) {f : Value} {args : List Value}
    (h : (ev.enterCall f args σ).Leads files r τ) : Applies files f args σ r τ := by
  cases f with
  | closure c =>
    unfold Evaluator.enterCall Env.enter at h
    cases hframe : c.params.frame c.env args with
    | error e =>
      simp only [hframe] at h
      obtain ⟨rfl, rfl⟩ := h
      exact .closureFails hframe
    | ok frame =>
      simp only [hframe] at h
      exact .closure hframe rfl h
  | function b =>
    have hcall : ev.apply (.function b) args σ = .of r τ := Action.leads_done.mp h
    exact hev.apply hcall
  | _ =>
    obtain ⟨rfl, rfl⟩ := h
    exact .noFunction nofun nofun

theorem macroCall (hev : ev.Sound files) {call : Value} {c : Closure Value}
    (ordinary : ∀ sf forms, call ≠ form sf forms)
    (calls : σ.macroCall? env call = some (c, operands))
    (h : (ev.step call env σ).Leads files r τ) : Evaluates files call env σ r τ := by
  rw [step_macroCall ordinary calls] at h
  obtain ⟨e, rfl, he⟩ | ⟨expansion, ρ, hx, h⟩ := Action.leads_bind.mp h
  · have hfails := hev.applyClosure he
    exact .macroCallFails ordinary calls hfails
  · have hexpansion := hev.applyClosure hx
    exact .macroCall ordinary calls hexpansion h

theorem application (hev : ev.Sound files) {head : Value}
    (ordinary : ∀ sf forms, .list (head :: operands) ≠ form sf forms)
    (noMacro : σ.macroCall? env (.list (head :: operands)) = none)
    (h : (ev.step (.list (head :: operands)) env σ).Leads files r τ) :
    Evaluates files (.list (head :: operands)) env σ r τ := by
  rw [step_application ordinary noMacro] at h
  obtain ⟨e, rfl, he⟩ | ⟨f, ρ, hf, h⟩ := Action.leads_bind.mp h
  · have hfails := hev.eval he
    exact .headFails ordinary noMacro hfails
  · have hfunction := hev.eval hf
    obtain ⟨e, rfl, he⟩ | ⟨args, ρ', hargs, h⟩ := Action.leads_bind.mp h
    · have hfails := hev.evalAll he
      exact .argumentFails ordinary noMacro hfunction hfails
    · have harguments := hev.evalAll hargs
      have happlied := hev.enterCall h
      exact .application ordinary noMacro hfunction harguments happlied

theorem list (hev : ev.Sound files) {head : Value}
    (h : (ev.step (.list (head :: operands)) env σ).Leads files r τ) :
    Evaluates files (.list (head :: operands)) env σ r τ := by
  by_cases special : ∃ sf forms, .list (head :: operands) = form sf forms
  · obtain ⟨sf, forms, heq⟩ := special
    rw [heq, step_form] at h
    rw [heq]
    exact hev.evalSpecial h
  · have ordinary sf forms : .list (head :: operands) ≠ form sf forms :=
      fun heq => special ⟨sf, forms, heq⟩
    cases hcall : σ.macroCall? env (.list (head :: operands)) with
    | some call => exact hev.macroCall ordinary hcall h
    | none => exact hev.application ordinary hcall h

theorem symbol {name : String} (h : (ev.step (.symbol name) env σ).Leads files r τ) :
    Evaluates files (.symbol name) env σ r τ := by
  have hlookup : env.lookup name σ = .of r τ := Action.leads_done.mp h
  rw [Env.lookup_apply] at hlookup
  cases hfind : σ.find? env name with
  | some v =>
    rw [hfind] at hlookup
    obtain ⟨rfl, rfl⟩ := Outcome.value_eq_of.mp hlookup
    exact .symbol hfind
  | none =>
    rw [hfind] at hlookup
    obtain ⟨rfl, rfl⟩ := Outcome.failure_eq_of.mp hlookup
    exact .unbound hfind

theorem vector (hev : ev.Sound files) {items : List Value}
    (h : (ev.step (.vector items) env σ).Leads files r τ) :
    Evaluates files (.vector items) env σ r τ := by
  obtain ⟨e, rfl, he⟩ | ⟨values, ρ, hvalues, h⟩ := Action.leads_bind.mp h
  · have hfails := hev.evalAll he
    exact .vector hfails
  · have hall := hev.evalAll hvalues
    obtain ⟨rfl, rfl⟩ := h
    exact .vector hall

theorem map (hev : ev.Sound files) {entries : List (Value × Value)}
    (h : (ev.step (.map entries) env σ).Leads files r τ) :
    Evaluates files (.map entries) env σ r τ := by
  rw [step_map] at h
  obtain ⟨e, rfl, he⟩ | ⟨values, ρ, hvalues, h⟩ := Action.leads_bind.mp h
  · have hfails := hev.evalAll he
    exact .mapFails hfails
  · have hall := hev.evalAll hvalues
    have hmap := Action.leads_done.mp h
    obtain ⟨es, hes, rfl, rfl⟩ := mapOf_eq_of.mp hmap
    exact .map hall ⟨_, hes⟩

theorem step (hev : ev.Sound files) {value : Value} (h : (ev.step value env σ).Leads files r τ) :
    Evaluates files value env σ r τ := by
  match value with
  | .list (head :: operands) => exact hev.list h
  | .symbol name => exact symbol h
  | .vector items => exact hev.vector h
  | .map entries => exact hev.map h
  | .error message =>
    obtain ⟨rfl, rfl⟩ := h
    exact .thrown
  | .list [] | .int _ | .bool _ | .nil | .eof | .keyword _ | .str _
  | .function _ | .closure _ | .atom _ =>
    obtain ⟨rfl, rfl⟩ := h
    exact .constant trivial

/-- A step of one evaluator, and what another goes on with after it. -/
theorem finish {next : Evaluator} (hev : ev.Sound files) (hnext : next.Sound files) {value : Value}
    (h : (ev.step value env >>= next.finish) σ = .of r τ) : Evaluates files value env σ r τ := by
  refine hev.step ?_
  obtain ⟨e, rfl, he⟩ | ⟨s, ρ, hs, h⟩ := Action.bind_eq_of.mp h
  · rw [he]
    exact ⟨rfl, rfl⟩
  · rw [hs]
    cases s with
    | done v =>
      obtain ⟨rfl, rfl⟩ := Action.pure_eq_of.mp h
      exact ⟨rfl, rfl⟩
    | next value env => exact hnext.eval h

end Sound

end Evaluator

theorem Host.sound (files : Files) (steps depth : Nat) :
    (Host.evaluator ⟨files, steps, depth⟩).Sound files := by
  induction steps generalizing depth with
  | zero => exact ⟨rfl, fun h => absurd h (Outcome.halted_ne_of _)⟩
  | succ steps ih =>
    cases depth with
    | zero => exact ⟨rfl, fun h => absurd h (Outcome.halted_ne_of _)⟩
    | succ depth =>
      refine ⟨rfl, fun {value env σ r τ} h => ?_⟩
      change evalWithin files (steps + 1) (depth + 1) value env σ = _ at h
      rw [evalWithin_succ] at h
      exact (ih depth).finish (ih (depth + 1)) h

end Lisp
