import Lisp.Proofs.Chain
import Lisp.Proofs.Rules
import Mathlib.Order.Lattice

/-! Tail positions. There are five: the last form of `do`, the body of `let*`, the branch that `if` takes, the
expansion of a macro call, and the body of a closure that is called. A step goes on with the form in such a
position, and evaluates only what stands before it. -/

namespace Lisp

open SpecialForm (form)

/-- What forms evaluate to: a form, in an environment and a store, has a result and leaves a store. -/
abbrev EvalRelation :=
  Value → Env → Store → Except EvalError Value → Store → Prop

/-- Forms that have these values, in turn. -/
inductive HaveValues (E : EvalRelation) : List Value → Env → Store → List Value → Store → Prop
  | nil {env σ} : HaveValues E [] env σ [] σ
  | cons {form forms env σ v ρ values τ} (head : E form env σ (.ok v) ρ)
    (tail : HaveValues E forms env ρ values τ) : HaveValues E (form :: forms) env σ (v :: values) τ

/-- Names that are bound to the values of forms, in turn. -/
inductive AreBound (E : EvalRelation) (inner : Env) : List Value → Store → Store → Prop
  | nil {σ} : AreBound E inner [] σ σ
  | cons {name form bindings σ v ρ τ} (head : E form inner σ (.ok v) ρ)
    (tail : AreBound E inner bindings (ρ.bind inner name v) τ) :
    AreBound E inner (.symbol name :: form :: bindings) σ τ

/-- A form, and the form in its tail position, with the environment and the store that this one is evaluated
in. Of the first form, only what the premises name has been evaluated by then. -/
inductive TailPosition (E : EvalRelation) : Value → Env → Store → Value → Env → Store → Prop
  | sequence {forms last env σ values ρ} (first : HaveValues E forms env σ values ρ) :
    TailPosition E (form .sequence (forms ++ [last])) env σ last env ρ
  | letIn {bindings items body env inner σ σ' ρ} (isItems : bindings.items? = some items)
    (child : σ.addFrame ⟨[], some env⟩ = (inner, σ')) (bound : AreBound E inner items σ' ρ) :
    TailPosition E (form .letIn [bindings, body]) env σ body inner ρ
  | thenPart {condition thenForm rest env σ v ρ} (few : rest.length ≤ 1)
    (chosen : E condition env σ (.ok v) ρ) (truthy : v.isTruthy = true) :
    TailPosition E (form .conditional (condition :: thenForm :: rest)) env σ thenForm env ρ
  | elsePart {condition thenForm elseForm env σ v ρ} (chosen : E condition env σ (.ok v) ρ)
    (falsy : v.isTruthy = false) :
    TailPosition E (form .conditional [condition, thenForm, elseForm]) env σ elseForm env ρ
  | macroCall {call env σ c operands frame inner σ' expansion ρ}
    (ordinary : ∀ sf forms, call ≠ form sf forms) (calls : σ.macroCall? env call = some (c, operands))
    (bound : c.params.frame c.env operands = .ok frame) (entered : σ.addFrame frame = (inner, σ'))
    (expanded : E c.body inner σ' (.ok expansion) ρ) : TailPosition E call env σ expansion env ρ
  | application {head operands env σ c ρ args ρ' frame inner τ}
    (ordinary : ∀ sf forms, .list (head :: operands) ≠ form sf forms)
    (noMacro : σ.macroCall? env (.list (head :: operands)) = none)
    (function : E head env σ (.ok (.closure c)) ρ) (arguments : HaveValues E operands env ρ args ρ')
    (bound : c.params.frame c.env args = .ok frame) (entered : ρ'.addFrame frame = (inner, τ)) :
    TailPosition E (.list (head :: operands)) env σ c.body inner τ

section

variable {E E' : EvalRelation} {env inner env' : Env} {σ ρ τ : Store} {value tail : Value}
  {forms values items : List Value}

theorem HaveValues.mono (hle : E ≤ E') (h : HaveValues E forms env σ values τ) :
    HaveValues E' forms env σ values τ := by
  induction h with
  | nil => exact .nil
  | cons head _ ih => exact .cons (hle _ _ _ _ _ head) ih

theorem AreBound.mono (hle : E ≤ E') (h : AreBound E inner items σ τ) : AreBound E' inner items σ τ := by
  induction h with
  | nil => exact .nil
  | cons head _ ih => exact .cons (hle _ _ _ _ _ head) ih

theorem AreBound.even (h : AreBound E inner items σ τ) : items.length % 2 = 0 := by
  induction h with
  | nil => rfl
  | cons _ _ ih =>
    simp only [List.length_cons]
    omega

theorem TailPosition.mono (hle : E ≤ E') (h : TailPosition E value env σ tail env' ρ) :
    TailPosition E' value env σ tail env' ρ := by
  cases h with
  | sequence first => exact .sequence (first.mono hle)
  | letIn isItems child bound => exact .letIn isItems child (bound.mono hle)
  | thenPart few chosen truthy => exact .thenPart few (hle _ _ _ _ _ chosen) truthy
  | elsePart chosen falsy => exact .elsePart (hle _ _ _ _ _ chosen) falsy
  | macroCall ordinary calls bound entered expanded =>
    exact .macroCall ordinary calls bound entered (hle _ _ _ _ _ expanded)
  | application ordinary noMacro function arguments bound entered =>
    exact .application ordinary noMacro (hle _ _ _ _ _ function) (arguments.mono hle) bound entered

end

/-! What is evaluated before a tail position is finitely much. So of evaluations that give more and more, one
gives all of it. -/

section

variable {E : Nat → EvalRelation} (hE : Monotone E) {env inner env' : Env} {σ ρ τ : Store}
  {value tail : Value} {forms values items : List Value}

include hE

theorem exists_result_and {form : Value} {r : Except EvalError Value} {P : Nat → Prop} (hP : Monotone P)
    (result : ∃ n, E n form env σ r ρ) (other : ∃ n, P n) : ∃ n, E n form env σ r ρ ∧ P n := by
  have hresult : Monotone fun n => E n form env σ r ρ := fun _ _ hle h => hE hle _ _ _ _ _ h
  exact (exists_and_iff_of_monotone hresult hP).mp ⟨result, other⟩

theorem HaveValues.exists_of_exists
    (h : HaveValues (fun form env σ r τ => ∃ n, E n form env σ r τ) forms env σ values τ) :
    ∃ n, HaveValues (E n) forms env σ values τ := by
  induction h with
  | nil => exact ⟨0, .nil⟩
  | cons head _ ih =>
    obtain ⟨n, hhead, htail⟩ := exists_result_and hE (fun _ _ hle h => h.mono (hE hle)) head ih
    exact ⟨n, .cons hhead htail⟩

theorem AreBound.exists_of_exists
    (h : AreBound (fun form env σ r τ => ∃ n, E n form env σ r τ) inner items σ τ) :
    ∃ n, AreBound (E n) inner items σ τ := by
  induction h with
  | nil => exact ⟨0, .nil⟩
  | cons head _ ih =>
    obtain ⟨n, hhead, htail⟩ := exists_result_and hE (fun _ _ hle h => h.mono (hE hle)) head ih
    exact ⟨n, .cons hhead htail⟩

theorem TailPosition.exists_of_exists
    (h : TailPosition (fun form env σ r τ => ∃ n, E n form env σ r τ) value env σ tail env' ρ) :
    ∃ n, TailPosition (E n) value env σ tail env' ρ := by
  cases h with
  | sequence first =>
    obtain ⟨n, hn⟩ := first.exists_of_exists hE
    exact ⟨n, .sequence hn⟩
  | letIn isItems child bound =>
    obtain ⟨n, hn⟩ := bound.exists_of_exists hE
    exact ⟨n, .letIn isItems child hn⟩
  | thenPart few chosen truthy =>
    obtain ⟨n, hn⟩ := chosen
    exact ⟨n, .thenPart few hn truthy⟩
  | elsePart chosen falsy =>
    obtain ⟨n, hn⟩ := chosen
    exact ⟨n, .elsePart hn falsy⟩
  | macroCall ordinary calls bound entered expanded =>
    obtain ⟨n, hn⟩ := expanded
    exact ⟨n, .macroCall ordinary calls bound entered hn⟩
  | application ordinary noMacro function arguments bound entered =>
    obtain ⟨n, hfunction, harguments⟩ := exists_result_and hE (fun _ _ hle h => h.mono (hE hle))
      function (arguments.exists_of_exists hE)
    exact ⟨n, .application ordinary noMacro hfunction harguments bound entered⟩

end

/-- An action that does not go on with a form. -/
def Action.Stops (x : Action Step) : Prop :=
  ∀ ⦃σ value env τ⦄, x σ ≠ .of (.ok (.next value env)) τ

namespace Action.Stops

theorem done (v : Value) : Stops (pure (.done v)) := by
  intro σ value env τ h
  obtain ⟨h, -⟩ := pure_eq_of.mp h
  cases h

theorem fail (e : EvalError) : Stops (.fail e) := by
  intro σ value env τ h
  obtain ⟨h, -⟩ := fail_eq_of.mp h
  cases h

theorem bind {α : Type} {x : Action α} {f : α → Action Step} (hf : ∀ a, Stops (f a)) :
    Stops (x >>= f) := by
  intro σ value env τ h
  obtain ⟨a, ρ, -, h⟩ := bind_eq_ok.mp h
  exact hf a h

end Action.Stops

namespace Env

variable {env inner : Env} {σ τ : Store}

theorem child_eq_ok : env.child σ = .of (.ok inner) τ ↔ σ.addFrame ⟨[], some env⟩ = (inner, τ) := by
  rw [child, Action.update_eq_of, Except.ok.injEq, Prod.ext_iff, eq_comm, @eq_comm _ τ]

theorem enter_eq_ok {params : Params} {args : List Value} :
    env.enter params args σ = .of (.ok inner) τ ↔
      ∃ frame, params.frame env args = .ok frame ∧ σ.addFrame frame = (inner, τ) := by
  rw [enter_apply]
  cases params.frame env args with
  | ok frame => simp [Outcome.of, Prod.ext_iff]
  | error e => simp

end Env

namespace Evaluator

variable (ev : Evaluator)

/-- What an evaluator has forms evaluate to. -/
def Evaluated : EvalRelation :=
  fun form env σ r τ => ev.eval form env σ = .of r τ

variable {ev} {env inner env' : Env} {σ ρ τ : Store} {value tail : Value}
  {forms values items operands : List Value}

theorem evalAll_eq_ok :
    ev.evalAll forms env σ = .of (.ok values) τ ↔ HaveValues ev.Evaluated forms env σ values τ := by
  constructor
  · intro h
    induction forms generalizing σ values with
    | nil =>
      obtain ⟨hvalues, rfl⟩ := Action.pure_eq_of.mp h
      cases hvalues
      exact .nil
    | cons form forms ih =>
      rw [evalAll_cons] at h
      obtain ⟨v, ρ, hv, h⟩ := Action.bind_eq_ok.mp h
      obtain ⟨rest, τ, hrest, h⟩ := Action.bind_eq_ok.mp h
      obtain ⟨hvalues, rfl⟩ := Action.pure_eq_of.mp h
      cases hvalues
      exact .cons hv (ih hrest)
  · intro h
    induction h with
    | nil => rfl
    | cons head _ ih =>
      rw [evalAll_cons, Action.bind_of_ok head, Action.bind_of_ok ih]
      rfl

theorem bindAll_of_areBound (h : AreBound ev.Evaluated inner items σ τ) :
    ev.bindAll inner items σ = .of (.ok ()) τ := by
  induction h with
  | nil => rfl
  | cons head _ ih =>
    rw [bindAll]
    change (ev.eval _ inner >>= _) _ = _
    rw [Action.bind_of_ok head]
    exact ih

theorem areBound_of_bindAll : {items : List Value} → {σ : Store} → items.length % 2 = 0 →
    ev.bindAll inner items σ = .of (.ok ()) τ → AreBound ev.Evaluated inner items σ τ
  | [], σ, _, h => by
    obtain ⟨-, rfl⟩ := Action.pure_eq_of.mp h
    exact .nil
  | [_], _, even, _ => by simp at even
  | name :: form :: items, σ, even, h => by
    cases hname : name.symbolName? with
    | none =>
      rw [bindAll, SpecialForm.boundName_of_none hname] at h
      cases (Action.fail_eq_of.mp h).1
    | some s =>
      obtain rfl := Value.symbolName?_eq_some.mp hname
      rw [bindAll] at h
      change (ev.eval form inner >>= _) σ = _ at h
      obtain ⟨v, ρ, hv, h⟩ := Action.bind_eq_ok.mp h
      have heven : items.length % 2 = 0 := by
        simp only [List.length_cons] at even
        omega
      exact .cons hv (areBound_of_bindAll heven h)

theorem step_stops (noCall : ∀ head operands, value ≠ .list (head :: operands)) (env : Env) :
    (ev.step value env).Stops := by
  match value with
  | .list (head :: operands) => exact absurd rfl (noCall head operands)
  | .symbol _ | .vector _ => exact .bind fun v => .done _
  | .map _ => exact .bind fun entries => .bind fun v => .done v
  | .error message => exact .fail (.thrown message)
  | .list [] | .int _ | .bool _ | .nil | .eof | .keyword _ | .str _ | .function _ | .closure _
  | .atom _ => exact .done _

theorem define_stops (operands : List Value) (env : Env) : (ev.define operands env).Stops := by
  unfold define
  split
  · exact .bind fun name => .bind fun v => .bind fun _ => .done v
  · exact .fail _

theorem defineMacro_stops (operands : List Value) (env : Env) :
    (ev.defineMacro operands env).Stops := by
  unfold defineMacro
  split
  · refine .bind fun name => .bind fun v => ?_
    split
    · exact .bind fun c => .bind fun _ => .done _
    · exact .fail _
  · exact .fail _

theorem makeClosure_stops (operands : List Value) (env : Env) : (makeClosure operands env).Stops := by
  unfold makeClosure
  split
  · split
    · exact .bind fun params => .bind fun c => .done _
    · exact .fail _
  · exact .fail _

theorem sequence_next (h : ev.sequence env operands σ = .of (.ok (.next tail env')) ρ) :
    TailPosition ev.Evaluated (form .sequence operands) env σ tail env' ρ := by
  obtain rfl | ⟨forms, last, rfl⟩ := List.eq_nil_or_concat' operands
  · exact (Action.Stops.done .nil h).elim
  · rw [sequence_append] at h
    obtain ⟨values, ρ, hvalues, h⟩ := Action.bind_eq_ok.mp h
    obtain ⟨hnext, rfl⟩ := Action.pure_eq_of.mp h
    cases hnext
    exact .sequence (evalAll_eq_ok.mp hvalues)

theorem letIn_next (h : ev.letIn operands env σ = .of (.ok (.next tail env')) ρ) :
    TailPosition ev.Evaluated (form .letIn operands) env σ tail env' ρ := by
  match operands with
  | [bindings, body] =>
    cases hitems : bindings.items? with
    | none =>
      simp only [letIn, hitems] at h
      exact (Action.Stops.fail _ h).elim
    | some items =>
      by_cases odd : items.length % 2 = 1
      · simp only [letIn, hitems, if_pos odd] at h
        exact (Action.Stops.fail _ h).elim
      · have even : items.length % 2 = 0 := by omega
        rw [letIn_eq hitems even] at h
        obtain ⟨inner, σ', hchild, h⟩ := Action.bind_eq_ok.mp h
        obtain ⟨_, τ, hbound, h⟩ := Action.bind_eq_ok.mp h
        obtain ⟨hnext, rfl⟩ := Action.pure_eq_of.mp h
        cases hnext
        exact .letIn hitems (Env.child_eq_ok.mp hchild) (areBound_of_bindAll even hbound)
  | [] | [_] | _ :: _ :: _ :: _ => exact (Action.Stops.fail _ h).elim

theorem conditional_next (h : ev.conditional operands env σ = .of (.ok (.next tail env')) ρ) :
    TailPosition ev.Evaluated (form .conditional operands) env σ tail env' ρ := by
  match operands with
  | [condition, thenForm] =>
    obtain ⟨v, ρ, hv, h⟩ := Action.bind_eq_ok.mp h
    obtain ⟨hnext, rfl⟩ := Action.pure_eq_of.mp h
    cases ht : v.isTruthy with
    | true =>
      rw [ht] at hnext
      cases hnext
      exact .thenPart (Nat.zero_le 1) hv ht
    | false =>
      rw [ht] at hnext
      cases hnext
  | [condition, thenForm, elseForm] =>
    obtain ⟨v, ρ, hv, h⟩ := Action.bind_eq_ok.mp h
    obtain ⟨hnext, rfl⟩ := Action.pure_eq_of.mp h
    cases ht : v.isTruthy with
    | true =>
      rw [ht] at hnext
      cases hnext
      exact .thenPart le_rfl hv ht
    | false =>
      rw [ht] at hnext
      cases hnext
      exact .elsePart hv ht
  | [] | [_] | _ :: _ :: _ :: _ :: _ => exact (Action.Stops.fail _ h).elim

/-- Three of the special forms have a tail position. -/
theorem evalSpecial_next {sf : SpecialForm}
    (h : ev.evalSpecial sf operands env σ = .of (.ok (.next tail env')) ρ) :
    TailPosition ev.Evaluated (form sf operands) env σ tail env' ρ := by
  cases sf with
  | sequence => exact sequence_next h
  | letIn => exact letIn_next h
  | conditional => exact conditional_next h
  | define => exact (define_stops operands env h).elim
  | defineMacro => exact (defineMacro_stops operands env h).elim
  | lambda => exact (makeClosure_stops operands env h).elim
  | quote =>
    match operands with
    | [form] => exact (Action.Stops.done form h).elim
    | [] | _ :: _ :: _ => exact (Action.Stops.fail _ h).elim
  | quasiquote | macroExpand =>
    match operands with
    | [form] => exact (Action.Stops.bind (fun v => .done v) h).elim
    | [] | _ :: _ :: _ => exact (Action.Stops.fail _ h).elim

theorem enterCall_next {f : Value} {args : List Value}
    (h : ev.enterCall f args σ = .of (.ok (.next tail env')) ρ) :
    ∃ c frame, f = .closure c ∧ tail = c.body ∧ c.params.frame c.env args = .ok frame ∧
      σ.addFrame frame = (env', ρ) := by
  cases f with
  | closure c =>
    obtain ⟨inner, τ, hinner, h⟩ := Action.bind_eq_ok.mp h
    obtain ⟨hnext, rfl⟩ := Action.pure_eq_of.mp h
    cases hnext
    obtain ⟨frame, hframe, hentered⟩ := Env.enter_eq_ok.mp hinner
    exact ⟨c, frame, rfl, rfl, hframe, hentered⟩
  | function b => exact (Action.Stops.bind (fun v => .done v) h).elim
  | _ => exact (Action.Stops.fail _ h).elim

theorem macroCall_next {call : Value} {c : Closure Value} (ordinary : ∀ sf forms, call ≠ form sf forms)
    (calls : σ.macroCall? env call = some (c, operands))
    (h : ev.step call env σ = .of (.ok (.next tail env')) ρ) :
    TailPosition ev.Evaluated call env σ tail env' ρ := by
  rw [step_macroCall ordinary calls, applyClosure, bind_assoc] at h
  obtain ⟨inner, σ', hinner, h⟩ := Action.bind_eq_ok.mp h
  obtain ⟨expansion, τ, hexpansion, h⟩ := Action.bind_eq_ok.mp h
  obtain ⟨hnext, rfl⟩ := Action.pure_eq_of.mp h
  cases hnext
  obtain ⟨frame, hframe, hentered⟩ := Env.enter_eq_ok.mp hinner
  exact .macroCall ordinary calls hframe hentered hexpansion

theorem application_next {head : Value}
    (ordinary : ∀ sf forms, .list (head :: operands) ≠ form sf forms)
    (noMacro : σ.macroCall? env (.list (head :: operands)) = none)
    (h : ev.step (.list (head :: operands)) env σ = .of (.ok (.next tail env')) ρ) :
    TailPosition ev.Evaluated (.list (head :: operands)) env σ tail env' ρ := by
  rw [step_application ordinary noMacro] at h
  obtain ⟨f, σ', hf, h⟩ := Action.bind_eq_ok.mp h
  obtain ⟨args, τ, hargs, h⟩ := Action.bind_eq_ok.mp h
  obtain ⟨c, frame, rfl, rfl, hframe, hentered⟩ := enterCall_next h
  exact .application ordinary noMacro hf (evalAll_eq_ok.mp hargs) hframe hentered

theorem tailPosition_of_step (h : ev.step value env σ = .of (.ok (.next tail env')) ρ) :
    TailPosition ev.Evaluated value env σ tail env' ρ := by
  by_cases noCall : ∀ head operands, value ≠ .list (head :: operands)
  · exact (step_stops noCall env h).elim
  simp only [not_forall, not_not] at noCall
  obtain ⟨head, operands, rfl⟩ := noCall
  by_cases special : ∃ sf forms, .list (head :: operands) = form sf forms
  · obtain ⟨sf, forms, heq⟩ := special
    rw [heq, step_form] at h
    rw [heq]
    exact evalSpecial_next h
  · have ordinary sf forms : .list (head :: operands) ≠ form sf forms :=
      fun heq => special ⟨sf, forms, heq⟩
    cases hcall : σ.macroCall? env (.list (head :: operands)) with
    | some call => exact macroCall_next ordinary hcall h
    | none => exact application_next ordinary hcall h

theorem conditional_of_truthy {condition thenForm v : Value} {rest : List Value} (few : rest.length ≤ 1)
    (chosen : ev.eval condition env σ = .of (.ok v) ρ) (truthy : v.isTruthy = true) :
    ev.conditional (condition :: thenForm :: rest) env σ = .of (.ok (.next thenForm env)) ρ := by
  match rest with
  | [] | [_] =>
    rw [conditional, Action.bind_of_ok chosen, truthy]
    rfl
  | _ :: _ :: _ => simp at few

theorem step_of_tailPosition (h : TailPosition ev.Evaluated value env σ tail env' ρ) :
    ev.step value env σ = .of (.ok (.next tail env')) ρ := by
  cases h with
  | sequence first =>
    rw [step_form, evalSpecial, sequence_append, Action.bind_of_ok (evalAll_eq_ok.mpr first)]
    rfl
  | letIn isItems child bound =>
    rw [step_form, evalSpecial, letIn_eq isItems bound.even,
      Action.bind_of_ok (Env.child_eq_ok.mpr child), Action.bind_of_ok (bindAll_of_areBound bound)]
    rfl
  | thenPart few chosen truthy =>
    rw [step_form, evalSpecial, conditional_of_truthy few chosen truthy]
  | elsePart chosen falsy =>
    rw [step_form, evalSpecial, conditional, Action.bind_of_ok chosen, falsy]
    rfl
  | macroCall ordinary calls bound entered expanded =>
    have henter := Env.enter_eq_ok.mpr ⟨_, bound, entered⟩
    rw [step_macroCall ordinary calls, applyClosure, bind_assoc, Action.bind_of_ok henter,
      Action.bind_of_ok expanded]
    rfl
  | application ordinary noMacro function arguments bound entered =>
    have henter := Env.enter_eq_ok.mpr ⟨_, bound, entered⟩
    rw [step_application ordinary noMacro, Action.bind_of_ok function,
      Action.bind_of_ok (evalAll_eq_ok.mpr arguments), enterCall, Action.bind_of_ok henter]
    rfl

/-- The steps that go on with a form are those of forms with a tail position. -/
theorem step_eq_next :
    ev.step value env σ = .of (.ok (.next tail env')) ρ ↔
      TailPosition ev.Evaluated value env σ tail env' ρ :=
  ⟨tailPosition_of_step, step_of_tailPosition⟩

end Evaluator

end Lisp
