import Lisp.Proofs.Calling

/-! What the rules of evaluation say, as equations: which forms they see as names, marks and
macro calls, and how they go through lists. -/

namespace Lisp

theorem Value.symbolName?_eq_some {v : Value} {name : String} :
    v.symbolName? = some name ↔ v = .symbol name := by
  cases v <;> simp [symbolName?]

theorem Marker.body?_eq_some {m : Marker} {v form : Value} :
    m.body? v = some form ↔ v = m.wrap form := by
  constructor
  · intro h
    unfold body? at h
    split at h
    · next name body =>
      split at h
      · next hname =>
        cases h
        rw [hname]
        rfl
      · cases h
    · cases h
  · rintro rfl
    exact m.body?_wrap form

theorem Marker.body?_eq_none {m : Marker} {v : Value} :
    m.body? v = none ↔ ∀ form, v ≠ m.wrap form := by
  rw [Option.eq_none_iff_forall_ne_some]
  simp only [ne_eq, body?_eq_some]

theorem SpecialForm.ofName?_eq_none {head : Value} {operands : List Value} :
    head.symbolName?.bind SpecialForm.ofName? = none ↔
      ∀ sf forms, .list (head :: operands) ≠ form sf forms := by
  rw [Option.eq_none_iff_forall_ne_some]
  simp only [ne_eq, Option.bind_eq_some_iff, Value.symbolName?_eq_some, ofName?_eq_some, form]
  constructor
  · intro h sf forms heq
    cases heq
    exact h sf ⟨_, rfl, rfl⟩
  · rintro h sf ⟨name, rfl, rfl⟩
    exact h sf operands rfl

theorem SpecialForm.boundName_of_none {sf : SpecialForm} {v : Value} (h : v.symbolName? = none) :
    sf.boundName v = sf.fail s!"expected a symbol, got {v.kind.name}" := by
  cases v <;> first | rfl | cases h

theorem Store.macroCall?_eq_some {σ : Store} {env : Env} {form : Value} {c : Closure Value}
    {operands : List Value} :
    σ.macroCall? env form = some (c, operands) ↔
      ∃ name, form = .list (.symbol name :: operands) ∧ σ.find? env name = some (.closure c) ∧
        c.isMacro = true := by
  unfold macroCall?
  constructor
  · intro h
    split at h
    · next name forms =>
      split at h
      · next d hfind =>
        split at h
        · next hmacro =>
          cases h
          exact ⟨name, rfl, hfind, hmacro⟩
        · cases h
      · cases h
    · cases h
  · rintro ⟨name, rfl, hfind, hmacro⟩
    simp [hfind, hmacro]

theorem Env.lookup_apply (env : Env) (name : String) (σ : Store) :
    env.lookup name σ =
      match σ.find? env name with
      | some v => .value v σ
      | none => .failure (.symbolNotFound name) σ := by
  unfold Env.lookup Env.get?
  rw [Action.bind_apply]
  change (match σ.find? env name with
    | some v => (pure v : Action Value)
    | none => .fail (.symbolNotFound name)) σ = _
  cases σ.find? env name <;> rfl

namespace Evaluator

variable {ev : Evaluator} {σ : Store} {env : Env}

theorem macroNamed?_apply (head : Value) (operands : List Value) (env : Env) (σ : Store) :
    macroNamed? head env σ =
      .value ((σ.macroCall? env (.list (head :: operands))).map Prod.fst) σ := by
  cases head with
  | symbol name =>
    simp only [macroNamed?, Store.macroCall?, Action.bind_apply, Env.get?, Action.query,
      Outcome.andThen]
    cases σ.find? env name with
    | none => rfl
    | some v =>
      cases v with
      | closure c => cases hc : c.isMacro <;> simp [hc] <;> rfl
      | _ => rfl
  | _ => rfl

theorem step_form (sf : SpecialForm) (operands : List Value) (env : Env) :
    ev.step (SpecialForm.form sf operands) env = ev.evalSpecial sf operands env := by
  cases sf <;> rfl

theorem step_macroCall {call : Value} {c : Closure Value} {operands : List Value}
    (ordinary : ∀ sf forms, call ≠ SpecialForm.form sf forms)
    (calls : σ.macroCall? env call = some (c, operands)) :
    ev.step call env σ = (do
      let expansion ← ev.applyClosure c operands
      pure (.next expansion env) : Action Step) σ := by
  obtain ⟨name, rfl, -⟩ := Store.macroCall?_eq_some.mp calls
  have hsf := SpecialForm.ofName?_eq_none.mpr ordinary
  simp only [step, stepList, hsf, Action.bind_apply,
    macroNamed?_apply (.symbol name) operands, calls]
  rfl

theorem step_application {head : Value} {operands : List Value}
    (ordinary : ∀ sf forms, .list (head :: operands) ≠ SpecialForm.form sf forms)
    (noMacro : σ.macroCall? env (.list (head :: operands)) = none) :
    ev.step (.list (head :: operands)) env σ = (do
      let f ← ev.eval head env
      let args ← ev.evalAll operands env
      ev.enterCall f args : Action Step) σ := by
  have hsf := SpecialForm.ofName?_eq_none.mpr ordinary
  simp only [step, stepList, hsf, Action.bind_apply, macroNamed?_apply head operands, noMacro]
  rfl

theorem evalSpecial_malformed {sf : SpecialForm} {operands : List Value} {e : EvalError}
    (bad : Malformed sf operands e) (env : Env) : ev.evalSpecial sf operands env = .fail e := by
  cases bad with
  | count number =>
    cases sf with
    | sequence => exact absurd trivial number
    | conditional =>
      match operands with
      | [] | [_] | _ :: _ :: _ :: _ :: _ => rfl
      | [_, _] => exact absurd (.inl rfl) number
      | [_, _, _] => exact absurd (.inr rfl) number
    | quote | quasiquote | macroExpand =>
      match operands with
      | [] | _ :: _ :: _ => rfl
      | [_] => exact absurd rfl number
    | define | letIn | lambda | defineMacro =>
      match operands with
      | [] | [_] | _ :: _ :: _ :: _ => rfl
      | [_, _] => exact absurd rfl number
  | definedName binds noName =>
    obtain rfl | rfl := binds
    · simp only [evalSpecial, define, SpecialForm.boundName_of_none noName]
      rfl
    · simp only [evalSpecial, defineMacro, SpecialForm.boundName_of_none noName]
      rfl
  | bindings noItems =>
    simp only [evalSpecial, letIn, noItems]
    rfl
  | oddBindings isItems odd =>
    simp only [evalSpecial, letIn, isItems, if_pos odd]
    rfl
  | params noItems =>
    simp only [evalSpecial, makeClosure, noItems]
    rfl
  | param isItems parsed =>
    simp only [evalSpecial, makeClosure, isItems, parsed]
    rfl

theorem letIn_eq {bindings : Value} {items : List Value} (isItems : bindings.items? = some items)
    (even : items.length % 2 = 0) (body : Value) (env : Env) :
    ev.letIn [bindings, body] env = (do
      let inner ← env.child
      ev.bindAll inner items
      pure (.next body inner)) := by
  have hodd : ¬ items.length % 2 = 1 := by omega
  simp only [letIn, isItems, if_neg hodd]

theorem makeClosure_eq {params : Value} {items : List Value} {parsed : Params}
    (isItems : params.items? = some items) (isParsed : Params.parse items = .ok parsed)
    (body : Value) (env : Env) :
    makeClosure [params, body] env = (do
      let c ← Action.update (·.addClosure parsed body env false)
      pure (.done (.closure c))) := by
  simp only [makeClosure, isItems, isParsed]
  rfl

theorem expandUpTo_none {form : Value} {n : Nat} (noMacro : σ.macroCall? env form = none)
    (hn : 0 < n) :
    ev.expandUpTo env n form σ = .value form σ := by
  obtain ⟨n, rfl⟩ := Nat.exists_eq_add_of_lt hn
  unfold expandUpTo
  split
  · next head operands =>
    rw [Action.bind_apply, macroNamed?_apply head operands, noMacro]
    rfl
  · rfl

theorem expandUpTo_some {form : Value} {c : Closure Value} {operands : List Value} {n : Nat}
    (calls : σ.macroCall? env form = some (c, operands)) (hn : 0 < n) :
    ev.expandUpTo env n form σ = (do
      let expansion ← ev.applyClosure c operands
      ev.expandUpTo env (n - 1) expansion : Action Value) σ := by
  obtain ⟨n, rfl⟩ := Nat.exists_eq_add_of_lt hn
  obtain ⟨name, rfl, -⟩ := Store.macroCall?_eq_some.mp calls
  rw [expandUpTo]
  change (macroNamed? (.symbol name) env σ).andThen _ = _
  rw [macroNamed?_apply _ operands, calls]
  rfl

theorem evalAll_cons (form : Value) (forms : List Value) (env : Env) :
    ev.evalAll (form :: forms) env = (do
      let v ← ev.eval form env
      let vs ← ev.evalAll forms env
      pure (v :: vs)) :=
  List.mapM_cons

theorem evalEntries_eq (entries : List (Value × Value)) (env : Env) :
    ev.evalEntries entries env = (do
      let values ← ev.evalAll (entries.map Prod.snd) env
      pure ((entries.map Prod.fst).zip values)) := by
  induction entries with
  | nil => rfl
  | cons entry entries ih =>
    have hcons : ev.evalEntries (entry :: entries) env = (do
        let v ← ev.eval entry.2 env
        let rest ← ev.evalEntries entries env
        pure ((entry.1, v) :: rest)) := by
      simp [evalEntries, List.mapM_cons]
    simp [hcons, ih, evalAll_cons]

theorem sequence_append (forms : List Value) (last : Value) (env : Env) :
    ev.sequence env (forms ++ [last]) = (do
      let _ ← ev.evalAll forms env
      pure (.next last env)) := by
  induction forms with
  | nil => rfl
  | cons form forms ih =>
    have hcons : ev.sequence env (form :: (forms ++ [last])) = (do
        let _ ← ev.eval form env
        ev.sequence env (forms ++ [last])) := by
      cases forms <;> rfl
    rw [List.cons_append, hcons, ih, evalAll_cons]
    simp only [bind_assoc, pure_bind]

theorem step_map (entries : List (Value × Value)) (env : Env) :
    ev.step (.map entries) env = (do
      let values ← ev.evalAll (entries.map Prod.snd) env
      let v ← ev.mapOf ((entries.map Prod.fst).zip values)
      pure (.done v)) := by
  simp only [step, evalEntries_eq, bind_assoc, pure_bind]

theorem step_constant {form : Value} (isConstant : form.IsConstant) (env : Env) :
    ev.step form env = pure (.done form) := by
  match form, isConstant with
  | .list [], _ | .int _, _ | .bool _, _ | .nil, _ | .eof, _ | .keyword _, _ | .str _, _
  | .function _, _ | .closure _, _ | .atom _, _ => rfl

theorem splice_eq_of {form : Value} {s : Except EvalError (List Value)} {τ : Store} :
    ev.splice env form σ = .of s τ ↔
      (∃ e, s = .error e ∧ ev.eval form env σ = .of (.error e) τ) ∨
        ∃ v, ev.eval form env σ = .of (.ok v) τ ∧
          ((∃ items, v.items? = some items ∧ s = .ok items) ∨
            v.items? = none ∧
              s = .error (.invalidForm "splice-unquote" s!"expected a list or vector, got {v.kind.name}")) := by
  rw [splice, Action.bind_eq_of]
  refine or_congr_right ⟨?_, ?_⟩
  · rintro ⟨v, ρ, hv, h⟩
    cases hitems : v.items? with
    | some items =>
      rw [hitems] at h
      obtain ⟨rfl, rfl⟩ := Action.pure_eq_of.mp h
      exact ⟨v, hv, .inl ⟨items, hitems, rfl⟩⟩
    | none =>
      rw [hitems] at h
      obtain ⟨rfl, rfl⟩ := Action.fail_eq_of.mp h
      exact ⟨v, hv, .inr ⟨hitems, rfl⟩⟩
  · rintro ⟨v, hv, ⟨items, hitems, rfl⟩ | ⟨hitems, rfl⟩⟩
    · exact ⟨v, τ, hv, by rw [hitems]; rfl⟩
    · exact ⟨v, τ, hv, by rw [hitems]; rfl⟩

theorem fill_unquote (form : Value) : ev.fill env (Marker.unquote.wrap form) = ev.eval form env := by
  unfold fill
  rw [Marker.body?_wrap]

theorem fill_list {items : List Value} (plain : ∀ form, .list items ≠ Marker.unquote.wrap form) :
    ev.fill env (.list items) = (do
      let filled ← ev.fillItems env [] items
      pure (.list filled)) := by
  unfold fill
  rw [Marker.body?_eq_none.mpr plain]

theorem fill_vector (items : List Value) :
    ev.fill env (.vector items) = (do
      let filled ← ev.fillItems env [] items
      pure (.vector filled)) := by
  unfold fill
  rfl

theorem fill_quoted {v : Value} (noItems : v.items? = none) : ev.fill env v = pure v := by
  cases v <;> first | rfl | cases noItems

/-- The elements after those that are done are filled in as if there were none. -/
theorem fillItems_eq (done items : List Value) (env : Env) :
    ev.fillItems env done items = (do
      let values ← ev.fillItems env [] items
      pure (done.reverse ++ values)) := by
  induction items generalizing done with
  | nil => simp [fillItems]
  | cons item items ih =>
    unfold fillItems
    cases Marker.spliceUnquote.body? item with
    | some form =>
      simp only [bind_assoc]
      refine bind_congr fun spliced => ?_
      rw [ih, ih (spliced.reverse ++ [])]
      simp
    | none =>
      simp only [bind_assoc]
      refine bind_congr fun v => ?_
      rw [ih, ih [v]]
      simp

theorem fillItems_splice (form : Value) (items : List Value) (env : Env) :
    ev.fillItems env [] (Marker.spliceUnquote.wrap form :: items) = (do
      let spliced ← ev.splice env form
      let values ← ev.fillItems env [] items
      pure (spliced ++ values)) := by
  rw [fillItems, Marker.body?_wrap]
  refine bind_congr fun spliced => ?_
  rw [fillItems_eq]
  simp

theorem fillItems_cons {item : Value} (plain : ∀ form, item ≠ Marker.spliceUnquote.wrap form)
    (items : List Value) (env : Env) :
    ev.fillItems env [] (item :: items) = (do
      let v ← ev.fill env item
      let values ← ev.fillItems env [] items
      pure (v :: values)) := by
  rw [fillItems, Marker.body?_eq_none.mpr plain]
  refine bind_congr fun v => ?_
  rw [fillItems_eq]
  simp

def finish (ev : Evaluator) : Step → Action Value
  | .done v => pure v
  | .next value env => ev.eval value env

end Evaluator

theorem evalWithin_succ (files : Files) (steps depth : Nat) (value : Value) (env : Env) :
    evalWithin files (steps + 1) (depth + 1) value env =
      (Host.evaluator ⟨files, steps, depth⟩).step value env >>=
        (Host.evaluator ⟨files, steps, depth + 1⟩).finish := by
  refine bind_congr fun s => ?_
  cases s <;> rfl

end Lisp
