import Lisp.Proofs.Settling

/-! What the rules of evaluation come to when the evaluations that they ask for have settled. -/

namespace Lisp

open SpecialForm (form)

variable {files : Files} {env : Env} {σ ρ τ : Store}

namespace Settles

theorem evalAll_cons {value v : Value} {forms : List Value} {r : Except EvalError (List Value)}
    (head : Settles files (·.eval value env) σ (.ok v) ρ)
    (tail : Settles files (·.evalAll forms env) ρ r τ) :
    Settles files (·.evalAll (value :: forms) env) σ (r.map (v :: ·)) τ :=
  (head.bind tail.map).congr fun _ => congrFun (Evaluator.evalAll_cons value forms env) σ

theorem evalAll_fails {value : Value} {e : EvalError} (forms : List Value)
    (head : Settles files (·.eval value env) σ (.error e) τ) :
    Settles files (·.evalAll (value :: forms) env) σ (.error e) τ :=
  head.bind_error.congr fun _ => congrFun (Evaluator.evalAll_cons value forms env) σ

theorem set {α : Type} {x : Evaluator → Action α} {name : String} {v : Value}
    {r : Except EvalError α} (tail : Settles files x (ρ.bind env name v) r τ) :
    Settles files (fun ev => env.set name v >>= fun _ => x ev) ρ r τ :=
  bind (f := fun ev _ => x ev) (of_forall fun _ _ => rfl) tail

theorem bindAll_cons {name : String} {value v : Value} {bindings : List Value}
    {r : Except EvalError Unit} (head : Settles files (·.eval value env) σ (.ok v) ρ)
    (tail : Settles files (·.bindAll env bindings) (ρ.bind env name v) r τ) :
    Settles files (·.bindAll env (.symbol name :: value :: bindings)) σ r τ :=
  head.bind (set tail)

theorem bindAll_fails {name : String} {value : Value} {e : EvalError} (bindings : List Value)
    (head : Settles files (·.eval value env) σ (.error e) τ) :
    Settles files (·.bindAll env (.symbol name :: value :: bindings)) σ (.error e) τ :=
  head.bind_error

theorem bindAll_noName {name : Value} (value : Value) (bindings : List Value)
    (h : name.symbolName? = none) :
    Settles files (·.bindAll env (name :: value :: bindings)) σ
      (.error (.invalidForm "let*" s!"expected a symbol, got {name.kind.name}")) σ := by
  refine of_forall fun ev _ => ?_
  unfold Evaluator.bindAll
  rw [SpecialForm.boundName_of_none h]
  rfl

theorem splice {value v : Value} {spliced : List Value}
    (head : Settles files (·.eval value env) σ (.ok v) ρ)
    (isItems : v.items? = some spliced) : Settles files (·.splice env value) σ (.ok spliced) ρ := by
  refine head.bind (of_forall fun _ _ => ?_)
  rw [isItems]
  rfl

theorem noSplice {value v : Value} (head : Settles files (·.eval value env) σ (.ok v) ρ)
    (noItems : v.items? = none) :
    Settles files (·.splice env value) σ
      (.error (.invalidForm "splice-unquote"
        s!"expected a list or vector, got {v.kind.name}")) ρ := by
  refine head.bind (of_forall fun _ _ => ?_)
  rw [noItems]
  rfl

theorem fill_unquote {value : Value} {r : Except EvalError Value}
    (evaluated : Settles files (·.eval value env) σ r τ) :
    Settles files (·.fill env (Marker.unquote.wrap value)) σ r τ :=
  evaluated.congr fun _ => congrFun (Evaluator.fill_unquote value) σ

theorem fill_list {items : List Value} {r : Except EvalError (List Value)}
    (plain : ∀ form, .list items ≠ Marker.unquote.wrap form)
    (all : Settles files (·.fillItems env [] items) σ r τ) :
    Settles files (·.fill env (.list items)) σ (r.map .list) τ :=
  all.map.congr fun _ => congrFun (Evaluator.fill_list plain) σ

theorem fill_quoted {value : Value} (noItems : value.items? = none) :
    Settles files (·.fill env value) σ (.ok value) σ :=
  .of_forall fun _ _ => congrFun (Evaluator.fill_quoted noItems) σ

theorem fillItems_splice {value : Value} {items spliced : List Value}
    {r : Except EvalError (List Value)}
    (head : Settles files (·.splice env value) σ (.ok spliced) ρ)
    (tail : Settles files (·.fillItems env [] items) ρ r τ) :
    Settles files (·.fillItems env [] (Marker.spliceUnquote.wrap value :: items)) σ
      (r.map (spliced ++ ·)) τ :=
  (head.bind tail.map).congr fun _ => congrFun (Evaluator.fillItems_splice value items env) σ

theorem fillItems_spliceFails {value : Value} {e : EvalError} (items : List Value)
    (head : Settles files (·.splice env value) σ (.error e) τ) :
    Settles files (·.fillItems env [] (Marker.spliceUnquote.wrap value :: items)) σ (.error e) τ :=
  head.bind_error.congr fun _ => congrFun (Evaluator.fillItems_splice value items env) σ

theorem fillItems_cons {item v : Value} {items : List Value} {r : Except EvalError (List Value)}
    (plain : ∀ form, item ≠ Marker.spliceUnquote.wrap form)
    (head : Settles files (·.fill env item) σ (.ok v) ρ)
    (tail : Settles files (·.fillItems env [] items) ρ r τ) :
    Settles files (·.fillItems env [] (item :: items)) σ (r.map (v :: ·)) τ :=
  (head.bind tail.map).congr fun _ => congrFun (Evaluator.fillItems_cons plain items env) σ

theorem fillItems_fails {item : Value} {e : EvalError} (items : List Value)
    (plain : ∀ form, item ≠ Marker.spliceUnquote.wrap form)
    (head : Settles files (·.fill env item) σ (.error e) τ) :
    Settles files (·.fillItems env [] (item :: items)) σ (.error e) τ :=
  head.bind_error.congr fun _ => congrFun (Evaluator.fillItems_cons plain items env) σ

theorem mapOf {pairs : List (Value × Value)} {entries : Entries}
    (made : EntriesOf σ.cells pairs entries) :
    Settles files (·.mapOf pairs) σ (.ok (.map entries)) σ := by
  obtain ⟨patience, h⟩ := made.eventually
  exact of_patience patience fun ev _ hle => Evaluator.mapOf_eq_of.mpr ⟨entries, h _ hle, rfl, rfl⟩

theorem expandUpTo_step {value expansion : Value} {c : Closure Value} {operands : List Value}
    {r : Except EvalError Value} (used : Nat) (calls : σ.macroCall? env value = some (c, operands))
    (expanded : Settles files (·.applyClosure c operands) σ (.ok expansion) ρ) (rest : Settles files
      (fun ev => ev.expandUpTo env (ev.patience - (used + 1)) expansion) ρ r τ) :
    Settles files (fun ev => ev.expandUpTo env (ev.patience - used) value) σ r τ :=
  (expanded.bind rest).congr_patience (used + 1) fun _ hle =>
    Evaluator.expandUpTo_some calls (Nat.sub_pos_of_lt hle)

theorem expandUpTo_fails {value : Value} {c : Closure Value} {operands : List Value} {e : EvalError}
    (used : Nat) (calls : σ.macroCall? env value = some (c, operands))
    (expanded : Settles files (·.applyClosure c operands) σ (.error e) τ) :
    Settles files (fun ev => ev.expandUpTo env (ev.patience - used) value) σ (.error e) τ :=
  (expanded.bind_error (f := fun ev =>
    ev.expandUpTo env (ev.patience - (used + 1)))).congr_patience (used + 1)
    fun _ hle => Evaluator.expandUpTo_some calls (Nat.sub_pos_of_lt hle)

theorem expandUpTo_done {value : Value} (used : Nat) (noMacro : σ.macroCall? env value = none) :
    Settles files (fun ev => ev.expandUpTo env (ev.patience - used) value) σ (.ok value) σ :=
  of_patience (used + 1) fun _ _ hle => Evaluator.expandUpTo_none noMacro (Nat.sub_pos_of_lt hle)

theorem swap {c : Cell} {f v : Value} {extra : List Value}
    (applied : Settles files (·.apply f (σ.cells.content c :: extra)) σ (.ok v) τ) :
    Settles files (·.call .swap (.atom c :: f :: extra)) σ (.ok v) (τ.setContent c v) := by
  refine congr (applied.bind (f := fun _ v => c.set v >>= fun _ => pure v)
    (.of_forall fun _ _ => rfl))
    fun ev => ?_
  rw [Evaluator.call_swap, Evaluator.swapContent_apply]

theorem swap_fails {c : Cell} {f : Value} {extra : List Value} {e : EvalError}
    (applied : Settles files (·.apply f (σ.cells.content c :: extra)) σ (.error e) τ) :
    Settles files (·.call .swap (.atom c :: f :: extra)) σ (.error e) τ := by
  refine congr (applied.bind_error (f := fun _ v => c.set v >>= fun _ => pure v)) fun ev => ?_
  rw [Evaluator.call_swap, Evaluator.swapContent_apply]

theorem swap_noAtom {a : Value} (noAtom : ∀ c, a ≠ .atom c) (f : Value) (extra : List Value) :
    Settles files (·.call .swap (a :: f :: extra)) σ (.error (.wrongArgType "atom" a.kind)) σ := by
  refine .of_forall fun ev _ => ?_
  rw [Evaluator.call_swap, Evaluator.swapContent_noAtom noAtom]
  rfl

theorem swap_arity {args : List Value} (number : args.length < 2) :
    Settles files (·.call .swap args) σ (.error (.tooFewArguments 2 args.length)) σ := by
  match args with
  | [] | [_] => exact .of_forall fun _ _ => rfl
  | _ :: _ :: _ =>
    simp only [List.length_cons] at number
    omega

theorem evalArity {args : List Value} (number : args.length ≠ 1) :
    Settles files (·.call .eval args) σ (.error (.arityMismatch 1 args.length)) σ := by
  match args with
  | [] | _ :: _ :: _ => exact .of_forall fun _ _ => rfl
  | [_] => exact absurd rfl number

theorem builtin {b : Builtin} {args : List Value} {patience : Nat} {r : Except EvalError Value}
    (noEval : b ≠ .eval) (noSwap : b ≠ .swap)
    (called : (Evaluator.idle files patience).call b args σ = .of r τ) :
    Settles files (·.call b args) σ r τ := by
  refine of_patience patience fun ev hfiles hle => ?_
  rw [Evaluator.call_idle noEval noSwap, hfiles]
  exact Evaluator.call_idle_mono noSwap hle called

end Settles

namespace Finishes

variable {r : Except EvalError Value} {operands : List Value}

theorem special {sf : SpecialForm} (h : Finishes files (·.evalSpecial sf operands env) σ r τ) :
    Settles files (·.eval (form sf operands) env) σ r τ :=
  (h.congr fun _ => congrFun (Evaluator.step_form sf operands env) σ).eval

theorem map {entries : List (Value × Value)} {values : List Value} {new : Entries}
    (all : Settles files (·.evalAll (entries.map Prod.snd) env) σ (.ok values) τ)
    (made : EntriesOf τ.cells ((entries.map Prod.fst).zip values) new) :
    Finishes files (·.step (.map entries) env) σ (.ok (.map new)) τ :=
  congr (bind all (.of_settles (.mapOf made))) fun ev => congrFun (ev.step_map entries env) σ

theorem map_fails {entries : List (Value × Value)} {e : EvalError}
    (all : Settles files (·.evalAll (entries.map Prod.snd) env) σ (.error e) τ) :
    Finishes files (·.step (.map entries) env) σ (.error e) τ :=
  congr (bind_error all) fun ev => congrFun (ev.step_map entries env) σ

theorem symbol {name : String} {v : Value} (found : σ.find? env name = some v) :
    Finishes files (·.step (.symbol name) env) σ (.ok v) σ := by
  refine .of_settles (x := fun _ => env.lookup name) (.of_forall fun _ _ => ?_)
  rw [Env.lookup_apply, found]
  rfl

theorem unbound {name : String} (notFound : σ.find? env name = none) :
    Finishes files (·.step (.symbol name) env) σ (.error (.symbolNotFound name)) σ := by
  refine .of_settles (x := fun _ => env.lookup name) (.of_forall fun _ _ => ?_)
  rw [Env.lookup_apply, notFound]
  rfl

theorem malformed {sf : SpecialForm} {e : EvalError} (bad : Malformed sf operands e) :
    Finishes files (·.evalSpecial sf operands env) σ (.error e) σ :=
  .fails (.of_forall fun ev _ => congrFun (ev.evalSpecial_malformed bad env) σ)

theorem define {name : String} {value v : Value}
    (evaluated : Settles files (·.eval value env) σ (.ok v) τ) :
    Finishes files (·.evalSpecial .define [.symbol name, value] env) σ (.ok v)
      (τ.bind env name v) :=
  .done (evaluated.bind (.set (x := fun _ => pure (Step.done v)) (.of_forall fun _ _ => rfl)))

theorem lambda {params body : Value} {items : List Value} {parsed : Params} {c : Closure Value}
    (isItems : params.items? = some items) (isParsed : Params.parse items = .ok parsed)
    (made : σ.addClosure parsed body env false = (c, τ)) :
    Finishes files (·.evalSpecial .lambda [params, body] env) σ (.ok (.closure c)) τ := by
  refine .done (.of_forall fun _ _ => ?_)
  simp only [Evaluator.evalSpecial, Evaluator.makeClosure_eq isItems isParsed]
  exact Action.bind_of_ok (Action.update_eq_of.mpr (by simp [made]))

theorem defineMacro {name : String} {value : Value} {c m : Closure Value}
    (evaluated : Settles files (·.eval value env) σ (.ok (.closure c)) ρ)
    (made : ρ.addClosure c.params c.body c.env true = (m, τ)) :
    Finishes files (·.evalSpecial .defineMacro [.symbol name, value] env) σ (.ok (.closure m))
      (τ.bind env name (.closure m)) := by
  have hmade : Settles files
      (fun _ => Action.update (·.addClosure c.params c.body c.env true)) ρ (.ok m) τ :=
    .of_forall fun _ _ => Action.update_eq_of.mpr (by simp [made])
  have hdone : Settles files (fun _ => pure (Step.done (.closure m))) (τ.bind env name (.closure m))
      (.ok (.done (.closure m))) (τ.bind env name (.closure m)) :=
    .of_forall fun _ _ => rfl
  exact .done (evaluated.bind (hmade.bind (.set hdone)))

theorem macroNoClosure {name : String} {value v : Value}
    (evaluated : Settles files (·.eval value env) σ (.ok v) τ) (noClosure : ∀ c, v ≠ .closure c) :
    Finishes files (·.evalSpecial .defineMacro [.symbol name, value] env) σ
      (.error (.invalidForm "defmacro!" s!"expected a function, got {v.kind.name}")) τ := by
  refine .fails (evaluated.bind (.of_forall fun _ _ => ?_))
  cases v with
  | closure c => exact absurd rfl (noClosure c)
  | _ => rfl

theorem child {inner : Env} {σ' : Store} (child : σ.addFrame ⟨[], some env⟩ = (inner, σ')) :
    Settles files (fun _ => env.child) σ (.ok inner) σ' :=
  .of_forall fun _ _ => Action.update_eq_of.mpr (by simp [child])

theorem letIn {bindings body : Value} {items : List Value} {inner : Env} {σ' : Store}
    (isItems : bindings.items? = some items) (even : items.length % 2 = 0)
    (made : σ.addFrame ⟨[], some env⟩ = (inner, σ'))
    (bound : Settles files (·.bindAll inner items) σ' (.ok ()) ρ)
    (evaluated : Settles files (·.eval body inner) ρ r τ) :
    Finishes files (·.evalSpecial .letIn [bindings, body] env) σ r τ := by
  refine congr (bind (child made) ?_) fun _ => congrFun (Evaluator.letIn_eq isItems even body env) σ
  exact bind bound (.next (.of_forall fun _ _ => rfl) evaluated)

theorem letIn_fails {bindings body : Value} {items : List Value} {inner : Env} {σ' : Store}
    {e : EvalError} (isItems : bindings.items? = some items) (even : items.length % 2 = 0)
    (made : σ.addFrame ⟨[], some env⟩ = (inner, σ'))
    (bound : Settles files (·.bindAll inner items) σ' (.error e) τ) :
    Finishes files (·.evalSpecial .letIn [bindings, body] env) σ (.error e) τ := by
  refine congr (bind (child made) ?_) fun _ => congrFun (Evaluator.letIn_eq isItems even body env) σ
  exact bind_error bound

theorem sequence {forms values : List Value} {last : Value}
    (first : Settles files (·.evalAll forms env) σ (.ok values) ρ)
    (evaluated : Settles files (·.eval last env) ρ r τ) :
    Finishes files (·.evalSpecial .sequence (forms ++ [last]) env) σ r τ := by
  refine congr (bind first ?_) fun _ => congrFun (Evaluator.sequence_append forms last env) σ
  exact .next (.of_forall fun _ _ => rfl) evaluated

theorem sequence_fails {forms : List Value} {last : Value} {e : EvalError}
    (first : Settles files (·.evalAll forms env) σ (.error e) τ) :
    Finishes files (·.evalSpecial .sequence (forms ++ [last]) env) σ (.error e) τ :=
  congr (bind_error first) fun _ => congrFun (Evaluator.sequence_append forms last env) σ

theorem branch {condition v : Value} {next : Value → Step} {s : Step}
    (heq : ∀ ev : Evaluator, ev.conditional operands env = (do
      let v ← ev.eval condition env
      pure (next v)))
    (chosen : Settles files (·.eval condition env) σ (.ok v) ρ) (hs : next v = s)
    (evaluated : Settles files (·.finish s) ρ r τ) :
    Finishes files (·.evalSpecial .conditional operands env) σ r τ := by
  subst hs
  exact congr (bind chosen (.finish (.of_forall fun _ _ => rfl) evaluated)) fun ev =>
    congrFun (heq ev) σ

theorem thenPart {condition thenForm v : Value} {rest : List Value} (few : rest.length ≤ 1)
    (chosen : Settles files (·.eval condition env) σ (.ok v) ρ) (truthy : v.isTruthy = true)
    (evaluated : Settles files (·.eval thenForm env) ρ r τ) :
    Finishes files (·.evalSpecial .conditional (condition :: thenForm :: rest) env) σ r τ := by
  match rest with
  | [] => exact branch (s := .next thenForm env) (fun _ => rfl) chosen (if_pos truthy) evaluated
  | [_] =>
    exact branch (s := .next thenForm env) (fun _ => rfl) chosen (by rw [if_pos truthy]) evaluated
  | _ :: _ :: _ => simp at few

theorem elsePart {condition thenForm elseForm v : Value}
    (chosen : Settles files (·.eval condition env) σ (.ok v) ρ) (falsy : v.isTruthy = false)
    (evaluated : Settles files (·.eval elseForm env) ρ r τ) :
    Finishes files (·.evalSpecial .conditional [condition, thenForm, elseForm] env) σ r τ :=
  branch (s := .next elseForm env) (fun _ => rfl) chosen (by rw [falsy]; rfl) evaluated

theorem noElse {condition thenForm v : Value}
    (chosen : Settles files (·.eval condition env) σ (.ok v) τ) (falsy : v.isTruthy = false) :
    Finishes files (·.evalSpecial .conditional [condition, thenForm] env) σ (.ok .nil) τ :=
  branch (s := .done .nil) (fun _ => rfl) chosen (by rw [falsy]; rfl) (.of_forall fun _ _ => rfl)

theorem condition_fails {condition thenForm : Value} {rest : List Value} {e : EvalError}
    (few : rest.length ≤ 1) (chosen : Settles files (·.eval condition env) σ (.error e) τ) :
    Finishes files (·.evalSpecial .conditional (condition :: thenForm :: rest) env) σ
      (.error e) τ := by
  match rest with
  | [] => exact bind_error chosen
  | [_] => exact bind_error chosen
  | _ :: _ :: _ => simp at few

theorem macroCall {call expansion : Value} {c : Closure Value}
    (ordinary : ∀ sf forms, call ≠ form sf forms)
    (calls : σ.macroCall? env call = some (c, operands))
    (expanded : Settles files (·.applyClosure c operands) σ (.ok expansion) ρ)
    (evaluated : Settles files (·.eval expansion env) ρ r τ) :
    Finishes files (·.step call env) σ r τ := by
  refine congr (bind expanded ?_) fun _ => Evaluator.step_macroCall ordinary calls
  exact .next (.of_forall fun _ _ => rfl) evaluated

theorem macroCall_fails {call : Value} {c : Closure Value} {e : EvalError}
    (ordinary : ∀ sf forms, call ≠ form sf forms)
    (calls : σ.macroCall? env call = some (c, operands))
    (fails : Settles files (·.applyClosure c operands) σ (.error e) τ) :
    Finishes files (·.step call env) σ (.error e) τ :=
  congr (bind_error fails) fun _ => Evaluator.step_macroCall ordinary calls

theorem application {head f : Value} {args : List Value} {ρ' : Store}
    (ordinary : ∀ sf forms, .list (head :: operands) ≠ form sf forms)
    (noMacro : σ.macroCall? env (.list (head :: operands)) = none)
    (function : Settles files (·.eval head env) σ (.ok f) ρ)
    (arguments : Settles files (·.evalAll operands env) ρ (.ok args) ρ')
    (applied : Finishes files (·.enterCall f args) ρ' r τ) :
    Finishes files (·.step (.list (head :: operands)) env) σ r τ :=
  congr (bind function (bind arguments applied)) fun _ =>
    Evaluator.step_application ordinary noMacro

theorem head_fails {head : Value} {e : EvalError}
    (ordinary : ∀ sf forms, .list (head :: operands) ≠ form sf forms)
    (noMacro : σ.macroCall? env (.list (head :: operands)) = none)
    (fails : Settles files (·.eval head env) σ (.error e) τ) :
    Finishes files (·.step (.list (head :: operands)) env) σ (.error e) τ :=
  congr (bind_error fails) fun _ => Evaluator.step_application ordinary noMacro

theorem argument_fails {head f : Value} {e : EvalError}
    (ordinary : ∀ sf forms, .list (head :: operands) ≠ form sf forms)
    (noMacro : σ.macroCall? env (.list (head :: operands)) = none)
    (function : Settles files (·.eval head env) σ (.ok f) ρ)
    (fails : Settles files (·.evalAll operands env) ρ (.error e) τ) :
    Finishes files (·.step (.list (head :: operands)) env) σ (.error e) τ :=
  congr (bind function (bind_error fails)) fun _ => Evaluator.step_application ordinary noMacro

theorem closure {c : Closure Value} {args : List Value} {frame : Frame} {inner : Env} {σ' : Store}
    (bound : c.params.frame c.env args = .ok frame) (entered : σ.addFrame frame = (inner, σ'))
    (body : Settles files (·.eval c.body inner) σ' r τ) :
    Finishes files (·.enterCall (.closure c) args) σ r τ := by
  have henter : Settles files (fun _ => c.env.enter c.params args) σ (.ok inner) σ' := by
    refine .of_forall fun _ _ => ?_
    simp [Env.enter, bound, entered]
  exact bind henter (.next (.of_forall fun _ _ => rfl) body)

theorem closure_fails {c : Closure Value} {args : List Value} {e : EvalError}
    (bound : c.params.frame c.env args = .error e) :
    Finishes files (·.enterCall (.closure c) args) σ (.error e) σ := by
  refine bind_error (x := fun _ => c.env.enter c.params args) (.of_forall fun _ _ => ?_)
  simp [Env.enter, bound]

theorem noFunction {f : Value} {args : List Value} (noBuiltin : ∀ b, f ≠ .function b)
    (noClosure : ∀ c, f ≠ .closure c) :
    Finishes files (·.enterCall f args) σ (.error (.notAFunction f.kind)) σ := by
  refine .fails (.of_forall fun _ _ => ?_)
  cases f with
  | function b => exact absurd rfl (noBuiltin b)
  | closure c => exact absurd rfl (noClosure c)
  | _ => rfl

theorem apply {f : Value} {args : List Value} (h : Finishes files (·.enterCall f args) σ r τ) :
    Settles files (·.apply f args) σ r τ := by
  refine h.settles.congr fun ev => ?_
  refine congrFun (?_ : ev.apply f args = ev.enterCall f args >>= ev.finish) σ
  cases f with
  | closure c =>
    simp only [Evaluator.enterCall, bind_assoc, pure_bind]
    rfl
  | function b =>
    simp only [Evaluator.enterCall, bind_assoc, pure_bind]
    exact (bind_pure (ev.call b args)).symm
  | _ => rfl

end Finishes

end Lisp
