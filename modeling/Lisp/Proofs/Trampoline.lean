import Lisp.Proofs.SettlingRules
import Lisp.Proofs.StepDerivation

/-! Evaluation in steps and the relation of forms to results agree: what is derived for a form
is what its evaluation comes to, with any number of steps and any depth that are enough. -/

namespace Lisp

variable {files : Files}

mutual

theorem Evaluates.settles {value : Value} {env : Env} {σ τ : Store} {r : Except EvalError Value}
    (h : Evaluates files value env σ r τ) : Settles files (·.eval value env) σ r τ := by
  match h with
  | .constant isConstant =>
    exact (Finishes.done (.of_forall fun ev _ => congrFun (ev.step_constant isConstant env) σ)).eval
  | .symbol found => exact (Finishes.symbol found).eval
  | .unbound notFound => exact (Finishes.unbound notFound).eval
  | .thrown => exact (Finishes.fails (.of_forall fun _ _ => rfl)).eval
  | .vector all => exact (Finishes.of_map all.settles).eval
  | .map all made => exact (Finishes.map all.settles made).eval
  | .mapFails all => exact (Finishes.map_fails all.settles).eval
  | .malformed bad => exact (Finishes.malformed bad).special
  | .define evaluated => exact (Finishes.define evaluated.settles).special
  | .defineFails fails => exact (Finishes.bind_error fails.settles).special
  | .letIn isItems even made bound evaluated =>
    have hbound := bound.settles
    have hbody := evaluated.settles
    exact (Finishes.letIn isItems even made hbound hbody).special
  | .letInFails isItems even made fails =>
    exact (Finishes.letIn_fails isItems even made fails.settles).special
  | .emptySequence => exact (Finishes.done (.of_forall fun _ _ => rfl)).special
  | .sequence first evaluated =>
    have hfirst := first.settles
    have hlast := evaluated.settles
    exact (Finishes.sequence hfirst hlast).special
  | .sequenceFails first => exact (Finishes.sequence_fails first.settles).special
  | .thenPart few chosen truthy evaluated =>
    have hchosen := chosen.settles
    have hthen := evaluated.settles
    exact (Finishes.thenPart few hchosen truthy hthen).special
  | .elsePart chosen falsy evaluated =>
    have hchosen := chosen.settles
    have helse := evaluated.settles
    exact (Finishes.elsePart hchosen falsy helse).special
  | .noElse chosen falsy => exact (Finishes.noElse chosen.settles falsy).special
  | .conditionFails few fails => exact (Finishes.condition_fails few fails.settles).special
  | .lambda isItems isParsed made => exact (Finishes.lambda isItems isParsed made).special
  | .quote => exact (Finishes.done (.of_forall fun _ _ => rfl)).special
  | .quasiquote filled => exact (Finishes.of_settles filled.settles).special
  | .defineMacro evaluated made => exact (Finishes.defineMacro evaluated.settles made).special
  | .macroNoClosure evaluated noClosure =>
    exact (Finishes.macroNoClosure evaluated.settles noClosure).special
  | .defineMacroFails fails => exact (Finishes.bind_error fails.settles).special
  | .macroExpand expanded => exact (Finishes.of_settles (expanded.settles 0)).special
  | .macroCall ordinary calls expanded evaluated =>
    have hexpansion := expanded.finishes.apply
    have hresult := evaluated.settles
    exact (Finishes.macroCall ordinary calls hexpansion hresult).eval
  | .macroCallFails ordinary calls fails =>
    exact (Finishes.macroCall_fails ordinary calls fails.finishes.apply).eval
  | .application ordinary noMacro function arguments applied =>
    have hfunction := function.settles
    have harguments := arguments.settles
    have happlied := applied.finishes
    exact (Finishes.application ordinary noMacro hfunction harguments happlied).eval
  | .headFails ordinary noMacro fails =>
    exact (Finishes.head_fails ordinary noMacro fails.settles).eval
  | .argumentFails ordinary noMacro function fails =>
    have hfunction := function.settles
    have hfails := fails.settles
    exact (Finishes.argument_fails ordinary noMacro hfunction hfails).eval
termination_by structural h

theorem EvaluatesAll.settles {forms : List Value} {env : Env} {σ τ : Store}
    {r : Except EvalError (List Value)}
    (h : EvaluatesAll files forms env σ r τ) : Settles files (·.evalAll forms env) σ r τ := by
  match h with
  | .nil => exact .of_forall fun _ _ => rfl
  | .cons head tail => exact .evalAll_cons head.settles tail.settles
  | .fails head => exact .evalAll_fails _ head.settles
termination_by structural h

theorem BindsAll.settles {items : List Value} {env : Env} {σ τ : Store} {r : Except EvalError Unit}
    (h : BindsAll files env items σ r τ) : Settles files (·.bindAll env items) σ r τ := by
  match h with
  | .nil => exact .of_forall fun _ _ => rfl
  | .cons head tail => exact .bindAll_cons head.settles tail.settles
  | .fails head => exact .bindAll_fails _ head.settles
  | .noName noName => exact .bindAll_noName _ _ noName
termination_by structural h

theorem Fills.settles {template : Value} {env : Env} {σ τ : Store} {r : Except EvalError Value}
    (h : Fills files template env σ r τ) : Settles files (·.fill env template) σ r τ := by
  match h with
  | .unquote evaluated => exact .fill_unquote evaluated.settles
  | .list plain all => exact .fill_list plain all.settles
  | .vector all => exact all.settles.map
  | .quoted noItems => exact .fill_quoted noItems
termination_by structural h

theorem FillsAll.settles {items : List Value} {env : Env} {σ τ : Store}
    {r : Except EvalError (List Value)}
    (h : FillsAll files items env σ r τ) : Settles files (·.fillItems env [] items) σ r τ := by
  match h with
  | .nil => exact .of_forall fun _ _ => rfl
  | .cons plain head tail => exact .fillItems_cons plain head.settles tail.settles
  | .fails plain head => exact .fillItems_fails _ plain head.settles
  | .splice head isItems tail => exact .fillItems_splice (.splice head.settles isItems) tail.settles
  | .spliceFails head => exact .fillItems_spliceFails _ (Settles.bind_error head.settles)
  | .noSplice head noItems => exact .fillItems_spliceFails _ (.noSplice head.settles noItems)
termination_by structural h

theorem Expands.settles {value : Value} {env : Env} {σ τ : Store} {r : Except EvalError Value}
    (used : Nat) (h : Expands files value env σ r τ) :
    Settles files (fun ev => ev.expandUpTo env (ev.patience - used) value) σ r τ := by
  match h with
  | .done noMacro => exact .expandUpTo_done used noMacro
  | .step calls expanded rest =>
    exact .expandUpTo_step used calls expanded.finishes.apply (rest.settles (used + 1))
  | .fails calls expanded => exact .expandUpTo_fails used calls expanded.finishes.apply
termination_by structural h

theorem Applies.finishes {f : Value} {args : List Value} {σ τ : Store} {r : Except EvalError Value}
    (h : Applies files f args σ r τ) : Finishes files (·.enterCall f args) σ r τ := by
  match h with
  | .closure bound entered body => exact .closure bound entered body.settles
  | .closureFails bound => exact .closure_fails bound
  | .eval evaluated => exact .of_settles (x := (·.call .eval _)) evaluated.settles
  | .evalArity number => exact .of_settles (.evalArity number)
  | .swap applied => exact .of_settles (.swap applied.finishes.apply)
  | .swapFails applied => exact .of_settles (.swap_fails applied.finishes.apply)
  | .swapNoAtom noAtom => exact .of_settles (.swap_noAtom noAtom _ _)
  | .swapArity number => exact .of_settles (.swap_arity number)
  | .builtin noEval noSwap called => exact .of_settles (.builtin noEval noSwap called)
  | .noFunction noBuiltin noClosure => exact .noFunction noBuiltin noClosure
termination_by structural h

end

theorem Settles.unique {α : Type} {x : Evaluator → Action α} {σ τ τ' : Store}
    {r r' : Except EvalError α}
    (h : Settles files x σ r τ) (h' : Settles files x σ r' τ') : r' = r ∧ τ' = τ := by
  obtain ⟨k, hk⟩ := h
  obtain ⟨l, hl⟩ := h'
  have hr := hk (max k l) (max k l) (le_max_left k l) (le_max_left k l)
  have hr' := hl (max k l) (max k l) (le_max_right k l) (le_max_right k l)
  exact Outcome.of_inj.mp (hr'.symm.trans hr)

theorem Evaluates.unique {value : Value} {env : Env} {σ τ τ' : Store}
    {r r' : Except EvalError Value}
    (h : Evaluates files value env σ r τ) (h' : Evaluates files value env σ r' τ') :
    r' = r ∧ τ' = τ :=
  h.settles.unique h'.settles

/-- Evaluation in steps ends with a result just when that result is derived, and then no other
is. Once there are enough steps and enough depth for it, more make no difference. -/
theorem eval_iff_evaluates (files : Files) (value : Value) (env : Env) (σ τ : Store)
    (r : Except EvalError Value) :
    ((∃ steps depth, Host.eval ⟨files, steps, depth⟩ value env σ = .of r τ) ↔
        Evaluates files value env σ r τ ∧
          ∀ r' τ', Evaluates files value env σ r' τ' → r' = r ∧ τ' = τ) ∧
      (Evaluates files value env σ r τ ↔
        ∃ k, ∀ steps depth, k ≤ steps → k ≤ depth →
          Host.eval ⟨files, steps, depth⟩ value env σ = .of r τ) := by
  have sound {r : Except EvalError Value} {τ : Store}
      (h : ∃ steps depth, Host.eval ⟨files, steps, depth⟩ value env σ = .of r τ) :
      Evaluates files value env σ r τ := by
    obtain ⟨steps, depth, h⟩ := h
    exact (Host.sound files steps depth).eval h
  refine ⟨⟨fun h => ⟨sound h, fun r' τ' h' => (sound h).unique h'⟩, fun ⟨h, _⟩ => ?_⟩, ?_⟩
  · obtain ⟨k, hk⟩ := h.settles
    exact ⟨k, k, hk k k le_rfl le_rfl⟩
  · exact ⟨Evaluates.settles, fun ⟨k, hk⟩ => sound ⟨k, k, hk k k le_rfl le_rfl⟩⟩

end Lisp
