import Lisp.Proofs.BigStep
import Lisp.Proofs.Effect

/-! All that an evaluation does to a store, as single writes. So what no write undoes is not undone by any
evaluation: output is only appended to, and atoms and frames do not go away. -/

namespace Lisp

open Relation (ReflTransGen)

/-- One change of a store by an evaluation. -/
inductive Store.Write (σ : Store) : Store → Prop
  | bind (e : Env) (name : String) (v : Value) : Write σ (σ.bind e name v)
  | addFrame (f : Frame) : Write σ (σ.addFrame f).2
  | addClosure (params : Params) (body : Value) (env : Env) (isMacro : Bool) :
    Write σ (σ.addClosure params body env isMacro).2
  | effect {τ : Store} (h : σ.Effect τ) : Write σ τ

abbrev Store.Writes : Store → Store → Prop :=
  ReflTransGen Store.Write

theorem Store.Writes.addFrame {σ σ' : Store} {f : Frame} {e : Env} (h : σ.addFrame f = (e, σ')) :
    σ.Writes σ' := by
  have hwrite := Write.addFrame (σ := σ) f
  rw [h] at hwrite
  exact .single hwrite

theorem Store.Writes.addClosure {σ τ : Store} {params : Params} {body : Value} {env : Env}
    {isMacro : Bool} {c : Closure Value} (h : σ.addClosure params body env isMacro = (c, τ)) :
    σ.Writes τ := by
  have hwrite := Write.addClosure (σ := σ) params body env isMacro
  rw [h] at hwrite
  exact .single hwrite

variable {files : Files}

mutual

theorem Evaluates.writes {value : Value} {env : Env} {σ τ : Store} {r : Except EvalError Value}
    (h : Evaluates files value env σ r τ) : σ.Writes τ := by
  match h with
  | .constant _ | .symbol _ | .unbound _ | .thrown | .malformed _ | .emptySequence | .quote =>
    exact .refl
  | .vector all | .map all _ | .mapFails all | .sequenceFails all => exact all.writes
  | .define evaluated => exact evaluated.writes.tail (.bind _ _ _)
  | .defineFails fails | .conditionFails _ fails | .defineMacroFails fails
  | .headFails _ _ fails => exact fails.writes
  | .letIn _ _ child bound evaluated =>
    have hbound := bound.writes
    have hbody := evaluated.writes
    exact (Store.Writes.addFrame child).trans (hbound.trans hbody)
  | .letInFails _ _ child fails =>
    have hfails := fails.writes
    exact (Store.Writes.addFrame child).trans hfails
  | .sequence first evaluated =>
    have hfirst := first.writes
    have hlast := evaluated.writes
    exact hfirst.trans hlast
  | .thenPart _ chosen _ evaluated | .elsePart chosen _ evaluated =>
    have hchosen := chosen.writes
    have hpart := evaluated.writes
    exact hchosen.trans hpart
  | .noElse chosen _ => exact chosen.writes
  | .lambda _ _ made => exact .addClosure made
  | .quasiquote filled => exact filled.writes
  | .defineMacro evaluated made =>
    have hvalue := evaluated.writes
    exact (hvalue.trans (Store.Writes.addClosure made)).tail (.bind _ _ _)
  | .macroNoClosure evaluated _ => exact evaluated.writes
  | .macroExpand expanded => exact expanded.writes
  | .macroCall _ _ expanded evaluated =>
    have hexpanded := expanded.writes
    have hrest := evaluated.writes
    exact hexpanded.trans hrest
  | .macroCallFails _ _ fails => exact fails.writes
  | .application _ _ function arguments applied =>
    have hfunction := function.writes
    have harguments := arguments.writes
    have happlied := applied.writes
    exact hfunction.trans (harguments.trans happlied)
  | .argumentFails _ _ function fails =>
    have hfunction := function.writes
    have hfails := fails.writes
    exact hfunction.trans hfails
termination_by structural h

theorem EvaluatesAll.writes {forms : List Value} {env : Env} {σ τ : Store}
    {r : Except EvalError (List Value)} (h : EvaluatesAll files forms env σ r τ) : σ.Writes τ := by
  match h with
  | .nil => exact .refl
  | .cons head tail =>
    have hhead := head.writes
    have htail := tail.writes
    exact hhead.trans htail
  | .fails head => exact head.writes
termination_by structural h

theorem BindsAll.writes {items : List Value} {env : Env} {σ τ : Store} {r : Except EvalError Unit}
    (h : BindsAll files env items σ r τ) : σ.Writes τ := by
  match h with
  | .nil | .noName _ => exact .refl
  | .cons head tail =>
    have hhead := head.writes
    have htail := tail.writes
    exact (hhead.tail (.bind _ _ _)).trans htail
  | .fails head => exact head.writes
termination_by structural h

theorem Fills.writes {template : Value} {env : Env} {σ τ : Store} {r : Except EvalError Value}
    (h : Fills files template env σ r τ) : σ.Writes τ := by
  match h with
  | .unquote evaluated => exact evaluated.writes
  | .list _ all | .vector all => exact all.writes
  | .quoted _ => exact .refl
termination_by structural h

theorem FillsAll.writes {items : List Value} {env : Env} {σ τ : Store}
    {r : Except EvalError (List Value)} (h : FillsAll files items env σ r τ) : σ.Writes τ := by
  match h with
  | .nil => exact .refl
  | .cons _ head tail | .splice head _ tail =>
    have hhead := head.writes
    have htail := tail.writes
    exact hhead.trans htail
  | .fails _ head | .spliceFails head | .noSplice head _ => exact head.writes
termination_by structural h

theorem Expands.writes {value : Value} {env : Env} {σ τ : Store} {r : Except EvalError Value}
    (h : Expands files value env σ r τ) : σ.Writes τ := by
  match h with
  | .done _ => exact .refl
  | .step _ expanded rest =>
    have hexpanded := expanded.writes
    have hrest := rest.writes
    exact hexpanded.trans hrest
  | .fails _ expanded => exact expanded.writes
termination_by structural h

theorem Applies.writes {f : Value} {args : List Value} {σ τ : Store} {r : Except EvalError Value}
    (h : Applies files f args σ r τ) : σ.Writes τ := by
  match h with
  | .closure _ entered body =>
    have hbody := body.writes
    exact (Store.Writes.addFrame entered).trans hbody
  | .closureFails _ | .evalArity _ | .swapNoAtom _ | .swapArity _ | .noFunction _ _ => exact .refl
  | .eval evaluated => exact evaluated.writes
  | .swap applied => exact applied.writes.tail (.effect (.setContent _ _))
  | .swapFails applied => exact applied.writes
  | .builtin noEval noSwap called =>
    exact (Makes.call _ noEval noSwap _ called).lift id fun _ _ => .effect
termination_by structural h

end

namespace Store.Writes

variable {σ τ : Store}

/-- Output is only appended to. -/
theorem output (h : σ.Writes τ) : ∃ text, τ.output = σ.output.write text := by
  induction h with
  | refl => exact ⟨"", by simp⟩
  | tail _ hwrite ih =>
    obtain ⟨text, htext⟩ := ih
    cases hwrite with
    | bind | addFrame | addClosure => exact ⟨text, htext⟩
    | effect h =>
      cases h with
      | addCell | setContent => exact ⟨text, htext⟩
      | writeLine line =>
        refine ⟨text ++ (line ++ "\n"), ?_⟩
        rw [Sink.write_append, ← htext]
        exact Sink.writeLine_eq_write _ line

theorem cells_size (h : σ.Writes τ) : σ.cells.size ≤ τ.cells.size := by
  induction h with
  | refl => exact Nat.le_refl _
  | tail _ hwrite ih =>
    refine ih.trans ?_
    cases hwrite with
    | bind | addFrame | addClosure => exact Nat.le_refl _
    | effect h => cases h <;> simp [addCell, setContent, writeLine]

theorem frames_size (h : σ.Writes τ) : σ.frames.size ≤ τ.frames.size := by
  induction h with
  | refl => exact Nat.le_refl _
  | tail _ hwrite ih =>
    refine ih.trans ?_
    cases hwrite with
    | bind | addFrame | addClosure => simp [Store.bind, Store.addFrame, Store.addClosure]
    | effect h => cases h <;> exact Nat.le_refl _

end Store.Writes

end Lisp
