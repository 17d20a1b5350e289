import Lisp.Proofs.Rules

/-! Evaluation in which `prn` and `println` are given another meaning. What they do with their arguments is
a parameter, and all else is as it is. -/

namespace Lisp

/-- What is done with arguments that are to be printed, readably or not. -/
abbrev PrintAction := Bool → List Value → Action Value

namespace Evaluator

variable (ev : Evaluator) (print : PrintAction)

def callPrinting (depth : Nat) (b : Builtin) (args : List Value) : Action Value :=
  match b with
  | .prn => print true args
  | .println => print false args
  | .swap =>
    match depth with
    | 0 => .fail (.tooFewArguments 2 args.length)
    | depth + 1 => Builtin.swapContent (ev.applyBy (callPrinting depth)) args
  | b => ev.call b args

def applyPrinting (f : Value) (args : List Value) : Action Value :=
  ev.applyBy (ev.callPrinting print args.length) f args

def enterCallPrinting (f : Value) (args : List Value) : Action Step :=
  match f with
  | .function b => do
    let v ← ev.callPrinting print args.length b args
    pure (.done v)
  | f => ev.enterCall f args

def stepListPrinting (head : Value) (operands : List Value) (env : Env) : Action Step :=
  match head.symbolName?.bind SpecialForm.ofName? with
  | some sf => ev.evalSpecial sf operands env
  | none => do
    match ← macroNamed? head env with
    | some c =>
      let expansion ← ev.applyClosure c operands
      pure (.next expansion env)
    | none =>
      let f ← ev.eval head env
      let args ← ev.evalAll operands env
      ev.enterCallPrinting print f args

def stepPrinting (form : Value) (env : Env) : Action Step :=
  match form with
  | .list (head :: operands) => ev.stepListPrinting print head operands env
  | form => ev.step form env

end Evaluator

def evalPrinting (print : PrintAction) (files : Files) : Nat → Nat → Value → Env → Action Value
  | 0, _, _, _ => .halt .outOfSteps
  | _ + 1, 0, _, _ => .halt .tooDeep
  | steps + 1, depth + 1, form, env => do
    let s ← Evaluator.stepPrinting ⟨evalPrinting print files steps depth, files, steps⟩ print form env
    Evaluator.finish ⟨evalPrinting print files steps (depth + 1), files, steps⟩ s

def Host.printing (host : Host) (print : PrintAction) : Evaluator :=
  ⟨evalPrinting print host.files host.steps host.depth, host.files, host.steps⟩

/-! With `printLine` for the parameter, this is evaluation. -/

namespace Evaluator

variable (ev : Evaluator)

theorem callPrinting_printLine (depth : Nat) :
    ev.callPrinting printLine depth = ev.callWithin depth := by
  induction depth with
  | zero =>
    funext b args
    cases b <;> simp only [callPrinting, call, callWithin]
  | succ depth ih =>
    funext b args
    cases b <;> simp only [callPrinting, call, callWithin, ih]

theorem applyPrinting_printLine (f : Value) (args : List Value) :
    ev.applyPrinting printLine f args = ev.apply f args := by
  rw [applyPrinting, callPrinting_printLine]
  cases f <;> rfl

theorem enterCallPrinting_printLine (f : Value) (args : List Value) :
    ev.enterCallPrinting printLine f args = ev.enterCall f args := by
  unfold enterCallPrinting
  split
  · rw [callPrinting_printLine]
    rfl
  · rfl

theorem stepPrinting_printLine (form : Value) (env : Env) :
    ev.stepPrinting printLine form env = ev.step form env := by
  unfold stepPrinting
  split
  · simp only [stepListPrinting, enterCallPrinting_printLine]
    rfl
  · rfl

end Evaluator

theorem evalPrinting_printLine (files : Files) (steps depth : Nat) :
    evalPrinting printLine files steps depth = evalWithin files steps depth := by
  induction steps generalizing depth with
  | zero => rfl
  | succ steps ih =>
    cases depth with
    | zero => rfl
    | succ depth =>
      funext form env
      rw [evalPrinting, ih depth, ih (depth + 1), Evaluator.stepPrinting_printLine]
      exact (evalWithin_succ files steps depth form env).symm

theorem Host.printing_printLine (host : Host) : host.printing printLine = host.evaluator := by
  rw [printing, evalPrinting_printLine]
  rfl

end Lisp
