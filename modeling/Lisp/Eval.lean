import Lisp.Builtin.Call
import Lisp.SpecialForm

/-! Evaluation. A form is evaluated in steps. A step that ends in a tail position hands over the form to go
on with, so that a loop of tail calls does not nest. -/

namespace Lisp

namespace Evaluator

variable (ev : Evaluator)

def evalAll (forms : List Value) (env : Env) : Action (List Value) :=
  forms.mapM (ev.eval · env)

def evalEntries (entries : List (Value × Value)) (env : Env) : Action (List (Value × Value)) :=
  entries.mapM fun entry => do
    let v ← ev.eval entry.2 env
    pure (entry.1, v)

def enterCall (f : Value) (args : List Value) : Action Step :=
  match f with
  | .closure c => do
    let env ← c.env.enter c.params args
    pure (.next c.body env)
  | .function b => do
    let v ← ev.call b args
    pure (.done v)
  | f => .fail (.notAFunction f.kind)

/-- A list is a special form, a macro call or an application, in this order. -/
def stepList (head : Value) (operands : List Value) (env : Env) : Action Step :=
  match head.symbolName?.bind SpecialForm.ofName? with
  | some sf => ev.evalSpecial sf operands env
  | none => do
    match ← macroNamed? head env with
    | some c =>
      let expansion ← ev.applyClosure c operands
      pure (.next expansion env)
    | none =>
      let f ← ev.eval head env
      let args ← ev.evalAll operands env
      ev.enterCall f args

def step (form : Value) (env : Env) : Action Step :=
  match form with
  | .list [] => pure (.done (.list []))
  | .list (head :: operands) => ev.stepList head operands env
  | .symbol name => do
    let v ← env.lookup name
    pure (.done v)
  | .vector items => do
    let values ← ev.evalAll items env
    pure (.done (.vector values))
  | .map entries => do
    let entries ← ev.evalEntries entries env
    let v ← ev.mapOf entries
    pure (.done v)
  | .error message => .fail (.thrown message)
  | v => pure (.done v)

end Evaluator

/-- What a session has from outside: the files it can read, and how long and how deep its evaluations can
go. -/
structure Host where
  files : Files
  steps : Nat
  depth : Nat

/-- Evaluates a form in at most `steps` steps in a row and with at most `depth` evaluations nested. -/
def evalWithin (files : Files) : Nat → Nat → Value → Env → Action Value
  | 0, _, _, _ => .halt .outOfSteps
  | _ + 1, 0, _, _ => .halt .tooDeep
  | steps + 1, depth + 1, form, env => do
    match ← Evaluator.step ⟨evalWithin files steps depth, files, steps⟩ form env with
    | .done v => pure v
    | .next form env => evalWithin files steps (depth + 1) form env

namespace Host

def evaluator (host : Host) : Evaluator :=
  ⟨evalWithin host.files host.steps host.depth, host.files, host.steps⟩

def eval (host : Host) (form : Value) (env : Env) : Action Value :=
  host.evaluator.eval form env

def apply (host : Host) (f : Value) (args : List Value) : Action Value :=
  host.evaluator.apply f args

end Host

end Lisp
