import Lisp.Evaluator

/-! Macros: closures that are given the forms of their operands, and whose value takes the place of the
form they were called in. -/

namespace Lisp

namespace Evaluator

def macroNamed? (head : Value) (env : Env) : Action (Option (Closure Value)) :=
  match head with
  | .symbol name => do
    match ← env.get? name with
    | some (.closure c) => pure (if c.isMacro then some c else none)
    | _ => pure none
  | _ => pure none

/-- Expands a form for as long as it calls a macro, at most `n` times. -/
def expandUpTo (ev : Evaluator) (env : Env) : Nat → Value → Action Value
  | 0, _ => .halt .outOfSteps
  | n + 1, form =>
    match form with
    | .list (head :: operands) => do
      match ← macroNamed? head env with
      | some c =>
        let expansion ← ev.applyClosure c operands
        expandUpTo ev env n expansion
      | none => pure form
    | form => pure form

def expand (ev : Evaluator) (form : Value) (env : Env) : Action Value :=
  ev.expandUpTo env ev.patience form

end Evaluator

end Lisp
