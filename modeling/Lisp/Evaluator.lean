import Lisp.Env
import Lisp.Files
import Lisp.Value.Entries

/-! What the rules of evaluation need of the evaluator itself. The rules are written over any evaluator,
and evaluation ties the knot. -/

namespace Lisp

structure Evaluator where
  /-- Evaluates a form in an environment, one level further in. -/
  eval : Value → Env → Action Value
  files : Files
  /-- How many steps a comparison or a chain of expansions may take. -/
  patience : Nat

/-- The environment of the builtins, which is the first one of a session. -/
def Env.global : Env := ⟨0⟩

inductive Step
  | done (v : Value)
  | next (form : Value) (env : Env)

namespace Evaluator

def same (ev : Evaluator) (a b : Value) : Action Bool :=
  fun σ =>
    match a.equal? σ.cells ev.patience b with
    | some answer => .value answer σ
    | none => .halted .outOfSteps

def mapOf (ev : Evaluator) (pairs : List (Value × Value)) : Action Value := do
  let entries ← Entries.ofList ev.same pairs
  pure (.map entries)

def applyClosure (ev : Evaluator) (c : Closure Value) (args : List Value) : Action Value := do
  let env ← c.env.enter c.params args
  ev.eval c.body env

end Evaluator

end Lisp
