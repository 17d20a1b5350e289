import Lisp.Action
import Lisp.Params

/-! Actions on environments. All that holds an environment sees what is bound in it later. -/

namespace Lisp

namespace Env

def enter (parent : Env) (params : Params) (args : List Value) : Action Env :=
  match params.frame parent args with
  | .ok f => .update (·.addFrame f)
  | .error e => .fail e

def outermost : Action Env :=
  .update (·.addFrame ⟨[], none⟩)

def child (parent : Env) : Action Env :=
  .update (·.addFrame ⟨[], some parent⟩)

def set (e : Env) (name : String) (v : Value) : Action Unit :=
  .modify (·.bind e name v)

def get? (e : Env) (name : String) : Action (Option Value) :=
  .query (·.find? e name)

def lookup (e : Env) (name : String) : Action Value := do
  match ← e.get? name with
  | some v => pure v
  | none => .fail (.symbolNotFound name)

end Env

end Lisp
