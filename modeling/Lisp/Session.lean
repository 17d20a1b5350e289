import Lisp.Eval

/-! Sessions: one global environment that many texts are evaluated in, one after the other. -/

namespace Lisp

def loadFileSource : String :=
  "(def! load-file (fn* (f) (eval (read-string (str \"(do \" (slurp f) \"\\nnil)\")))))"

def Frame.builtins : Frame where
  bindings := Builtin.all.map fun b => (b.name, .function b)
  parent := none

namespace Host

def evalSource (host : Host) (source : String) : Action Value := do
  let form ← readSource source
  host.eval form .global

def evalToValue (host : Host) (source : String) : Action Value := do
  match ← (host.evalSource source).attempt with
  | .ok v => pure v
  | .error e => pure e.toValue

def rep (host : Host) (source : String) : Action String := do
  let v ← host.evalToValue source
  .query fun σ => v.print σ.cells true

def loadFile (host : Host) (path : String) : Action Value :=
  host.eval (.list [.symbol "load-file", .str path]) .global

/-- Makes the global environment of a session in an empty store: the builtins, the words of the command
line and, unless it is left out, `load-file`. -/
def start (host : Host) (argv : List String) (withLoadFile : Bool) : Action Unit := do
  let _ ← Action.update (·.addFrame .builtins)
  Env.global.set "*ARGV*" (.list (argv.map .str))
  if withLoadFile then
    let _ ← host.evalSource loadFileSource

end Host

end Lisp
