import Lisp.Action
import Lisp.Value.Printer

/-! Builtins that make text of their arguments: for a string, for the output, or for a failure. -/

namespace Lisp

def joinTexts (readable : Bool) (separator : String) (args : List Value) : Action String :=
  .query fun σ => separator.intercalate (args.map (Value.print σ.cells readable))

def printLine (readable : Bool) (args : List Value) : Action Value := do
  let line ← joinTexts readable " " args
  .modify (·.writeLine line)
  pure .nil

def throwTexts (args : List Value) : Action Value := do
  if args.isEmpty then .fail (.thrown "Exception")
  else
    let message ← joinTexts false " " args
    .fail (.thrown message)

end Lisp
