import Lisp.EvalError

/-! What builtins ask of their arguments: how many there are, and of what kind one is. -/

namespace Lisp

def oneArgument : List Value → Except EvalError Value
  | [a] => .ok a
  | args => .error (.arityMismatch 1 args.length)

def twoArguments : List Value → Except EvalError (Value × Value)
  | [a, b] => .ok (a, b)
  | args => .error (.arityMismatch 2 args.length)

namespace Value

def requireInt : Value → Except EvalError Int64
  | .int n => .ok n
  | v => .error (.wrongArgType "integer" v.kind)

def requireStr : Value → Except EvalError String
  | .str text => .ok text
  | v => .error (.wrongArgType "string" v.kind)

def requireItems (v : Value) : Except EvalError (List Value) :=
  match v.items? with
  | some items => .ok items
  | none => .error (.wrongArgType "list or vector" v.kind)

/-- The elements of a list or vector, of which nil has none. -/
def requireItemsOrNil : Value → Except EvalError (List Value)
  | .nil => .ok []
  | v => v.requireItems

def requireAtom : Value → Except EvalError Cell
  | .atom c => .ok c
  | v => .error (.wrongArgType "atom" v.kind)

end Value

end Lisp
