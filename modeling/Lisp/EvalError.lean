import Lisp.Value

/-! The ways in which evaluation fails, and what is said of each. -/

namespace Lisp

inductive EvalError
  | symbolNotFound (name : String)
  | arityMismatch (expected got : Nat)
  | tooFewArguments (least got : Nat)
  | wrongArgType (expected : String) (got : Kind)
  | notAFunction (got : Kind)
  | invalidParameters (reason : String)
  | invalidForm (form reason : String)
  | divisionByZero
  | moduloByZero
  | integerOverflow (operation : String)
  | indexOutOfBounds (index : Int) (length : Nat)
  | fileNotFound (path : String)
  | fileUnreadable (path reason : String)
  | fileTooLarge (path : String) (size : Nat)
  | read (message : String)
  | thrown (message : String)
  deriving DecidableEq, Repr

def EvalError.message : EvalError → String
  | .symbolNotFound name => s!"Symbol '{name}' not found"
  | .arityMismatch expected got =>
    s!"Invalid number of arguments, expected {expected} instead of {got}."
  | .tooFewArguments least got =>
    s!"Invalid number of arguments, expected at least {least} arguments, got {got}."
  | .wrongArgType expected got => s!"Invalid argument type, expected {expected}, got {got.name}"
  | .notAFunction got => s!"Not a function ({got.name})"
  | .invalidParameters reason => s!"Invalid parameter list, {reason}"
  | .invalidForm form reason => s!"Invalid '{form}' form, {reason}"
  | .divisionByZero => "Division by zero"
  | .moduloByZero => "Modulo by zero"
  | .integerOverflow operation => s!"Integer overflow in {operation}"
  | .indexOutOfBounds index length => s!"Index out of bounds (index {index}, length {length})"
  | .fileNotFound path => s!"File \"{path}\" does not exist"
  | .fileUnreadable path reason => s!"Can not read \"{path}\" ({reason})"
  | .fileTooLarge path size => s!"File is too large (\"{path}\", {size} bytes)"
  | .read message => message
  | .thrown message => message

def EvalError.toValue (e : EvalError) : Value :=
  .error e.message

end Lisp
