import Lisp.Builtin.Arguments
import Lisp.Numeral

/-! Arithmetic of 64-bit integers. An operation folds its arguments from the left, looks at each only when
it gets there, and fails at the first result that is out of range. -/

namespace Lisp

namespace Arithmetic

/-- The exact result of an operation, which has to be in range. -/
def exact (operation : String) (n : Int) : Except EvalError Int64 :=
  match integer? n with
  | some n => .ok n
  | none => .error (.integerOverflow operation)

def add (a b : Int64) : Except EvalError Int64 :=
  exact "addition" (a.toInt + b.toInt)

def subtract (a b : Int64) : Except EvalError Int64 :=
  exact "subtraction" (a.toInt - b.toInt)

def multiply (a b : Int64) : Except EvalError Int64 :=
  exact "multiplication" (a.toInt * b.toInt)

/-- The quotient, rounded toward zero. -/
def divide (a b : Int64) : Except EvalError Int64 :=
  if b = 0 then .error .divisionByZero else exact "division" (a.toInt.tdiv b.toInt)

/-- The remainder, with the sign of `a`. It is refused where the quotient is out of range. -/
def remainder (a b : Int64) : Except EvalError Int64 :=
  if b = 0 then .error .moduloByZero
  else do
    let _ ← exact "modulo" (a.toInt.tdiv b.toInt)
    exact "modulo" (a.toInt.tmod b.toInt)

def foldFrom (op : Int64 → Int64 → Except EvalError Int64) (a : Int64) :
    List Value → Except EvalError Int64
  | [] => .ok a
  | v :: vs => do
    let b ← v.requireInt
    let c ← op a b
    foldFrom op c vs

/-- Folds an operation over its arguments. `unit` is its value without any, if it has one. -/
def fold (unit : Option Int64) (op : Int64 → Int64 → Except EvalError Int64) :
    List Value → Except EvalError Value
  | [] =>
    match unit with
    | some n => .ok (.int n)
    | none => .error (.tooFewArguments 1 0)
  | v :: vs => do
    let a ← v.requireInt
    let n ← foldFrom op a vs
    .ok (.int n)

def compare (holds : Int64 → Int64 → Bool) (args : List Value) : Except EvalError Value := do
  let (a, b) ← twoArguments args
  let m ← a.requireInt
  let n ← b.requireInt
  .ok (.bool (holds m n))

end Arithmetic

end Lisp
