import Lisp.Builtin.Arithmetic
import Lisp.Builtin.Input
import Lisp.Builtin.Sequence
import Lisp.Builtin.Text
import Lisp.Cell
import Lisp.Evaluator

/-! Calling builtins and applying functions. The two depend on each other, since `swap!` is a builtin that
applies a function. -/

namespace Lisp

namespace Builtin

def swapContent (apply : Value → List Value → Action Value) : List Value → Action Value
  | a :: f :: extra => do
    let c ← .ofExcept a.requireAtom
    match f with
    | .function _ | .closure _ =>
      let content ← c.get
      let v ← apply f (content :: extra)
      c.set v
      pure v
    | f => .fail (.notAFunction f.kind)
  | args => .fail (.tooFewArguments 2 args.length)

end Builtin

/-- Applies a function to arguments, where `call` calls builtins. -/
def Evaluator.applyBy (ev : Evaluator) (call : Builtin → List Value → Action Value) (f : Value)
    (args : List Value) : Action Value :=
  match f with
  | .function b => call b args
  | .closure c => ev.applyClosure c args
  | f => .fail (.notAFunction f.kind)

/-- Calls a builtin. Only `swap!` applies a function, and if it is a builtin too, it gets at least one
argument fewer than `swap!` got. So `depth` bounds how many calls are nested, when it is the number of
arguments. -/
def Evaluator.callWithin (ev : Evaluator) (depth : Nat) (b : Builtin) (args : List Value) :
    Action Value :=
  match b with
  | .add => .ofExcept (Arithmetic.fold (some 0) Arithmetic.add args)
  | .subtract => .ofExcept (Arithmetic.fold none Arithmetic.subtract args)
  | .multiply => .ofExcept (Arithmetic.fold (some 1) Arithmetic.multiply args)
  | .divide => .ofExcept (Arithmetic.fold none Arithmetic.divide args)
  | .remainder => .ofExcept (Arithmetic.fold none Arithmetic.remainder args)
  | .greater => .ofExcept (Arithmetic.compare (fun a b => a > b) args)
  | .atLeast => .ofExcept (Arithmetic.compare (fun a b => a ≥ b) args)
  | .less => .ofExcept (Arithmetic.compare (fun a b => a < b) args)
  | .atMost => .ofExcept (Arithmetic.compare (fun a b => a ≤ b) args)
  | .equal => do
    let (x, y) ← .ofExcept (twoArguments args)
    let answer ← ev.same x y
    pure (.bool answer)
  | .not => do
    let v ← .ofExcept (oneArgument args)
    pure (.bool !v.isTruthy)
  | .eval => do
    let form ← .ofExcept (oneArgument args)
    ev.eval form .global
  | .throw => throwTexts args
  | .str => do
    let text ← joinTexts false "" args
    pure (.str text)
  | .prStr => do
    let text ← joinTexts true " " args
    pure (.str text)
  | .prn => printLine true args
  | .println => printLine false args
  | .list => pure (.list args)
  | .isList => .ofExcept (Sequence.isList args)
  | .isEmpty => .ofExcept (Sequence.isEmpty args)
  | .count => .ofExcept (Sequence.count args)
  | .first => .ofExcept (Sequence.first args)
  | .rest => .ofExcept (Sequence.rest args)
  | .nth => .ofExcept (Sequence.nth args)
  | .cons => .ofExcept (Sequence.cons args)
  | .concat => .ofExcept (Sequence.concat args)
  | .vec => .ofExcept (Sequence.vec args)
  | .atom => do
    let v ← .ofExcept (oneArgument args)
    let c ← Cell.make v
    pure (.atom c)
  | .isAtom => do
    let v ← .ofExcept (oneArgument args)
    pure (.bool (v.kind == .atom))
  | .deref => do
    let v ← .ofExcept (oneArgument args)
    let c ← .ofExcept v.requireAtom
    c.get
  | .reset => do
    let (a, v) ← .ofExcept (twoArguments args)
    let c ← .ofExcept a.requireAtom
    c.set v
    pure v
  | .swap =>
    match depth with
    | 0 => .fail (.tooFewArguments 2 args.length)
    | depth + 1 => Builtin.swapContent (ev.applyBy (ev.callWithin depth)) args
  | .readString => do
    let v ← .ofExcept (oneArgument args)
    let source ← .ofExcept v.requireStr
    readSource source
  | .slurp => do
    let v ← .ofExcept (oneArgument args)
    let path ← .ofExcept v.requireStr
    fileContent ev.files path

def Evaluator.call (ev : Evaluator) (b : Builtin) (args : List Value) : Action Value :=
  ev.callWithin args.length b args

def Evaluator.apply (ev : Evaluator) (f : Value) (args : List Value) : Action Value :=
  ev.applyBy ev.call f args

end Lisp
