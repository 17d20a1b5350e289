import Lisp.Builtin.Arguments
import Lisp.Numeral

/-! Builtins on lists and vectors. Only `vec` makes a vector; what the others make is a list. -/

namespace Lisp

namespace Sequence

/-- The number of elements, which a list in memory keeps in range. -/
def size (items : List Value) : Int64 :=
  (integer? items.length).getD Int64.maxValue

def isList (args : List Value) : Except EvalError Value := do
  let v ← oneArgument args
  .ok (.bool v.isList)

def isEmpty (args : List Value) : Except EvalError Value := do
  let v ← oneArgument args
  let items ← v.requireItemsOrNil
  .ok (.bool items.isEmpty)

def count (args : List Value) : Except EvalError Value := do
  let v ← oneArgument args
  let items ← v.requireItemsOrNil
  .ok (.int (size items))

def first (args : List Value) : Except EvalError Value := do
  let v ← oneArgument args
  let items ← v.requireItemsOrNil
  .ok (items.head?.getD .nil)

def rest (args : List Value) : Except EvalError Value := do
  let v ← oneArgument args
  let items ← v.requireItemsOrNil
  .ok (.list items.tail)

def element? (items : List Value) (index : Int) : Option Value :=
  if index < 0 then none else items[index.toNat]?

def nth (args : List Value) : Except EvalError Value := do
  let (v, index) ← twoArguments args
  let items ← v.requireItems
  let index ← index.requireInt
  match element? items index.toInt with
  | some item => .ok item
  | none => .error (.indexOutOfBounds index.toInt items.length)

def cons (args : List Value) : Except EvalError Value := do
  let (head, tail) ← twoArguments args
  let items ← tail.requireItems
  .ok (.list (head :: items))

def concat (args : List Value) : Except EvalError Value := do
  let parts ← args.mapM Value.requireItems
  .ok (.list parts.flatten)

def vec (args : List Value) : Except EvalError Value := do
  let v ← oneArgument args
  let items ← v.requireItems
  .ok (.vector items)

end Sequence

end Lisp
