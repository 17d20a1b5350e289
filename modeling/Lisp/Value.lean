import Lisp.Builtin

/-! Values, which are also the forms of the language. Atoms and environments are handles: what an atom
holds and what an environment binds is kept in the store. -/

namespace Lisp

/-- Handle of an environment: the number of its innermost frame. -/
structure Env where
  frame : Nat
  deriving DecidableEq, Repr

/-- Handle of an atom: the number of the cell that holds its content. -/
structure Cell where
  slot : Nat
  deriving DecidableEq, Repr

/-- A parameter list. The parameter `rest`, when there is one, takes the arguments that are left. -/
structure Params where
  positional : List String
  rest : Option String
  deriving DecidableEq, Repr

/-- A function made by `fn*`, with the environment it was made in. Two closures are the same when they
have the same `id`. -/
structure Closure (α : Type) where
  id : Nat
  params : Params
  body : α
  env : Env
  isMacro : Bool

inductive Value
  | int (n : Int64)
  | bool (b : Bool)
  | nil
  | eof
  | symbol (name : String)
  | keyword (name : String)
  | str (text : String)
  | list (items : List Value)
  | vector (items : List Value)
  | map (entries : List (Value × Value))
  | function (b : Builtin)
  | closure (c : Closure Value)
  | atom (cell : Cell)
  /-- A failure that has become a value. -/
  | error (message : String)

instance : Inhabited Value := ⟨.nil⟩

inductive Kind
  | integer
  | boolean
  | nil
  | eof
  | symbol
  | keyword
  | string
  | list
  | vector
  | map
  | function
  | closure
  | macroClosure
  | atom
  | error
  deriving DecidableEq, Repr

def Kind.name : Kind → String
  | .integer => "integer"
  | .boolean => "boolean"
  | .nil => "nil"
  | .eof => "eof"
  | .symbol => "symbol"
  | .keyword => "keyword"
  | .string => "string"
  | .list => "list"
  | .vector => "vector"
  | .map => "map"
  | .function => "function"
  | .closure => "closure"
  | .macroClosure => "macro"
  | .atom => "atom"
  | .error => "error"

namespace Value

def kind : Value → Kind
  | .int _ => .integer
  | .bool _ => .boolean
  | .nil => .nil
  | .eof => .eof
  | .symbol _ => .symbol
  | .keyword _ => .keyword
  | .str _ => .string
  | .list _ => .list
  | .vector _ => .vector
  | .map _ => .map
  | .function _ => .function
  | .closure c => if c.isMacro then .macroClosure else .closure
  | .atom _ => .atom
  | .error _ => .error

def isTruthy : Value → Bool
  | .nil | .bool false => false
  | _ => true

def items? : Value → Option (List Value)
  | .list items | .vector items => some items
  | _ => none

def symbolName? : Value → Option String
  | .symbol name => some name
  | _ => none

def int? : Value → Option Int64
  | .int n => some n
  | _ => none

def str? : Value → Option String
  | .str text => some text
  | _ => none

def isSymbol (name : String) (v : Value) : Bool :=
  v.symbolName? == some name

def isList : Value → Bool
  | .list _ => true
  | _ => false

def isError : Value → Bool
  | .error _ => true
  | _ => false

mutual

def height : Value → Nat
  | .list items | .vector items => itemsHeight items + 1
  | .map entries => entriesHeight entries + 1
  | _ => 1

def itemsHeight : List Value → Nat
  | [] => 0
  | v :: vs => max v.height (itemsHeight vs)

def entriesHeight : List (Value × Value) → Nat
  | [] => 0
  | (k, v) :: es => max (max k.height v.height) (entriesHeight es)

end

end Value

end Lisp
