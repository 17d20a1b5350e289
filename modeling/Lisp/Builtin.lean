/-! The functions that every session starts with, by name. What each does to its arguments is defined
with the group it belongs to. -/

namespace Lisp

inductive Builtin
  | add
  | subtract
  | multiply
  | divide
  | remainder
  | greater
  | atLeast
  | less
  | atMost
  | equal
  | not
  | eval
  | throw
  | str
  | prStr
  | prn
  | println
  | list
  | isList
  | isEmpty
  | count
  | first
  | rest
  | nth
  | cons
  | concat
  | vec
  | atom
  | isAtom
  | deref
  | reset
  | swap
  | readString
  | slurp
  deriving DecidableEq, Repr

namespace Builtin

def name : Builtin → String
  | .add => "+"
  | .subtract => "-"
  | .multiply => "*"
  | .divide => "/"
  | .remainder => "%"
  | .greater => ">"
  | .atLeast => ">="
  | .less => "<"
  | .atMost => "<="
  | .equal => "="
  | .not => "not"
  | .eval => "eval"
  | .throw => "throw"
  | .str => "str"
  | .prStr => "pr-str"
  | .prn => "prn"
  | .println => "println"
  | .list => "list"
  | .isList => "list?"
  | .isEmpty => "empty?"
  | .count => "count"
  | .first => "first"
  | .rest => "rest"
  | .nth => "nth"
  | .cons => "cons"
  | .concat => "concat"
  | .vec => "vec"
  | .atom => "atom"
  | .isAtom => "atom?"
  | .deref => "deref"
  | .reset => "reset!"
  | .swap => "swap!"
  | .readString => "read-string"
  | .slurp => "slurp"

def all : List Builtin :=
  [add, subtract, multiply, divide, remainder, greater, atLeast, less, atMost, equal, not, eval, throw,
   str, prStr, prn, println, list, isList, isEmpty, count, first, rest, nth, cons, concat, vec, atom,
   isAtom, deref, reset, swap, readString, slurp]

def ofName? (name : String) : Option Builtin :=
  all.find? fun b => b.name == name

theorem ofName?_name (b : Builtin) : ofName? b.name = some b := by
  cases b <;> decide

theorem name_injective {a b : Builtin} (h : a.name = b.name) : a = b := by
  have := ofName?_name a
  rw [h, ofName?_name b] at this
  exact (Option.some.inj this).symm

end Builtin

end Lisp
