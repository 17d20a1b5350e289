import Lisp.EvalError
import Lisp.Store

/-! Parameter lists and the frames that bind them. The name after `&` takes the arguments that are left
when every other parameter has one. -/

namespace Lisp

namespace Params

def parseFrom (done : List String) : List Value → Except EvalError Params
  | [] => .ok ⟨done.reverse, none⟩
  | .symbol "&" :: forms =>
    match forms with
    | [.symbol rest] => .ok ⟨done.reverse, some rest⟩
    | _ => .error (.invalidParameters "'&' must be followed by exactly one symbol")
  | .symbol name :: forms => parseFrom (name :: done) forms
  | form :: _ => .error (.invalidParameters s!"expected a symbol, got {form.kind.name}")

def parse (forms : List Value) : Except EvalError Params :=
  parseFrom [] forms

def check (p : Params) (got : Nat) : Except EvalError Unit :=
  let required := p.positional.length
  match p.rest with
  | some _ => if got < required then .error (.tooFewArguments required got) else .ok ()
  | none => if got = required then .ok () else .error (.arityMismatch required got)

def pairs (p : Params) (args : List Value) : List (String × Value) :=
  p.positional.zip args ++
    match p.rest with
    | some rest => [(rest, .list (args.drop p.positional.length))]
    | none => []

/-- A frame inside of `parent` that binds the parameters to arguments. A name that occurs more than once
has the last of its arguments. -/
def frame (p : Params) (parent : Env) (args : List Value) : Except EvalError Frame :=
  (p.check args.length).map fun _ =>
    (p.pairs args).foldl (fun f binding => f.bind binding.1 binding.2) ⟨[], some parent⟩

end Params

end Lisp
