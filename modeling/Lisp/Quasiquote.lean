import Lisp.Evaluator
import Lisp.Reader

/-! Templates. A quasiquoted form is rebuilt part by part. A part under `unquote` is replaced by its value,
and an element under `splice-unquote` by the elements of its value. -/

namespace Lisp

/-- The form that a mark wraps, when the value is a list that the mark could have made. -/
def Marker.body? (m : Marker) : Value → Option Value
  | .list [.symbol name, form] => if name = m.symbolName then some form else none
  | _ => none

theorem Marker.body?_wrap (m : Marker) (form : Value) : m.body? (m.wrap form) = some form := by
  simp [Marker.wrap, Marker.body?]

namespace Evaluator

variable (ev : Evaluator) (env : Env)

def splice (form : Value) : Action (List Value) := do
  let v ← ev.eval form env
  match v.items? with
  | some items => pure items
  | none => .fail (.invalidForm "splice-unquote" s!"expected a list or vector, got {v.kind.name}")

mutual

def fill (template : Value) : Action Value :=
  match Marker.unquote.body? template with
  | some form => ev.eval form env
  | none =>
    match template with
    | .list items => do
      let filled ← fillItems [] items
      pure (.list filled)
    | .vector items => do
      let filled ← fillItems [] items
      pure (.vector filled)
    | v => pure v

/-- Fills the elements of a template, after those in `done`, which are held last first. -/
def fillItems (done : List Value) : List Value → Action (List Value)
  | [] => pure done.reverse
  | item :: items =>
    match Marker.spliceUnquote.body? item with
    | some form => do
      let spliced ← ev.splice env form
      fillItems (spliced.reverse ++ done) items
    | none => do
      let v ← fill item
      fillItems (v :: done) items

end

end Evaluator

end Lisp
