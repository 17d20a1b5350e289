import Lisp.Macro
import Lisp.Quasiquote

/-! The special forms: lists whose head names one of nine rules, whatever that name may be bound to. -/

namespace Lisp

inductive SpecialForm
  | define
  | letIn
  | sequence
  | conditional
  | lambda
  | quote
  | quasiquote
  | defineMacro
  | macroExpand
  deriving DecidableEq, Repr

namespace SpecialForm

def name : SpecialForm → String
  | .define => "def!"
  | .letIn => "let*"
  | .sequence => "do"
  | .conditional => "if"
  | .lambda => "fn*"
  | .quote => "quote"
  | .quasiquote => "quasiquote"
  | .defineMacro => "defmacro!"
  | .macroExpand => "macroexpand"

def ofName? : String → Option SpecialForm
  | "def!" => some .define
  | "let*" => some .letIn
  | "do" => some .sequence
  | "if" => some .conditional
  | "fn*" => some .lambda
  | "quote" => some .quote
  | "quasiquote" => some .quasiquote
  | "defmacro!" => some .defineMacro
  | "macroexpand" => some .macroExpand
  | _ => none

theorem ofName?_eq_some {s : String} {sf : SpecialForm} : ofName? s = some sf ↔ s = sf.name := by
  constructor
  · intro h
    unfold ofName? at h
    split at h <;> simp_all <;> subst h <;> rfl
  · rintro rfl
    cases sf <;> rfl

def fail {α : Type} (sf : SpecialForm) (reason : String) : Action α :=
  .fail (.invalidForm sf.name reason)

def wrongOperands {α : Type} (sf : SpecialForm) (expected : String) (operands : List Value) :
    Action α :=
  sf.fail s!"expected {expected} operands, got {operands.length}"

def boundName (sf : SpecialForm) (v : Value) : Action String :=
  match v with
  | .symbol name => pure name
  | v => sf.fail s!"expected a symbol, got {v.kind.name}"

end SpecialForm

namespace Evaluator

variable (ev : Evaluator)

def define (operands : List Value) (env : Env) : Action Step :=
  match operands with
  | [name, form] => do
    let name ← SpecialForm.define.boundName name
    let v ← ev.eval form env
    env.set name v
    pure (.done v)
  | _ => SpecialForm.define.wrongOperands "2" operands

/-- Evaluates `(defmacro! name function)`, which binds a copy of the function that is a macro. -/
def defineMacro (operands : List Value) (env : Env) : Action Step :=
  match operands with
  | [name, form] => do
    let name ← SpecialForm.defineMacro.boundName name
    match ← ev.eval form env with
    | .closure c =>
      let c ← .update (·.addClosure c.params c.body c.env true)
      env.set name (.closure c)
      pure (.done (.closure c))
    | v => SpecialForm.defineMacro.fail s!"expected a function, got {v.kind.name}"
  | _ => SpecialForm.defineMacro.wrongOperands "2" operands

/-- Binds names and values in turn. Each value can use the names before it. -/
def bindAll (env : Env) : List Value → Action Unit
  | name :: form :: bindings => do
    let name ← SpecialForm.letIn.boundName name
    let v ← ev.eval form env
    env.set name v
    bindAll env bindings
  | _ => pure ()

/-- Evaluates `(let* (name value ...) body)`, whose body has an environment of its own. -/
def letIn (operands : List Value) (env : Env) : Action Step :=
  match operands with
  | [bindings, body] =>
    match bindings.items? with
    | some items =>
      if items.length % 2 = 1 then SpecialForm.letIn.fail "binding list has an odd number of items"
      else do
        let inner ← env.child
        ev.bindAll inner items
        pure (.next body inner)
    | none =>
      SpecialForm.letIn.fail s!"expected a binding list or vector, got {bindings.kind.name}"
  | _ => SpecialForm.letIn.wrongOperands "2" operands

def sequence (env : Env) : List Value → Action Step
  | [] => pure (.done .nil)
  | [form] => pure (.next form env)
  | form :: forms => do
    let _ ← ev.eval form env
    sequence env forms

def conditional (operands : List Value) (env : Env) : Action Step :=
  match operands with
  | [condition, thenForm] => do
    let v ← ev.eval condition env
    pure (if v.isTruthy then .next thenForm env else .done .nil)
  | [condition, thenForm, elseForm] => do
    let v ← ev.eval condition env
    pure (.next (if v.isTruthy then thenForm else elseForm) env)
  | _ => SpecialForm.conditional.wrongOperands "2 or 3" operands

def makeClosure (operands : List Value) (env : Env) : Action Step :=
  match operands with
  | [params, body] =>
    match params.items? with
    | some items => do
      let params ← .ofExcept (Params.parse items)
      let c ← .update (·.addClosure params body env false)
      pure (.done (.closure c))
    | none =>
      SpecialForm.lambda.fail s!"expected a parameter list or vector, got {params.kind.name}"
  | _ => SpecialForm.lambda.wrongOperands "2" operands

def evalSpecial (sf : SpecialForm) (operands : List Value) (env : Env) : Action Step :=
  match sf with
  | .define => ev.define operands env
  | .letIn => ev.letIn operands env
  | .sequence => ev.sequence env operands
  | .conditional => ev.conditional operands env
  | .lambda => makeClosure operands env
  | .quote =>
    match operands with
    | [form] => pure (.done form)
    | _ => sf.wrongOperands "1" operands
  | .quasiquote =>
    match operands with
    | [template] => do
      let v ← ev.fill env template
      pure (.done v)
    | _ => sf.wrongOperands "1" operands
  | .defineMacro => ev.defineMacro operands env
  | .macroExpand =>
    match operands with
    | [form] => do
      let v ← ev.expand form env
      pure (.done v)
    | _ => sf.wrongOperands "1" operands

end Evaluator

end Lisp
