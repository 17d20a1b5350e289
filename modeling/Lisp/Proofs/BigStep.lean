import Lisp.Eval
import Lisp.Proofs.Outcome

/-! The meaning of forms as a relation, with no order of steps but that of the rules and no
bound on them. A form in a tail position is evaluated by a premise like any other. The result of
a form is a value or the failure that came first. -/

namespace Lisp

def SpecialForm.form (sf : SpecialForm) (operands : List Value) : Value :=
  .list (.symbol sf.name :: operands)

def SpecialForm.Takes : SpecialForm → Nat → Prop
  | .sequence, _ => True
  | .conditional, n => n = 2 ∨ n = 3
  | .quote, n | .quasiquote, n | .macroExpand, n => n = 1
  | .define, n | .letIn, n | .lambda, n | .defineMacro, n => n = 2

def SpecialForm.arity : SpecialForm → String
  | .sequence => "any number of"
  | .conditional => "2 or 3"
  | .quote | .quasiquote | .macroExpand => "1"
  | .define | .letIn | .lambda | .defineMacro => "2"

/-- The failure of a special form whose operands are no good, whatever they evaluate to. -/
inductive Malformed : SpecialForm → List Value → EvalError → Prop
  | count {sf : SpecialForm} {operands : List Value} (number : ¬ sf.Takes operands.length) :
    Malformed sf operands
      (.invalidForm sf.name s!"expected {sf.arity} operands, got {operands.length}")
  | definedName {sf : SpecialForm} {name form : Value} (binds : sf = .define ∨ sf = .defineMacro)
    (noName : name.symbolName? = none) :
    Malformed sf [name, form] (.invalidForm sf.name s!"expected a symbol, got {name.kind.name}")
  | bindings {bindings body : Value} (noItems : bindings.items? = none) :
    Malformed .letIn [bindings, body]
      (.invalidForm "let*" s!"expected a binding list or vector, got {bindings.kind.name}")
  | oddBindings {bindings body : Value} {items : List Value}
      (isItems : bindings.items? = some items)
    (odd : items.length % 2 = 1) :
    Malformed .letIn [bindings, body]
      (.invalidForm "let*" "binding list has an odd number of items")
  | params {params body : Value} (noItems : params.items? = none) :
    Malformed .lambda [params, body]
      (.invalidForm "fn*" s!"expected a parameter list or vector, got {params.kind.name}")
  | param {params body : Value} {items : List Value} {e : EvalError}
      (isItems : params.items? = some items)
    (parsed : Params.parse items = .error e) : Malformed .lambda [params, body] e

def Value.IsConstant : Value → Prop
  | .symbol _ | .list (_ :: _) | .vector _ | .map _ | .error _ => False
  | _ => True

/-- The macro that a form calls, with the forms of its operands. -/
def Store.macroCall? (σ : Store) (env : Env) : Value → Option (Closure Value × List Value)
  | .list (.symbol name :: operands) =>
    match σ.find? env name with
    | some (.closure c) => if c.isMacro then some (c, operands) else none
    | _ => none
  | _ => none

/-- The entries of a map made of keys and values, when comparisons of keys end. -/
def EntriesOf (cells : Cells) (pairs : List (Value × Value)) (entries : Entries) : Prop :=
  ∃ patience, Entries.ofList (fun k l => k.equal? cells patience l) pairs = some entries

/-- An evaluator for builtins that evaluate nothing. -/
def Evaluator.idle (files : Files) (patience : Nat) : Evaluator :=
  ⟨fun _ _ => .halt .tooDeep, files, patience⟩

open SpecialForm in
mutual

/-- A form in an environment and a store has this result, and leaves this store. -/
inductive Evaluates (files : Files) : Value → Env → Store → Except EvalError Value → Store → Prop
  | constant {form env σ} (isConstant : form.IsConstant) : Evaluates files form env σ (.ok form) σ
  | symbol {name env σ v} (found : σ.find? env name = some v) :
    Evaluates files (.symbol name) env σ (.ok v) σ
  | unbound {name env σ} (notFound : σ.find? env name = none) :
    Evaluates files (.symbol name) env σ (.error (.symbolNotFound name)) σ
  | thrown {message env σ} : Evaluates files (.error message) env σ (.error (.thrown message)) σ
  | vector {items env σ r τ} (all : EvaluatesAll files items env σ r τ) :
    Evaluates files (.vector items) env σ (r.map .vector) τ
  | map {entries env σ values new τ}
    (all : EvaluatesAll files (entries.map Prod.snd) env σ (.ok values) τ)
    (made : EntriesOf τ.cells ((entries.map Prod.fst).zip values) new) :
    Evaluates files (.map entries) env σ (.ok (.map new)) τ
  | mapFails {entries env σ e τ}
    (all : EvaluatesAll files (entries.map Prod.snd) env σ (.error e) τ) :
    Evaluates files (.map entries) env σ (.error e) τ
  | malformed {sf operands env σ e} (bad : Malformed sf operands e) :
    Evaluates files (form sf operands) env σ (.error e) σ
  | define {name value env σ v τ} (evaluated : Evaluates files value env σ (.ok v) τ) :
    Evaluates files (form .define [.symbol name, value]) env σ (.ok v) (τ.bind env name v)
  | defineFails {name value env σ e τ} (fails : Evaluates files value env σ (.error e) τ) :
    Evaluates files (form .define [.symbol name, value]) env σ (.error e) τ
  | letIn {bindings items body env inner σ σ' ρ r τ} (isItems : bindings.items? = some items)
    (even : items.length % 2 = 0) (child : σ.addFrame ⟨[], some env⟩ = (inner, σ'))
    (bound : BindsAll files inner items σ' (.ok ()) ρ)
    (evaluated : Evaluates files body inner ρ r τ) :
    Evaluates files (form .letIn [bindings, body]) env σ r τ
  | letInFails {bindings items body env inner σ σ' e τ} (isItems : bindings.items? = some items)
    (even : items.length % 2 = 0) (child : σ.addFrame ⟨[], some env⟩ = (inner, σ'))
    (fails : BindsAll files inner items σ' (.error e) τ) :
    Evaluates files (form .letIn [bindings, body]) env σ (.error e) τ
  | emptySequence {env σ} : Evaluates files (form .sequence []) env σ (.ok .nil) σ
  | sequence {forms last env σ values ρ r τ} (first : EvaluatesAll files forms env σ (.ok values) ρ)
    (evaluated : Evaluates files last env ρ r τ) :
    Evaluates files (form .sequence (forms ++ [last])) env σ r τ
  | sequenceFails {forms last env σ e τ} (first : EvaluatesAll files forms env σ (.error e) τ) :
    Evaluates files (form .sequence (forms ++ [last])) env σ (.error e) τ
  | thenPart {condition thenForm rest env σ v ρ r τ} (few : rest.length ≤ 1)
    (chosen : Evaluates files condition env σ (.ok v) ρ) (truthy : v.isTruthy = true)
    (evaluated : Evaluates files thenForm env ρ r τ) :
    Evaluates files (form .conditional (condition :: thenForm :: rest)) env σ r τ
  | elsePart {condition thenForm elseForm env σ v ρ r τ}
    (chosen : Evaluates files condition env σ (.ok v) ρ) (falsy : v.isTruthy = false)
    (evaluated : Evaluates files elseForm env ρ r τ) :
    Evaluates files (form .conditional [condition, thenForm, elseForm]) env σ r τ
  | noElse {condition thenForm env σ v τ} (chosen : Evaluates files condition env σ (.ok v) τ)
    (falsy : v.isTruthy = false) :
    Evaluates files (form .conditional [condition, thenForm]) env σ (.ok .nil) τ
  | conditionFails {condition thenForm rest env σ e τ} (few : rest.length ≤ 1)
    (fails : Evaluates files condition env σ (.error e) τ) :
    Evaluates files (form .conditional (condition :: thenForm :: rest)) env σ (.error e) τ
  | lambda {params items parsed body env σ c τ} (isItems : params.items? = some items)
    (isParsed : Params.parse items = .ok parsed)
    (made : σ.addClosure parsed body env false = (c, τ)) :
    Evaluates files (form .lambda [params, body]) env σ (.ok (.closure c)) τ
  | quote {value env σ} : Evaluates files (form .quote [value]) env σ (.ok value) σ
  | quasiquote {template env σ r τ} (filled : Fills files template env σ r τ) :
    Evaluates files (form .quasiquote [template]) env σ r τ
  | defineMacro {name value env σ c ρ m τ}
    (evaluated : Evaluates files value env σ (.ok (.closure c)) ρ)
    (made : ρ.addClosure c.params c.body c.env true = (m, τ)) :
    Evaluates files (form .defineMacro [.symbol name, value]) env σ (.ok (.closure m))
      (τ.bind env name (.closure m))
  | macroNoClosure {name value env σ v τ} (evaluated : Evaluates files value env σ (.ok v) τ)
    (noClosure : ∀ c, v ≠ .closure c) :
    Evaluates files (form .defineMacro [.symbol name, value]) env σ
      (.error (.invalidForm "defmacro!" s!"expected a function, got {v.kind.name}")) τ
  | defineMacroFails {name value env σ e τ} (fails : Evaluates files value env σ (.error e) τ) :
    Evaluates files (form .defineMacro [.symbol name, value]) env σ (.error e) τ
  | macroExpand {value env σ r τ} (expanded : Expands files value env σ r τ) :
    Evaluates files (form .macroExpand [value]) env σ r τ
  | macroCall {call env σ c operands expansion ρ r τ} (ordinary : ∀ sf forms, call ≠ form sf forms)
    (calls : σ.macroCall? env call = some (c, operands))
    (expanded : Applies files (.closure c) operands σ (.ok expansion) ρ)
    (evaluated : Evaluates files expansion env ρ r τ) : Evaluates files call env σ r τ
  | macroCallFails {call env σ c operands e τ} (ordinary : ∀ sf forms, call ≠ form sf forms)
    (calls : σ.macroCall? env call = some (c, operands))
    (fails : Applies files (.closure c) operands σ (.error e) τ) :
    Evaluates files call env σ (.error e) τ
  | application {head operands env σ f ρ args ρ' r τ}
    (ordinary : ∀ sf forms, .list (head :: operands) ≠ form sf forms)
    (noMacro : σ.macroCall? env (.list (head :: operands)) = none)
    (function : Evaluates files head env σ (.ok f) ρ)
    (arguments : EvaluatesAll files operands env ρ (.ok args) ρ')
    (applied : Applies files f args ρ' r τ) : Evaluates files (.list (head :: operands)) env σ r τ
  | headFails {head operands env σ e τ}
    (ordinary : ∀ sf forms, .list (head :: operands) ≠ form sf forms)
    (noMacro : σ.macroCall? env (.list (head :: operands)) = none)
    (fails : Evaluates files head env σ (.error e) τ) :
    Evaluates files (.list (head :: operands)) env σ (.error e) τ
  | argumentFails {head operands env σ f ρ e τ}
    (ordinary : ∀ sf forms, .list (head :: operands) ≠ form sf forms)
    (noMacro : σ.macroCall? env (.list (head :: operands)) = none)
    (function : Evaluates files head env σ (.ok f) ρ)
    (fails : EvaluatesAll files operands env ρ (.error e) τ) :
    Evaluates files (.list (head :: operands)) env σ (.error e) τ

inductive EvaluatesAll (files : Files) :
    List Value → Env → Store → Except EvalError (List Value) → Store → Prop
  | nil {env σ} : EvaluatesAll files [] env σ (.ok []) σ
  | cons {form forms env σ v ρ r τ} (head : Evaluates files form env σ (.ok v) ρ)
    (tail : EvaluatesAll files forms env ρ r τ) :
    EvaluatesAll files (form :: forms) env σ (r.map (v :: ·)) τ
  | fails {form forms env σ e τ} (head : Evaluates files form env σ (.error e) τ) :
    EvaluatesAll files (form :: forms) env σ (.error e) τ

inductive BindsAll (files : Files) : Env → List Value → Store → Except EvalError Unit → Store → Prop
  | nil {env σ} : BindsAll files env [] σ (.ok ()) σ
  | cons {name form bindings env σ v ρ r τ} (head : Evaluates files form env σ (.ok v) ρ)
    (tail : BindsAll files env bindings (ρ.bind env name v) r τ) :
    BindsAll files env (.symbol name :: form :: bindings) σ r τ
  | fails {name form bindings env σ e τ} (head : Evaluates files form env σ (.error e) τ) :
    BindsAll files env (.symbol name :: form :: bindings) σ (.error e) τ
  | noName {name form bindings env σ} (noName : name.symbolName? = none) :
    BindsAll files env (name :: form :: bindings) σ
      (.error (.invalidForm "let*" s!"expected a symbol, got {name.kind.name}")) σ

inductive Fills (files : Files) : Value → Env → Store → Except EvalError Value → Store → Prop
  | unquote {form env σ r τ} (evaluated : Evaluates files form env σ r τ) :
    Fills files (Marker.unquote.wrap form) env σ r τ
  | list {items env σ r τ} (plain : ∀ form, .list items ≠ Marker.unquote.wrap form)
    (all : FillsAll files items env σ r τ) : Fills files (.list items) env σ (r.map .list) τ
  | vector {items env σ r τ} (all : FillsAll files items env σ r τ) :
    Fills files (.vector items) env σ (r.map .vector) τ
  | quoted {form env σ} (noItems : form.items? = none) : Fills files form env σ (.ok form) σ

inductive FillsAll (files : Files) :
    List Value → Env → Store → Except EvalError (List Value) → Store → Prop
  | nil {env σ} : FillsAll files [] env σ (.ok []) σ
  | cons {item items env σ v ρ r τ} (plain : ∀ form, item ≠ Marker.spliceUnquote.wrap form)
    (head : Fills files item env σ (.ok v) ρ) (tail : FillsAll files items env ρ r τ) :
    FillsAll files (item :: items) env σ (r.map (v :: ·)) τ
  | fails {item items env σ e τ} (plain : ∀ form, item ≠ Marker.spliceUnquote.wrap form)
    (head : Fills files item env σ (.error e) τ) : FillsAll files (item :: items) env σ (.error e) τ
  | splice {form items env σ v spliced ρ r τ} (head : Evaluates files form env σ (.ok v) ρ)
    (isItems : v.items? = some spliced) (tail : FillsAll files items env ρ r τ) :
    FillsAll files (Marker.spliceUnquote.wrap form :: items) env σ (r.map (spliced ++ ·)) τ
  | spliceFails {form items env σ e τ} (head : Evaluates files form env σ (.error e) τ) :
    FillsAll files (Marker.spliceUnquote.wrap form :: items) env σ (.error e) τ
  | noSplice {form items env σ v τ} (head : Evaluates files form env σ (.ok v) τ)
      (noItems : v.items? = none) :
    FillsAll files (Marker.spliceUnquote.wrap form :: items) env σ
      (.error (.invalidForm "splice-unquote" s!"expected a list or vector, got {v.kind.name}")) τ

inductive Expands (files : Files) : Value → Env → Store → Except EvalError Value → Store → Prop
  | done {form env σ} (noMacro : σ.macroCall? env form = none) :
      Expands files form env σ (.ok form) σ
  | step {form env σ c operands expansion ρ r τ}
      (calls : σ.macroCall? env form = some (c, operands))
    (expanded : Applies files (.closure c) operands σ (.ok expansion) ρ)
    (rest : Expands files expansion env ρ r τ) : Expands files form env σ r τ
  | fails {form env σ c operands e τ} (calls : σ.macroCall? env form = some (c, operands))
    (expanded : Applies files (.closure c) operands σ (.error e) τ) :
    Expands files form env σ (.error e) τ

inductive Applies (files : Files) :
    Value → List Value → Store → Except EvalError Value → Store → Prop
  | closure {c args frame inner σ σ' r τ} (bound : c.params.frame c.env args = .ok frame)
    (entered : σ.addFrame frame = (inner, σ')) (body : Evaluates files c.body inner σ' r τ) :
    Applies files (.closure c) args σ r τ
  | closureFails {c args σ e} (bound : c.params.frame c.env args = .error e) :
    Applies files (.closure c) args σ (.error e) σ
  | eval {form σ r τ} (evaluated : Evaluates files form .global σ r τ) :
    Applies files (.function .eval) [form] σ r τ
  | evalArity {args σ} (number : args.length ≠ 1) :
    Applies files (.function .eval) args σ (.error (.arityMismatch 1 args.length)) σ
  | swap {c f extra σ v τ} (applied : Applies files f (σ.cells.content c :: extra) σ (.ok v) τ) :
    Applies files (.function .swap) (.atom c :: f :: extra) σ (.ok v) (τ.setContent c v)
  | swapFails {c f extra σ e τ}
    (applied : Applies files f (σ.cells.content c :: extra) σ (.error e) τ) :
    Applies files (.function .swap) (.atom c :: f :: extra) σ (.error e) τ
  | swapNoAtom {a f extra σ} (noAtom : ∀ c, a ≠ .atom c) :
    Applies files (.function .swap) (a :: f :: extra) σ (.error (.wrongArgType "atom" a.kind)) σ
  | swapArity {args σ} (number : args.length < 2) :
    Applies files (.function .swap) args σ (.error (.tooFewArguments 2 args.length)) σ
  | builtin {b args patience σ r τ} (noEval : b ≠ .eval) (noSwap : b ≠ .swap)
    (called : (Evaluator.idle files patience).call b args σ = .of r τ) :
    Applies files (.function b) args σ r τ
  | noFunction {f args σ} (noBuiltin : ∀ b, f ≠ .function b) (noClosure : ∀ c, f ≠ .closure c) :
    Applies files f args σ (.error (.notAFunction f.kind)) σ

end

end Lisp
