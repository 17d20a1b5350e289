import Lisp.EvalError
import Lisp.Store

/-! Actions: computations that change a store and end with a value or with a failure. What an action did
before it failed stays done. An action may also be halted, when it has used up its budget or asks for a
file that it was not given. -/

namespace Lisp

inductive Halt
  | outOfSteps
  | tooDeep
  | fileNeeded (path : String)
  deriving DecidableEq, Repr

inductive Outcome (α : Type)
  | value (a : α) (σ : Store)
  | failure (e : EvalError) (σ : Store)
  | halted (why : Halt)

def Action (α : Type) : Type :=
  Store → Outcome α

@[inline] def Outcome.andThen {α β : Type} (o : Outcome α) (f : α → Action β) : Outcome β :=
  match o with
  | .value a σ => f a σ
  | .failure e σ => .failure e σ
  | .halted why => .halted why

namespace Action

variable {α β : Type}

@[inline] protected def pure (a : α) : Action α :=
  fun σ => .value a σ

@[inline] protected def bind (x : Action α) (f : α → Action β) : Action β :=
  fun σ => (x σ).andThen f

@[inline] def fail (e : EvalError) : Action α :=
  fun σ => .failure e σ

@[inline] def halt (why : Halt) : Action α :=
  fun _ => .halted why

@[inline] def query (f : Store → α) : Action α :=
  fun σ => .value (f σ) σ

@[inline] def modify (f : Store → Store) : Action Unit :=
  fun σ => .value () (f σ)

@[inline] def update (f : Store → α × Store) : Action α :=
  fun σ => match f σ with | (a, σ) => .value a σ

@[inline] def ofExcept : Except EvalError α → Action α
  | .ok a => Action.pure a
  | .error e => Action.fail e

@[inline] def attempt (x : Action α) : Action (Except EvalError α) :=
  fun σ =>
    match x σ with
    | .value a σ => .value (.ok a) σ
    | .failure e σ => .value (.error e) σ
    | .halted why => .halted why

@[always_inline] instance : Monad Action where
  pure := Action.pure
  bind := Action.bind

theorem pure_apply (a : α) (σ : Store) : (pure a : Action α) σ = .value a σ := rfl

theorem bind_apply (x : Action α) (f : α → Action β) (σ : Store) :
    (x >>= f) σ = (x σ).andThen f := rfl

instance : LawfulMonad Action := LawfulMonad.mk' Action
  (by
    intro α x
    funext σ
    change (x σ).andThen Action.pure = x σ
    cases x σ <;> rfl)
  (by intros; rfl)
  (by
    intro α β γ x f g
    funext σ
    change ((x σ).andThen f).andThen g = (x σ).andThen fun a => (f a >>= g)
    cases x σ <;> rfl)

end Action

end Lisp
