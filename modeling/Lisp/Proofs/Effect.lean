import Lisp.Proofs.Calling
import Mathlib.Logic.Relation

/-! Single changes of a store, and the actions that make no others. Calls of builtins that evaluate nothing
make atoms, write atoms and print lines, and leave all frames as they are. -/

namespace Lisp

open Relation (ReflTransGen)

/-- One change of a store that leaves its frames as they are. -/
inductive Store.Effect (σ : Store) : Store → Prop
  | addCell (v : Value) : Effect σ (σ.addCell v).2
  | setContent (c : Cell) (v : Value) : Effect σ (σ.setContent c v)
  | writeLine (line : String) : Effect σ (σ.writeLine line)

theorem Store.frames_of_effects {σ τ : Store} (h : ReflTransGen Effect σ τ) :
    τ.frames = σ.frames := by
  induction h with
  | refl => rfl
  | tail _ heffect ih => cases heffect <;> exact ih

/-- An action that makes such changes one after the other and no others, however it ends. -/
def Makes {α : Type} (change : Store → Store → Prop) (x : Action α) : Prop :=
  ∀ ⦃σ : Store⦄ ⦃r : Except EvalError α⦄ ⦃τ : Store⦄, x σ = .of r τ → ReflTransGen change σ τ

namespace Makes

variable {α β : Type} {change : Store → Store → Prop}

theorem pure (a : α) : Makes change (pure a : Action α) := by
  intro σ r τ h
  obtain ⟨-, rfl⟩ := Action.pure_eq_of.mp h
  exact .refl

theorem fail (e : EvalError) : Makes change (.fail e : Action α) := by
  intro σ r τ h
  obtain ⟨-, rfl⟩ := Action.fail_eq_of.mp h
  exact .refl

theorem halt (why : Halt) : Makes change (.halt why : Action α) :=
  fun _ _ _ h => absurd h Action.halt_ne_of

theorem ofExcept (x : Except EvalError α) : Makes change (.ofExcept x : Action α) := by
  intro σ r τ h
  obtain ⟨-, rfl⟩ := Action.ofExcept_eq_of.mp h
  exact .refl

theorem query (f : Store → α) : Makes change (.query f : Action α) := by
  intro σ r τ h
  obtain ⟨-, rfl⟩ := Action.query_eq_of.mp h
  exact .refl

theorem modify {f : Store → Store} (hf : ∀ σ, change σ (f σ)) : Makes change (.modify f) := by
  intro σ r τ h
  obtain ⟨-, rfl⟩ := Action.modify_eq_of.mp h
  exact .single (hf σ)

theorem update {f : Store → α × Store} (hf : ∀ σ, change σ (f σ).2) : Makes change (.update f) := by
  intro σ r τ h
  obtain ⟨-, rfl⟩ := Action.update_eq_of.mp h
  exact .single (hf σ)

theorem bind {x : Action α} {f : α → Action β} (hx : Makes change x) (hf : ∀ a, Makes change (f a)) :
    Makes change (x >>= f) := by
  intro σ r τ h
  obtain ⟨e, rfl, he⟩ | ⟨a, ρ, ha, h⟩ := Action.bind_eq_of.mp h
  · exact hx he
  · exact (hx ha).trans (hf a h)

theorem readSource (source : String) : Makes change (readSource source) := by
  unfold Lisp.readSource
  split
  · exact pure _
  · exact fail _

theorem fileContent (files : Files) (path : String) : Makes change (fileContent files path) := by
  unfold Lisp.fileContent
  repeat' split
  all_goals first
    | exact pure _
    | exact fail _
    | exact halt _

theorem throwTexts (args : List Value) : Makes change (throwTexts args) := by
  unfold Lisp.throwTexts
  split
  · exact fail _
  · exact (query _).bind fun _ => fail _

theorem same (ev : Evaluator) (a b : Value) : Makes change (ev.same a b) := by
  intro σ r τ h
  rw [Evaluator.same_apply] at h
  obtain ⟨_, _, _, rfl⟩ := Outcome.ofOption_eq_of.mp h
  exact .refl

theorem printLine (readable : Bool) (args : List Value) :
    Makes Store.Effect (printLine readable args) :=
  (query _).bind fun line => (modify fun _ => .writeLine line).bind fun _ => pure _

theorem call (ev : Evaluator) {b : Builtin} (noEval : b ≠ .eval) (noSwap : b ≠ .swap)
    (args : List Value) : Makes Store.Effect (ev.call b args) := by
  cases b
  case eval => exact absurd rfl noEval
  case swap => exact absurd rfl noSwap
  all_goals simp only [Evaluator.call, Evaluator.callWithin]
  case equal => exact (ofExcept _).bind fun pair => (same ev pair.1 pair.2).bind fun _ => pure _
  case not | isAtom => exact (ofExcept _).bind fun _ => pure _
  case throw => exact throwTexts args
  case str | prStr => exact (query _).bind fun _ => pure _
  case prn | println => exact printLine _ args
  case list => exact pure _
  case atom => exact (ofExcept _).bind fun v => (update fun _ => .addCell v).bind fun _ => pure _
  case deref => exact (ofExcept _).bind fun v => (ofExcept _).bind fun c => query _
  case reset =>
    exact (ofExcept _).bind fun pair => (ofExcept _).bind fun c =>
      (modify fun _ => .setContent c pair.2).bind fun _ => pure _
  case readString => exact (ofExcept _).bind fun v => (ofExcept _).bind fun source => readSource source
  case slurp => exact (ofExcept _).bind fun v => (ofExcept _).bind fun path => fileContent _ path
  all_goals exact ofExcept _

end Makes

end Lisp
