import Lisp.Builtin.Input
import Lisp.Builtin.Text
import Lisp.Cell
import Lisp.Proofs.Scope

/-! Actions that the output makes no difference to. They do not look at it and do not add to it. -/

namespace Lisp

def Store.withOutput (σ : Store) (s : Sink) : Store :=
  { σ with output := s }

def Outcome.withOutput {α : Type} (s : Sink) : Outcome α → Outcome α
  | .value a σ => .value a (σ.withOutput s)
  | .failure e σ => .failure e (σ.withOutput s)
  | .halted why => .halted why

/-- An action that does the same whatever the output is, and leaves the output as it is. -/
def Action.Blind {α : Type} (x : Action α) : Prop :=
  ∀ σ s, x (σ.withOutput s) = (x σ).withOutput s

namespace Store

variable (σ : Store) (s t : Sink)

@[simp] theorem withOutput_frames : (σ.withOutput s).frames = σ.frames := rfl

@[simp] theorem withOutput_withOutput : (σ.withOutput s).withOutput t = σ.withOutput t := rfl

@[simp] theorem withOutput_self : σ.withOutput σ.output = σ := rfl

end Store

namespace Action.Blind

variable {α : Type}

theorem pure (a : α) : Blind (pure a : Action α) :=
  fun _ _ => rfl

theorem fail (e : EvalError) : Blind (.fail e : Action α) :=
  fun _ _ => rfl

theorem halt (why : Halt) : Blind (.halt why : Action α) :=
  fun _ _ => rfl

theorem ofExcept (r : Except EvalError α) : Blind (.ofExcept r : Action α) := by
  cases r with
  | ok a => exact pure a
  | error e => exact fail e

theorem query {f : Store → α} (hf : ∀ σ s, f (σ.withOutput s) = f σ) : Blind (.query f) :=
  fun σ s => congrArg (Outcome.value · (σ.withOutput s)) (hf σ s)

theorem modify {f : Store → Store} (hf : ∀ σ s, f (σ.withOutput s) = (f σ).withOutput s) :
    Blind (.modify f) :=
  fun σ s => congrArg (Outcome.value ()) (hf σ s)

theorem update {f : Store → α × Store}
    (hf : ∀ σ s, f (σ.withOutput s) = ((f σ).1, (f σ).2.withOutput s)) : Blind (.update f) := by
  intro σ s
  simp only [Action.update, hf]
  rfl

theorem get? (env : Env) (name : String) : Blind (env.get? name) :=
  query fun σ s => Store.find?_of_frames (σ.withOutput_frames s) env name

theorem set (env : Env) (name : String) (v : Value) : Blind (env.set name v) :=
  modify fun _ _ => rfl

theorem addFrame (f : Frame) : Blind (.update (·.addFrame f)) :=
  update fun _ _ => rfl

theorem enter (parent : Env) (params : Params) (args : List Value) :
    Blind (parent.enter params args) := by
  unfold Env.enter
  split
  · exact addFrame _
  · exact fail _

theorem addClosure (params : Params) (body : Value) (env : Env) (isMacro : Bool) :
    Blind (.update (·.addClosure params body env isMacro)) :=
  update fun _ _ => rfl

theorem makeCell (v : Value) : Blind (Cell.make v) :=
  update fun _ _ => rfl

theorem getContent (c : Cell) : Blind c.get :=
  query fun _ _ => rfl

theorem setContent (c : Cell) (v : Value) : Blind (c.set v) :=
  modify fun _ _ => rfl

theorem joinTexts (readable : Bool) (separator : String) (args : List Value) :
    Blind (joinTexts readable separator args) :=
  query fun _ _ => rfl

theorem readSource (source : String) : Blind (readSource source) := by
  unfold Lisp.readSource
  split
  · exact pure _
  · exact fail _

theorem fileContent (files : Files) (path : String) : Blind (fileContent files path) := by
  unfold Lisp.fileContent
  repeat' split
  all_goals first
    | exact pure _
    | exact fail _
    | exact halt _

end Action.Blind

end Lisp
