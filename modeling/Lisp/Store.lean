import Lisp.Sink
import Lisp.Value.Equality

/-! The store holds all that evaluation changes: the frames of bindings that environments are made of, the
contents of atoms, how many closures were made, and the output. The parent of a frame is older than the
frame, so every chain of parents ends. -/

namespace Lisp

structure Frame where
  bindings : List (String × Value)
  parent : Option Env

namespace Frame

def find? (name : String) (f : Frame) : Option Value :=
  f.bindings.lookup name

def bind (name : String) (v : Value) (f : Frame) : Frame :=
  { f with bindings := (name, v) :: f.bindings.filter fun b => b.1 != name }

theorem find?_bind_self (name : String) (v : Value) (f : Frame) :
    (f.bind name v).find? name = some v := by
  simp [bind, find?]

theorem find?_bind_of_ne {name other : String} (h : other ≠ name) (v : Value) (f : Frame) :
    (f.bind name v).find? other = f.find? other := by
  have hne : (other == name) = false := by simpa using h
  simp only [bind, find?, List.lookup_cons, hne]
  induction f.bindings with
  | nil => rfl
  | cons b bs ih =>
    obtain ⟨n, w⟩ := b
    by_cases hn : n = name
    · subst hn
      simpa [List.lookup_cons, hne] using ih
    · simp [hn, List.lookup_cons, ih]

end Frame

structure Store where
  frames : Array Frame
  cells : Cells
  closures : Nat
  output : Sink

namespace Store

def empty (output : Sink) : Store where
  frames := #[]
  cells := #[]
  closures := 0
  output := output

def frame? (σ : Store) (e : Env) : Option Frame :=
  σ.frames[e.frame]?

def parent? (σ : Store) (e : Env) : Option Env :=
  (σ.frame? e).bind Frame.parent

def chainUpTo (σ : Store) : Nat → Env → List Env
  | 0, _ => []
  | n + 1, e =>
    match σ.parent? e with
    | some p => e :: σ.chainUpTo n p
    | none => [e]

def chain (σ : Store) (e : Env) : List Env :=
  σ.chainUpTo (e.frame + 1) e

def bound? (σ : Store) (name : String) (e : Env) : Option Value :=
  (σ.frame? e).bind (Frame.find? name)

/-- What a name means in an environment: the nearest binding on its chain. -/
def find? (σ : Store) (e : Env) (name : String) : Option Value :=
  (σ.chain e).findSome? (σ.bound? name)

def depth (σ : Store) (e : Env) : Nat :=
  (σ.chain e).length

def root (σ : Store) (e : Env) : Env :=
  (σ.chain e).getLast?.getD e

def addFrame (σ : Store) (f : Frame) : Env × Store :=
  (⟨σ.frames.size⟩, { σ with frames := σ.frames.push f })

def bind (σ : Store) (e : Env) (name : String) (v : Value) : Store :=
  { σ with frames := σ.frames.modify e.frame (Frame.bind name v) }

def addCell (σ : Store) (v : Value) : Cell × Store :=
  (⟨σ.cells.size⟩, { σ with cells := σ.cells.push v })

def setContent (σ : Store) (c : Cell) (v : Value) : Store :=
  { σ with cells := σ.cells.setIfInBounds c.slot v }

/-- A closure that is the same as no other. -/
def addClosure (σ : Store) (params : Params) (body : Value) (env : Env) (isMacro : Bool) :
    Closure Value × Store :=
  (⟨σ.closures, params, body, env, isMacro⟩, { σ with closures := σ.closures + 1 })

theorem frame?_bind (σ : Store) (e f : Env) (name : String) (v : Value) :
    (σ.bind e name v).frame? f =
      if f = e then (σ.frame? f).map (Frame.bind name v) else σ.frame? f := by
  simp only [frame?, bind, Array.getElem?_modify]
  by_cases h : e = f
  · simp [h]
  · have : e.frame ≠ f.frame := fun hf => h (by cases e; cases f; simpa using hf)
    simp [this, Ne.symm h]

theorem parent?_bind (σ : Store) (e f : Env) (name : String) (v : Value) :
    (σ.bind e name v).parent? f = σ.parent? f := by
  unfold parent?
  rw [frame?_bind]
  split
  · cases σ.frame? f <;> rfl
  · rfl

theorem chain_bind (σ : Store) (e f : Env) (name : String) (v : Value) :
    (σ.bind e name v).chain f = σ.chain f := by
  have (n : Nat) (g : Env) : (σ.bind e name v).chainUpTo n g = σ.chainUpTo n g := by
    induction n generalizing g with
    | zero => rfl
    | succ n ih => simp only [chainUpTo, parent?_bind, ih]
  exact this _ f

def writeLine (σ : Store) (line : String) : Store :=
  { σ with output := σ.output.writeLine line }

def write (σ : Store) (text : String) : Store :=
  { σ with output := σ.output.write text }

end Store

end Lisp
