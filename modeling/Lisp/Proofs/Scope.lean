import Lisp.Evaluator

/-! What a name means in an environment once a frame is added or a name is bound. -/

namespace Lisp

namespace Store

variable {σ : Store}

theorem chainUpTo_succ (σ : Store) (n : Nat) (e : Env) :
    ∃ es, σ.chainUpTo (n + 1) e = e :: es ∧ ∀ p, σ.parent? e = some p → es = σ.chainUpTo n p := by
  rw [chainUpTo]
  cases hparent : σ.parent? e with
  | none => exact ⟨[], rfl, by simp⟩
  | some p => exact ⟨_, rfl, by simp⟩

theorem chainUpTo_of_frames {τ : Store} (h : τ.frames = σ.frames) (n : Nat) (e : Env) :
    τ.chainUpTo n e = σ.chainUpTo n e := by
  induction n generalizing e with
  | zero => rfl
  | succ n ih => simp only [chainUpTo, parent?, frame?, h, ih]

/-- What a name means depends on the frames alone. -/
theorem find?_of_frames {τ : Store} (h : τ.frames = σ.frames) (e : Env) (name : String) :
    τ.find? e name = σ.find? e name := by
  have hbound : τ.bound? name = σ.bound? name := by
    funext d
    simp only [bound?, frame?, h]
  rw [find?, find?, chain, chain, chainUpTo_of_frames h, hbound]

theorem find?_global (σ : Store) (name : String) : σ.find? .global name = σ.bound? name .global := by
  have hchain : σ.chain .global = [.global] := by
    change σ.chainUpTo 1 .global = _
    unfold chainUpTo
    split <;> rfl
  simp [find?, hchain]

/-- What the innermost frame binds is not looked for outside of it. -/
theorem find?_of_bound? {e : Env} {name : String} {v : Value} (h : σ.bound? name e = some v) :
    σ.find? e name = some v := by
  obtain ⟨es, hchain, -⟩ := σ.chainUpTo_succ e.frame e
  change List.findSome? _ (σ.chainUpTo (e.frame + 1) e) = _
  rw [hchain, List.findSome?_cons, h]

theorem find?_bind_self {e : Env} (h : (σ.frame? e).isSome) (name : String) (v : Value) :
    (σ.bind e name v).find? e name = some v := by
  obtain ⟨f, hf⟩ := Option.isSome_iff_exists.mp h
  refine find?_of_bound? ?_
  rw [bound?, frame?_bind, if_pos rfl, hf]
  exact f.find?_bind_self name v

/-- What a new frame inside of the global one does not bind means in it what it means there. -/
theorem find?_child {f : Frame} {name : String} {v : Value} (parent : f.parent = some .global)
    (free : f.find? name = none) (found : σ.find? .global name = some v) :
    (σ.addFrame f).2.find? (σ.addFrame f).1 name = some v := by
  rw [find?_global] at found
  obtain ⟨g, hg, hv⟩ := Option.bind_eq_some_iff.mp found
  obtain ⟨hsize, -⟩ := Array.getElem?_eq_some_iff.mp hg
  obtain ⟨n, hn⟩ := Nat.exists_eq_succ_of_ne_zero (Nat.ne_of_gt hsize)
  have hnew : (σ.addFrame f).2.frame? ⟨σ.frames.size⟩ = some f := by
    simp [addFrame, frame?]
  have hglobal : (σ.addFrame f).2.frame? .global = some g := by
    have hold : (σ.frames.push f)[Env.global.frame]? = σ.frames[Env.global.frame]? := by
      rw [Array.getElem?_push, if_neg (Nat.ne_of_lt hsize)]
    exact hold.trans hg
  obtain ⟨es, hchain, hes⟩ := chainUpTo_succ (σ.addFrame f).2 σ.frames.size ⟨σ.frames.size⟩
  obtain ⟨es', hchain', -⟩ := chainUpTo_succ (σ.addFrame f).2 n .global
  have hes := hes .global (by rw [parent?, hnew]; exact parent)
  rw [hn, hchain'] at hes
  have hfirst : (σ.addFrame f).2.bound? name ⟨σ.frames.size⟩ = none := by
    simp [bound?, hnew, free]
  have hsecond : (σ.addFrame f).2.bound? name .global = some v := by
    simp [bound?, hglobal, hv]
  change List.findSome? _ ((σ.addFrame f).2.chainUpTo (σ.frames.size + 1) ⟨σ.frames.size⟩) = _
  rw [hchain, hes, List.findSome?_cons, hfirst]
  simp only [List.findSome?_cons, hsecond]

end Store

end Lisp
