import Lisp.Proofs.Outcome

/-! Stores that differ in few frames. A frame that exists stays, with its parent and with all
names that it binds, and only the frames of some environments bind other values or more names.
-/

namespace Lisp

/-- A store comes from another with the frames of no environments written but these. -/
structure Isolated (writable : Env → Prop) (σ τ : Store) : Prop where
  unchanged {e : Env} {f : Frame} : σ.frame? e = some f → ¬ writable e → τ.frame? e = some f
  kept {e : Env} {f : Frame} : σ.frame? e = some f →
    ∃ g, τ.frame? e = some g ∧ g.parent = f.parent ∧
      ∀ name, (f.find? name).isSome → (g.find? name).isSome

namespace Store

variable {σ : Store}

theorem frame?_addFrame {e : Env} {f : Frame} (h : σ.frame? e = some f) (new : Frame) :
    (σ.addFrame new).2.frame? e = some f := by
  obtain ⟨hlt, h⟩ := Array.getElem?_eq_some_iff.mp h
  refine Array.getElem?_eq_some_iff.mpr ⟨?_, ?_⟩
  · rw [addFrame, Array.size_push]
    omega
  · simp only [addFrame]
    rw [Array.getElem_push_lt hlt, h]

theorem frame?_new (new : Frame) : σ.frame? (σ.addFrame new).1 = none :=
  Array.getElem?_eq_none (Nat.le_refl _)

end Store

theorem Frame.find?_bind_isSome {name other : String} {v : Value} {f : Frame}
    (h : (f.find? other).isSome) :
    ((f.bind name v).find? other).isSome := by
  by_cases hname : other = name
  · rw [hname, find?_bind_self]
    rfl
  · rwa [find?_bind_of_ne hname]

namespace Isolated

variable {writable writable' : Env → Prop} {σ ρ τ : Store}

theorem of_frames (h : τ.frames = σ.frames) : Isolated writable σ τ := by
  have hframe (e : Env) : τ.frame? e = σ.frame? e := by rw [Store.frame?, Store.frame?, h]
  refine ⟨fun hf _ => (hframe _).trans hf, fun {e f} hf => ?_⟩
  exact ⟨f, (hframe e).trans hf, rfl, fun _ h => h⟩

theorem refl (σ : Store) : Isolated writable σ σ :=
  of_frames rfl

theorem addFrame (σ : Store) (new : Frame) : Isolated writable σ (σ.addFrame new).2 :=
  ⟨fun hf _ => Store.frame?_addFrame hf new, fun {_ f} hf =>
    ⟨f, Store.frame?_addFrame hf new, rfl, fun _ h => h⟩⟩

theorem bind {e : Env} (he : writable e) (σ : Store) (name : String) (v : Value) :
    Isolated writable σ (σ.bind e name v) := by
  constructor
  · intro d f hf hd
    have hne : d ≠ e := fun heq => hd (heq ▸ he)
    rw [Store.frame?_bind, if_neg hne, hf]
  · intro d f hf
    rw [Store.frame?_bind, hf]
    split
    · exact ⟨f.bind name v, rfl, rfl, fun _ => Frame.find?_bind_isSome⟩
    · exact ⟨f, rfl, rfl, fun _ h => h⟩

/-- What is written after may be written before, as far as it was there. -/
theorem trans (h : Isolated writable σ ρ) (h' : Isolated writable' ρ τ)
    (hw : ∀ e f, σ.frame? e = some f → writable' e → writable e) : Isolated writable σ τ := by
  constructor
  · intro e f hf he
    exact h'.unchanged (h.unchanged hf he) fun he' => he (hw e f hf he')
  · intro e f hf
    obtain ⟨g, hg, hparent, hnames⟩ := h.kept hf
    obtain ⟨k, hk, hparent', hnames'⟩ := h'.kept hg
    exact ⟨k, hk, hparent'.trans hparent, fun name hname => hnames' name (hnames name hname)⟩

theorem mono (h : Isolated writable' σ τ) (hw : ∀ e, writable' e → writable e) :
    Isolated writable σ τ :=
  (refl σ).trans h fun e _ _ => hw e

theorem parent? (h : Isolated writable σ τ) {e p : Env} (hp : σ.parent? e = some p) :
    τ.parent? e = some p := by
  obtain ⟨f, hf, hp⟩ := Option.bind_eq_some_iff.mp hp
  obtain ⟨g, hg, hparent, -⟩ := h.kept hf
  exact Option.bind_eq_some_iff.mpr ⟨g, hg, hparent.trans hp⟩

theorem bound? (h : Isolated writable σ τ) {e : Env} {name : String}
    (hb : (σ.bound? name e).isSome) :
    (τ.bound? name e).isSome := by
  obtain ⟨v, hv⟩ := Option.isSome_iff_exists.mp hb
  obtain ⟨f, hf, hv⟩ := Option.bind_eq_some_iff.mp hv
  obtain ⟨g, hg, -, hnames⟩ := h.kept hf
  rw [Store.bound?, hg]
  exact hnames name (Option.isSome_iff_exists.mpr ⟨v, hv⟩)

theorem chainUpTo_subset (h : Isolated writable σ τ) (n : Nat) (e : Env) :
    σ.chainUpTo n e ⊆ τ.chainUpTo n e := by
  induction n generalizing e with
  | zero => exact List.Subset.refl _
  | succ n ih =>
    cases hp : σ.parent? e with
    | some p =>
      simp only [Store.chainUpTo, hp, h.parent? hp]
      exact List.cons_subset_cons e (ih p)
    | none =>
      have he : e ∈ τ.chainUpTo (n + 1) e := by
        unfold Store.chainUpTo
        split <;> exact List.mem_cons_self
      simpa [Store.chainUpTo, hp] using he

theorem find? (h : Isolated writable σ τ) {e : Env} {name : String}
    (hfind : (σ.find? e name).isSome) :
    (τ.find? e name).isSome := by
  obtain ⟨d, hd, hb⟩ := List.findSome?_isSome_iff.mp hfind
  exact List.findSome?_isSome_iff.mpr ⟨d, h.chainUpTo_subset _ e hd, h.bound? hb⟩

end Isolated

/-- An action that writes the frames of no environments but these, however it ends. -/
def Keeps {α : Type} (writable : Env → Prop) (x : Action α) : Prop :=
  ∀ ⦃σ : Store⦄ ⦃r : Except EvalError α⦄ ⦃τ : Store⦄, x σ = .of r τ → Isolated writable σ τ

namespace Keeps

variable {α β : Type} {writable writable' : Env → Prop}

theorem mono {x : Action α} (h : Keeps writable' x) (hw : ∀ e, writable' e → writable e) :
    Keeps writable x :=
  fun _ _ _ hx => (h hx).mono hw

theorem pure (a : α) : Keeps writable (pure a : Action α) := by
  intro σ r τ h
  obtain ⟨-, rfl⟩ := Action.pure_eq_of.mp h
  exact .refl _

theorem fail (e : EvalError) : Keeps writable (.fail e : Action α) := by
  intro σ r τ h
  obtain ⟨-, rfl⟩ := Action.fail_eq_of.mp h
  exact .refl _

theorem halt (why : Halt) : Keeps writable (.halt why : Action α) :=
  fun _ _ _ h => absurd h Action.halt_ne_of

theorem ofExcept (x : Except EvalError α) : Keeps writable (.ofExcept x : Action α) := by
  intro σ r τ h
  obtain ⟨-, rfl⟩ := Action.ofExcept_eq_of.mp h
  exact .refl _

theorem query (f : Store → α) : Keeps writable (.query f : Action α) := by
  intro σ r τ h
  obtain ⟨-, rfl⟩ := Action.query_eq_of.mp h
  exact .refl _

theorem modify {f : Store → Store} (hf : ∀ σ, Isolated writable σ (f σ)) :
    Keeps writable (.modify f) := by
  intro σ r τ h
  obtain ⟨-, rfl⟩ := Action.modify_eq_of.mp h
  exact hf σ

theorem update {f : Store → α × Store} (hf : ∀ σ, Isolated writable σ (f σ).2) :
    Keeps writable (.update f) := by
  intro σ r τ h
  obtain ⟨-, rfl⟩ := Action.update_eq_of.mp h
  exact hf σ

theorem bind {x : Action α} {f : α → Action β} (hx : Keeps writable x)
    (hf : ∀ a, Keeps writable (f a)) :
    Keeps writable (x >>= f) := by
  intro σ r τ h
  obtain ⟨e, rfl, he⟩ | ⟨a, ρ, ha, h⟩ := Action.bind_eq_of.mp h
  · exact hx he
  · exact (hx ha).trans (hf a h) fun _ _ _ he => he

/-- What is done in a new environment may write its frame, which was not there before. -/
theorem addFrame {new : Frame} {f : Env → Action β}
    (hf : ∀ inner, Keeps (fun e => e = inner ∨ writable e) (f inner)) :
    Keeps writable (.update (·.addFrame new) >>= f) := by
  intro σ r τ h
  refine (Isolated.addFrame σ new).trans (hf _ h) fun e g hg he => ?_
  refine he.resolve_left fun heq => ?_
  have hnone : σ.frame? e = none := heq ▸ Store.frame?_new new
  rw [hnone] at hg
  cases hg

end Keeps

end Lisp
