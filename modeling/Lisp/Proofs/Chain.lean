import Lisp.Env
import Lisp.Proofs.Scope

/-! The chain of an environment, from its own frame outward. When every frame is younger than its parent, a
chain comes to a frame without a parent, and what a name means is found frame by frame. -/

namespace Lisp

namespace Store

/-- No chain goes round, since a frame is made inside of one that is there already. -/
def ParentsOlder (σ : Store) : Prop :=
  ∀ ⦃e p : Env⦄, σ.parent? e = some p → p.frame < e.frame

variable {σ : Store} {e p d : Env} {f : Frame} {name other : String} {v : Value}

theorem chain_outermost (hp : σ.parent? e = none) : σ.chain e = [e] := by
  change σ.chainUpTo (e.frame + 1) e = _
  rw [chainUpTo, hp]

theorem find?_outermost (hp : σ.parent? e = none) : σ.find? e name = σ.bound? name e := by
  rw [find?, chain_outermost hp, List.findSome?_singleton]

theorem frame?_isSome_iff : (σ.frame? e).isSome ↔ e.frame < σ.frames.size := by
  simp [frame?]

theorem isSome_of_parent? (hp : σ.parent? e = some p) : (σ.frame? e).isSome := by
  obtain ⟨f, hf, -⟩ := Option.bind_eq_some_iff.mp hp
  simp [hf]

namespace ParentsOlder

/-- Induction along a chain, from the outermost frame inward. -/
@[elab_as_elim]
theorem induction {motive : Env → Prop} (h : σ.ParentsOlder)
    (outermost : ∀ e, σ.parent? e = none → motive e)
    (inner : ∀ e p, σ.parent? e = some p → motive p → motive e) (e : Env) : motive e := by
  induction hn : e.frame using Nat.strongRecOn generalizing e with
  | _ n ih =>
    subst hn
    cases hp : σ.parent? e with
    | none => exact outermost e hp
    | some p => exact inner e p hp (ih p.frame (h hp) p rfl)

theorem parent_isSome (h : σ.ParentsOlder) (hp : σ.parent? e = some p) : (σ.frame? p).isSome :=
  frame?_isSome_iff.mpr (Nat.lt_trans (h hp) (frame?_isSome_iff.mp (isSome_of_parent? hp)))

theorem chainUpTo_eq (h : σ.ParentsOlder) (e : Env) {n : Nat} (hn : e.frame < n) :
    σ.chainUpTo n e = σ.chain e := by
  induction e using h.induction generalizing n with
  | outermost e hp =>
    obtain ⟨n, rfl⟩ := Nat.exists_eq_add_one_of_ne_zero (Nat.ne_zero_of_lt hn)
    rw [chainUpTo, hp, chain_outermost hp]
  | inner e p hp ih =>
    obtain ⟨n, rfl⟩ := Nat.exists_eq_add_one_of_ne_zero (Nat.ne_zero_of_lt hn)
    have holder := h hp
    have hself : σ.chain e = e :: σ.chainUpTo e.frame p := by
      change σ.chainUpTo (e.frame + 1) e = _
      rw [chainUpTo, hp]
    rw [hself, ih holder, chainUpTo, hp]
    exact congrArg (e :: ·) (ih (by omega))

theorem chain_inner (h : σ.ParentsOlder) (hp : σ.parent? e = some p) : σ.chain e = e :: σ.chain p := by
  change σ.chainUpTo (e.frame + 1) e = _
  rw [chainUpTo, hp]
  exact congrArg (e :: ·) (h.chainUpTo_eq p (h hp))

theorem depth_inner (h : σ.ParentsOlder) (hp : σ.parent? e = some p) : σ.depth e = σ.depth p + 1 := by
  rw [depth, h.chain_inner hp, List.length_cons, depth]

theorem find?_inner (h : σ.ParentsOlder) (hp : σ.parent? e = some p) (name : String) :
    σ.find? e name = (σ.bound? name e).or (σ.find? p name) := by
  rw [find?, h.chain_inner hp, List.findSome?_cons]
  cases σ.bound? name e <;> rfl

theorem chain_ne_nil (h : σ.ParentsOlder) (e : Env) : σ.chain e ≠ [] := by
  cases hp : σ.parent? e with
  | none => simp [chain_outermost hp]
  | some p => simp [h.chain_inner hp]

theorem root_inner (h : σ.ParentsOlder) (hp : σ.parent? e = some p) : σ.root e = σ.root p := by
  obtain ⟨d, ds, hchain⟩ := List.exists_cons_of_ne_nil (h.chain_ne_nil p)
  rw [root, root, h.chain_inner hp, hchain, List.getLast?_cons_cons]
  simp [List.getLast?_cons]

theorem frame_le_of_mem_chain (h : σ.ParentsOlder) (e : Env) : ∀ d ∈ σ.chain e, d.frame ≤ e.frame := by
  induction e using h.induction with
  | outermost e hp => simp [chain_outermost hp]
  | inner e p hp ih =>
    intro d hd
    rw [h.chain_inner hp] at hd
    obtain rfl | hd := List.mem_cons.mp hd
    · exact Nat.le_refl _
    · exact Nat.le_trans (ih d hd) (Nat.le_of_lt (h hp))

theorem nodup_chain (h : σ.ParentsOlder) (e : Env) : (σ.chain e).Nodup := by
  induction e using h.induction with
  | outermost e hp => simp [chain_outermost hp]
  | inner e p hp ih =>
    rw [h.chain_inner hp]
    refine List.nodup_cons.mpr ⟨fun hmem => ?_, ih⟩
    have hle := h.frame_le_of_mem_chain p e hmem
    have holder := h hp
    omega

theorem root_of_mem_chain (h : σ.ParentsOlder) (e : Env) : ∀ d ∈ σ.chain e, σ.root d = σ.root e := by
  induction e using h.induction with
  | outermost e hp => simp [chain_outermost hp]
  | inner e p hp ih =>
    intro d hd
    rw [h.chain_inner hp] at hd
    obtain rfl | hd := List.mem_cons.mp hd
    · rfl
    · rw [ih d hd, h.root_inner hp]

theorem parent?_root (h : σ.ParentsOlder) (e : Env) : σ.parent? (σ.root e) = none := by
  induction e using h.induction with
  | outermost e hp =>
    rw [root, chain_outermost hp]
    exact hp
  | inner e p hp ih => rwa [h.root_inner hp]

theorem root_mem_chain (h : σ.ParentsOlder) (e : Env) : σ.root e ∈ σ.chain e := by
  induction e using h.induction with
  | outermost e hp => simp [root, chain_outermost hp]
  | inner e p hp ih =>
    rw [h.root_inner hp, h.chain_inner hp]
    exact List.mem_cons_of_mem e ih

theorem depth_eq_one_iff (h : σ.ParentsOlder) : σ.depth e = 1 ↔ σ.parent? e = none := by
  cases hp : σ.parent? e with
  | none => simp [depth, chain_outermost hp]
  | some p =>
    have hpos : 0 < σ.depth p := List.length_pos_iff.mpr (h.chain_ne_nil p)
    simp only [h.depth_inner hp, reduceCtorEq, iff_false]
    omega

/-- The root is the only frame of a chain that has depth one. -/
theorem depth_eq_one_iff_root (h : σ.ParentsOlder) (hd : d ∈ σ.chain e) :
    σ.depth d = 1 ↔ d = σ.root e := by
  rw [h.depth_eq_one_iff]
  constructor
  · intro hp
    rw [← h.root_of_mem_chain e d hd, root, chain_outermost hp]
    rfl
  · rintro rfl
    exact h.parent?_root e

end ParentsOlder

/-- The nearest frame that binds the name has the binding that counts. -/
theorem find?_eq_some_iff :
    σ.find? e name = some v ↔ ∃ nearer d farther, σ.chain e = nearer ++ d :: farther ∧
      σ.bound? name d = some v ∧ ∀ b ∈ nearer, σ.bound? name b = none :=
  List.findSome?_eq_some_iff

theorem find?_eq_none_iff : σ.find? e name = none ↔ ∀ d ∈ σ.chain e, σ.bound? name d = none :=
  List.findSome?_eq_none_iff

theorem frame?_new_or_old (σ : Store) (f : Frame) (d : Env) :
    (σ.addFrame f).2.frame? d = if d = (σ.addFrame f).1 then some f else σ.frame? d := by
  have heq : d = (σ.addFrame f).1 ↔ d.frame = σ.frames.size := by
    cases d
    simp [addFrame]
  simp only [heq]
  exact Array.getElem?_push

theorem parent?_addFrame (σ : Store) (f : Frame) (d : Env) :
    (σ.addFrame f).2.parent? d = if d = (σ.addFrame f).1 then f.parent else σ.parent? d := by
  rw [parent?, frame?_new_or_old]
  split <;> rfl

theorem bound?_addFrame (σ : Store) (f : Frame) (name : String) (d : Env) :
    (σ.addFrame f).2.bound? name d = if d = (σ.addFrame f).1 then f.find? name else σ.bound? name d := by
  rw [bound?, frame?_new_or_old]
  split <;> rfl

theorem bound?_bind (σ : Store) (e d : Env) (name other : String) (v : Value) :
    (σ.bind e name v).bound? other d =
      if d = e ∧ other = name then (σ.frame? d).map fun _ => v else σ.bound? other d := by
  rw [bound?, frame?_bind]
  by_cases hd : d = e
  · subst hd
    by_cases hname : other = name
    · cases hf : σ.frame? d <;> simp [hname, Frame.find?_bind_self]
    · cases hf : σ.frame? d <;> simp [hname, Frame.find?_bind_of_ne, bound?, hf]
  · simp [hd, bound?]

/-- What the name means in the environment `e` is looked for in the frame of `d`. -/
def Visible (σ : Store) (e d : Env) (name : String) : Prop :=
  ∃ nearer farther, σ.chain e = nearer ++ d :: farther ∧ ∀ b ∈ nearer, σ.bound? name b = none

theorem visible_or_findSome?_eq {α : Type} {g g' : Env → Option α} (same : ∀ b, b ≠ d → g' b = g b)
    (es : List Env) :
    (∃ nearer farther, es = nearer ++ d :: farther ∧ ∀ b ∈ nearer, g b = none) ∨
      es.findSome? g' = es.findSome? g := by
  induction es with
  | nil => exact .inr rfl
  | cons e es ih =>
    by_cases he : e = d
    · exact .inl ⟨[], es, by rw [he, List.nil_append], by simp⟩
    · rw [List.findSome?_cons, List.findSome?_cons, same e he]
      cases hg : g e with
      | some a => exact .inr rfl
      | none =>
        obtain ⟨nearer, farther, rfl, hnearer⟩ | hsame := ih
        · exact .inl ⟨e :: nearer, farther, rfl, List.forall_mem_cons.mpr ⟨hg, hnearer⟩⟩
        · exact .inr hsame

/-- Binding a name changes what this name means where the frame is visible, and nothing else. -/
theorem visible_or_find?_bind (σ : Store) (e d : Env) (name other : String) (v : Value) :
    other = name ∧ σ.Visible e d name ∨ (σ.bind d name v).find? e other = σ.find? e other := by
  rw [find?, find?, chain_bind]
  by_cases hname : other = name
  · subst hname
    have hsame (b : Env) (hb : b ≠ d) : (σ.bind d other v).bound? other b = σ.bound? other b := by
      rw [bound?_bind, if_neg fun h => hb h.1]
    exact (visible_or_findSome?_eq hsame (σ.chain e)).imp_left fun h => ⟨rfl, h⟩
  · have hsame : (σ.bind d name v).bound? other = σ.bound? other := by
      funext b
      rw [bound?_bind, if_neg fun h => hname h.2]
    exact .inr (by rw [hsame])

theorem ParentsOlder.find?_bind_of_visible (h : σ.ParentsOlder) (visible : σ.Visible e d name)
    (known : (σ.frame? d).isSome) (v : Value) : (σ.bind d name v).find? e name = some v := by
  obtain ⟨nearer, farther, hchain, hnearer⟩ := visible
  obtain ⟨f, hf⟩ := Option.isSome_iff_exists.mp known
  obtain ⟨-, -, hne⟩ := List.nodup_append.mp (hchain ▸ h.nodup_chain e)
  refine find?_eq_some_iff.mpr ⟨nearer, d, farther, by rw [chain_bind, hchain], ?_, fun b hb => ?_⟩
  · simp [bound?_bind, hf]
  · rw [bound?_bind, if_neg fun h => hne b hb d List.mem_cons_self h.1]
    exact hnearer b hb

/-- Binding in a frame that was just made is the same as making the frame with the binding. -/
theorem addFrame_bind (σ : Store) (f : Frame) (name : String) (v : Value) :
    (σ.addFrame f).2.bind (σ.addFrame f).1 name v = (σ.addFrame (f.bind name v)).2 := by
  have hframes : (σ.frames.push f).modify σ.frames.size (Frame.bind name v) =
      σ.frames.push (f.bind name v) := by
    refine Array.ext_getElem? fun i => ?_
    rw [Array.getElem?_modify, Array.getElem?_push, Array.getElem?_push]
    by_cases hi : σ.frames.size = i
    · simp [hi]
    · simp [hi, Ne.symm hi]
  simp only [addFrame, bind, hframes]

namespace ParentsOlder

theorem empty (output : Sink) : (Store.empty output).ParentsOlder := by
  intro e p hp
  simp [parent?, frame?, Store.empty] at hp

theorem bind (h : σ.ParentsOlder) (e : Env) (name : String) (v : Value) :
    (σ.bind e name v).ParentsOlder := by
  intro d p hp
  rw [parent?_bind] at hp
  exact h hp

theorem addFrame (h : σ.ParentsOlder) (known : ∀ p, f.parent = some p → (σ.frame? p).isSome) :
    (σ.addFrame f).2.ParentsOlder := by
  intro d p hp
  rw [parent?_addFrame] at hp
  split at hp
  · next hd =>
    rw [hd]
    exact frame?_isSome_iff.mp (known p hp)
  · exact h hp

/-- A new frame changes the meaning of no name in an environment that was there before. -/
theorem find?_addFrame (h : σ.ParentsOlder) (known : ∀ p, f.parent = some p → (σ.frame? p).isSome)
    (old : (σ.frame? e).isSome) (name : String) : (σ.addFrame f).2.find? e name = σ.find? e name := by
  have h' := h.addFrame known
  have hne {d : Env} (hd : (σ.frame? d).isSome) : d ≠ (σ.addFrame f).1 := by
    rintro rfl
    exact absurd (frame?_isSome_iff.mp hd) (Nat.lt_irrefl _)
  induction e using h.induction with
  | outermost e hp =>
    have hp' : (σ.addFrame f).2.parent? e = none := by rw [parent?_addFrame, if_neg (hne old), hp]
    rw [find?_outermost hp, find?_outermost hp', bound?_addFrame, if_neg (hne old)]
  | inner e p hp ih =>
    have hp' : (σ.addFrame f).2.parent? e = some p := by rw [parent?_addFrame, if_neg (hne old), hp]
    rw [h.find?_inner hp, h'.find?_inner hp', ih (h.parent_isSome hp), bound?_addFrame, if_neg (hne old)]

/-- What a name means in a new frame is found in it, or else outside of it. -/
theorem find?_new (h : σ.ParentsOlder) (parent : f.parent = some p) (known : (σ.frame? p).isSome)
    (name : String) :
    (σ.addFrame f).2.find? (σ.addFrame f).1 name = (f.find? name).or (σ.find? p name) := by
  have hknown (q : Env) (hq : f.parent = some q) : (σ.frame? q).isSome := by
    rw [parent] at hq
    rwa [← Option.some.inj hq]
  have hp : (σ.addFrame f).2.parent? (σ.addFrame f).1 = some p := by
    rw [parent?_addFrame, if_pos rfl, parent]
  rw [(h.addFrame hknown).find?_inner hp, bound?_addFrame, if_pos rfl, h.find?_addFrame hknown known]

end ParentsOlder

end Store

/-- The frame after names were bound in it, in turn. -/
def Frame.bindAll (bindings : List (String × Value)) (f : Frame) : Frame :=
  bindings.foldl (fun f b => f.bind b.1 b.2) f

theorem Params.frame_eq (p : Params) (parent : Env) (args : List Value) :
    p.frame parent args =
      (p.check args.length).map fun _ => Frame.bindAll (p.pairs args) ⟨[], some parent⟩ := rfl

theorem Env.enter_apply (parent : Env) (params : Params) (args : List Value) (σ : Store) :
    parent.enter params args σ =
      match params.frame parent args with
      | .ok f => .value (σ.addFrame f).1 (σ.addFrame f).2
      | .error e => .failure e σ := by
  unfold Env.enter
  cases params.frame parent args <;> rfl

end Lisp
