import Lisp.Proofs.Calling

/-! Equality of values that hold no atom. What the atoms of a store hold makes no difference to it, and the
height of either value is enough steps. -/

namespace Lisp

namespace Value

/-- The answer after `n` steps, where it is the same whatever atoms hold and whichever pairs are open. -/
noncomputable def agreedAnswer (n : Nat) (a b : Value) : Option Bool :=
  open Classical in
  if h : ∃ r, ∀ cells opened, equalWithin cells n opened a b = some r then some h.choose else none

theorem agreedAnswer_eq_some {n : Nat} {a b : Value} {r : Bool} :
    agreedAnswer n a b = some r ↔ ∀ cells opened, equalWithin cells n opened a b = some r := by
  unfold agreedAnswer
  constructor
  · intro h
    split at h
    · next hex =>
      obtain rfl := Option.some.inj h
      exact hex.choose_spec
    · cases h
  · intro h
    have hex : ∃ r, ∀ cells opened, equalWithin cells n opened a b = some r := ⟨r, h⟩
    rw [dif_pos hex, ← hex.choose_spec #[] [], h #[] []]

theorem agreedAnswer_refines (n : Nat) (cells : Cells) (opened : List (Cell × Cell)) :
    Refines (agreedAnswer n) (equalWithin cells n opened) :=
  fun _ _ _ h => agreedAnswer_eq_some.mp h cells opened

theorem AtomFree.exists_agreedAnswer {n : Nat} {a b : Value} (ha : AtomFree a) (hb : AtomFree b)
    (hn : min a.height b.height ≤ n) : ∃ r, agreedAnswer n a b = some r := by
  induction n generalizing a b with
  | zero =>
    have hpos := height_pos a
    have hpos' := height_pos b
    omega
  | succ n ih =>
    have hitems {xs ys : List Value} (hxs : a.items? = some xs) (hys : b.items? = some ys) :
        ∃ r, itemsEqual (agreedAnswer n) xs ys = some r := by
      refine itemsEqual_total fun x hx y hy => ?_
      have hlx := height_item_lt hxs hx
      have hly := height_item_lt hys hy
      exact ih (ha.item hxs hx) (hb.item hys hy) (by omega)
    simp only [agreedAnswer_eq_some]
    cases a <;> cases b
    case list.list xs ys | list.vector xs ys | vector.list xs ys | vector.vector xs ys =>
      obtain ⟨r, hr⟩ := hitems rfl rfl
      exact ⟨r, fun cells opened => itemsEqual_refines (agreedAnswer_refines n cells opened) hr⟩
    case map.map es fs =>
      have hkeys (e) (he : e ∈ es) (f) (hf : f ∈ fs) : ∃ r, agreedAnswer n f.1 e.1 = some r := by
        have hle := height_key_lt he
        have hlf := height_key_lt hf
        exact ih (hb.key hf) (ha.key he) (by omega)
      have hvalues (e) (he : e ∈ es) (f) (hf : f ∈ fs) : ∃ r, agreedAnswer n f.2 e.2 = some r := by
        have hle := height_value_lt he
        have hlf := height_value_lt hf
        exact ih (hb.value hf) (ha.value he) (by omega)
      obtain ⟨r, hr⟩ := entriesEqual_total hkeys hvalues
      exact ⟨r, fun cells opened => entriesEqual_refines (agreedAnswer_refines n cells [])
        (agreedAnswer_refines n cells opened) hr⟩
    case atom.atom c d => exact absurd (.refl _) (ha c)
    all_goals exact ⟨_, fun _ _ => rfl⟩

/-- In any store, as many steps as a value is high tell what literal equality tells. -/
theorem AtomFree.equal?_eq {a b : Value} (ha : AtomFree a) (hb : AtomFree b) (cells : Cells) {steps : Nat}
    (h : a.height ≤ steps) : a.equal? cells steps b = some (literalEqual a b) := by
  obtain ⟨r, hr⟩ := ha.exists_agreedAnswer hb (Nat.min_le_left a.height b.height)
  have hanswer (cells : Cells) : a.equal? cells a.height b = some r := agreedAnswer_eq_some.mp hr cells []
  have hliteral : literalEqual a b = r := by
    rw [literalEqual, hanswer]
    cases r <;> rfl
  rw [hliteral]
  exact equalWithin_mono h [] _ _ _ (hanswer cells)

theorem AtomFree.literalEqual_iff {a b : Value} (ha : AtomFree a) (hb : AtomFree b) (cells : Cells) :
    literalEqual a b = true ↔ Equal cells a b := by
  have hanswer := ha.equal?_eq hb cells le_rfl
  constructor
  · intro h
    exact ⟨a.height, hanswer.trans (congrArg some h)⟩
  · rintro ⟨steps, h⟩
    exact Answers.unique ⟨a.height, hanswer⟩ ⟨steps, h⟩

/-- Values without atoms that differ in one store differ in every other. -/
theorem AtomFree.not_equal {a b : Value} (ha : AtomFree a) (hb : AtomFree b) {cells other : Cells}
    (h : ¬ Equal cells a b) : ¬ Equal other a b :=
  fun hab => h ((ha.literalEqual_iff hb cells).mp ((ha.literalEqual_iff hb other).mpr hab))

end Value

end Lisp
