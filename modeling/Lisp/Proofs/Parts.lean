import Lisp.Value
import Mathlib.Order.Lattice

/-! The parts of a value: the value itself, the elements of a list or vector, the keys and
values of a map, and the parts of these. What an atom holds and what a closure runs is not part
of it. -/

namespace Lisp

namespace Value

inductive Part : Value → Value → Prop
  | refl (v : Value) : Part v v
  | item {x y v : Value} {items : List Value} (hv : v.items? = some items) (hy : y ∈ items)
    (h : Part x y) : Part x v
  | key {x : Value} {es : List (Value × Value)} {e : Value × Value} (he : e ∈ es) (h : Part x e.1) :
    Part x (.map es)
  | value {x : Value} {es : List (Value × Value)} {e : Value × Value} (he : e ∈ es)
      (h : Part x e.2) :
    Part x (.map es)

theorem Part.trans {x y z : Value} (hxy : Part x y) (hyz : Part y z) : Part x z := by
  induction hyz with
  | refl => exact hxy
  | item hv hy _ ih => exact .item hv hy ih
  | key he _ ih => exact .key he ih
  | value he _ ih => exact .value he ih

def AtomFree (v : Value) : Prop :=
  ∀ c, ¬ Part (.atom c) v

theorem AtomFree.item {v x : Value} {items : List Value} (h : AtomFree v)
    (hv : v.items? = some items) (hx : x ∈ items) : AtomFree x :=
  fun c hc => h c (.item hv hx hc)

theorem AtomFree.key {es : List (Value × Value)} {e : Value × Value} (h : AtomFree (.map es))
    (he : e ∈ es) : AtomFree e.1 :=
  fun c hc => h c (.key he hc)

theorem AtomFree.value {es : List (Value × Value)} {e : Value × Value} (h : AtomFree (.map es))
    (he : e ∈ es) : AtomFree e.2 :=
  fun c hc => h c (.value he hc)

theorem atomFree_scalar {v : Value} (hi : v.items? = none) (hm : ∀ es, v ≠ .map es)
    (ha : ∀ c, v ≠ .atom c) : AtomFree v := by
  intro c hc
  cases hc with
  | refl => exact ha c rfl
  | item hv => cases hi.symm.trans hv
  | key | value => exact hm _ rfl

theorem atomFree_items {v : Value} {items : List Value} (hv : v.items? = some items)
    (h : ∀ x ∈ items, AtomFree x) : AtomFree v := by
  intro c hc
  cases hc with
  | refl => cases hv
  | item hv' hy hc =>
    cases hv.symm.trans hv'
    exact h _ hy c hc
  | key | value => cases hv

theorem atomFree_map {es : List (Value × Value)} (h : ∀ e ∈ es, AtomFree e.1 ∧ AtomFree e.2) :
    AtomFree (.map es) := by
  intro c hc
  cases hc with
  | item hv => cases hv
  | key he hc => exact (h _ he).1 c hc
  | value he hc => exact (h _ he).2 c hc

theorem height_pos (v : Value) : 0 < v.height := by
  cases v <;> simp [height]

theorem itemsHeight_le {x : Value} {items : List Value} (hx : x ∈ items) :
    x.height ≤ itemsHeight items := by
  induction items with
  | nil => simp at hx
  | cons y ys ih =>
    rw [itemsHeight]
    rcases List.mem_cons.mp hx with rfl | hx
    · exact le_max_left _ _
    · exact (ih hx).trans (le_max_right _ _)

theorem entriesHeight_le {e : Value × Value} {es : List (Value × Value)} (he : e ∈ es) :
    max e.1.height e.2.height ≤ entriesHeight es := by
  induction es with
  | nil => simp at he
  | cons f fs ih =>
    obtain ⟨k, v⟩ := f
    rw [entriesHeight]
    rcases List.mem_cons.mp he with rfl | he
    · exact le_max_left _ _
    · exact (ih he).trans (le_max_right _ _)

theorem height_item_lt {v x : Value} {items : List Value} (hv : v.items? = some items)
    (hx : x ∈ items) :
    x.height < v.height := by
  have hle := itemsHeight_le hx
  cases v <;> simp only [items?, reduceCtorEq, Option.some.injEq] at hv
  all_goals
    subst hv
    rw [height]
    omega

theorem height_key_lt {e : Value × Value} {es : List (Value × Value)} (he : e ∈ es) :
    e.1.height < (map es).height := by
  have hle := (le_max_left _ _).trans (entriesHeight_le he)
  rw [height]
  omega

theorem height_value_lt {e : Value × Value} {es : List (Value × Value)} (he : e ∈ es) :
    e.2.height < (map es).height := by
  have hle := (le_max_right _ _).trans (entriesHeight_le he)
  rw [height]
  omega

theorem Part.height_le {x v : Value} (h : Part x v) : x.height ≤ v.height := by
  induction h with
  | refl => exact le_rfl
  | item hv hy _ ih => exact ih.trans (height_item_lt hv hy).le
  | key he _ ih => exact ih.trans (height_key_lt he).le
  | value he _ ih => exact ih.trans (height_value_lt he).le

end Value

end Lisp
