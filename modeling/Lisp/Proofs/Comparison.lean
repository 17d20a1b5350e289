import Lisp.Proofs.Parts
import Lisp.Value.Equality
import Mathlib.Data.List.Forall2

/-! How far a comparison of two values goes. An answer stays when more steps are allowed, and
what the answer is follows from the answers on the elements, on the entries or on the contents.
-/

namespace Lisp

namespace Value

def Refines (f g : Value → Value → Option Bool) : Prop :=
  ∀ x y r, f x y = some r → g x y = some r

section

variable {same same' : Value → Value → Option Bool} {xs ys : List Value}

theorem pairsEqual_cons (x y : Value) (xs ys : List Value) :
    itemsEqual.pairsEqual same (x :: xs) (y :: ys) =
      (same x y).bind fun answer =>
        if answer then itemsEqual.pairsEqual same xs ys else some false := by
  rw [itemsEqual.pairsEqual]
  rcases same x y with _ | _ | _ <;> rfl

theorem pairsEqual_refines (hs : Refines same same') {r : Bool}
    (h : itemsEqual.pairsEqual same xs ys = some r) :
    itemsEqual.pairsEqual same' xs ys = some r := by
  induction xs generalizing ys with
  | nil => simpa [itemsEqual.pairsEqual] using h
  | cons x xs ih =>
    cases ys with
    | nil => simpa [itemsEqual.pairsEqual] using h
    | cons y ys =>
      rw [pairsEqual_cons] at h ⊢
      obtain ⟨answer, hxy, h⟩ := Option.bind_eq_some_iff.mp h
      have hxy' := hs x y answer hxy
      rw [hxy', Option.bind_some]
      cases answer with
      | true => exact ih h
      | false => exact h

theorem pairsEqual_eq_true (h : itemsEqual.pairsEqual same xs ys = some true)
    (hlen : xs.length = ys.length) : List.Forall₂ (fun x y => same x y = some true) xs ys := by
  induction xs generalizing ys with
  | nil =>
    obtain rfl : ys = [] := List.length_eq_zero_iff.mp hlen.symm
    exact .nil
  | cons x xs ih =>
    cases ys with
    | nil => simp at hlen
    | cons y ys =>
      rw [pairsEqual_cons] at h
      obtain ⟨answer, hxy, h⟩ := Option.bind_eq_some_iff.mp h
      cases answer with
      | true =>
        have htail := ih h (by simpa using hlen)
        exact .cons hxy htail
      | false => simp at h

theorem pairsEqual_ne_false (h : List.Forall₂ (fun x y => same x y ≠ some false) xs ys) :
    itemsEqual.pairsEqual same xs ys ≠ some false := by
  induction h with
  | nil => simp [itemsEqual.pairsEqual]
  | @cons x y xs ys hxy _ ih =>
    rw [pairsEqual_cons]
    intro h
    obtain ⟨answer, hs, h⟩ := Option.bind_eq_some_iff.mp h
    cases answer with
    | true => exact ih h
    | false => exact hxy hs

theorem pairsEqual_total (h : ∀ x ∈ xs, ∀ y ∈ ys, ∃ r, same x y = some r) :
    ∃ r, itemsEqual.pairsEqual same xs ys = some r := by
  induction xs generalizing ys with
  | nil => exact ⟨true, by simp [itemsEqual.pairsEqual]⟩
  | cons x xs ih =>
    cases ys with
    | nil => exact ⟨true, by simp [itemsEqual.pairsEqual]⟩
    | cons y ys =>
      obtain ⟨answer, hxy⟩ := h x (by simp) y (by simp)
      rw [pairsEqual_cons, hxy, Option.bind_some]
      cases answer with
      | true => exact ih fun x hx y hy => h x (by simp [hx]) y (by simp [hy])
      | false => exact ⟨false, rfl⟩

theorem itemsEqual_refines (hs : Refines same same') {r : Bool}
    (h : itemsEqual same xs ys = some r) :
    itemsEqual same' xs ys = some r := by
  unfold itemsEqual at h ⊢
  split at h
  · next hlen => rw [if_pos hlen]; exact pairsEqual_refines hs h
  · next hlen => rwa [if_neg hlen]

theorem itemsEqual_eq_true (h : itemsEqual same xs ys = some true) :
    List.Forall₂ (fun x y => same x y = some true) xs ys := by
  unfold itemsEqual at h
  split at h
  · next hlen => exact pairsEqual_eq_true h hlen
  · simp at h

theorem itemsEqual_ne_false (h : List.Forall₂ (fun x y => same x y ≠ some false) xs ys) :
    itemsEqual same xs ys ≠ some false := by
  rw [itemsEqual, if_pos h.length_eq]
  exact pairsEqual_ne_false h

theorem itemsEqual_total (h : ∀ x ∈ xs, ∀ y ∈ ys, ∃ r, same x y = some r) :
    ∃ r, itemsEqual same xs ys = some r := by
  unfold itemsEqual
  split
  · exact pairsEqual_total h
  · exact ⟨false, rfl⟩

end

section

variable {same same' : Value → Option Bool} {fs : List (Value × Value)}

theorem entryValue?_cons (f : Value × Value) (fs : List (Value × Value)) :
    entryValue? same (f :: fs) =
      (same f.1).bind fun answer => if answer then some (some f.2) else entryValue? same fs := by
  rw [entryValue?]
  rcases same f.1 with _ | _ | _ <;> rfl

theorem entryValue?_refines (hs : ∀ k r, same k = some r → same' k = some r) {found : Option Value}
    (h : entryValue? same fs = some found) : entryValue? same' fs = some found := by
  induction fs with
  | nil => exact h
  | cons f fs ih =>
    rw [entryValue?_cons] at h ⊢
    obtain ⟨answer, hf, h⟩ := Option.bind_eq_some_iff.mp h
    have hf' := hs f.1 answer hf
    rw [hf', Option.bind_some]
    cases answer with
    | true => exact h
    | false => exact ih h

theorem entryValue?_eq_value {w : Value} (h : entryValue? same fs = some (some w)) :
    ∃ f ∈ fs, same f.1 = some true ∧ f.2 = w := by
  induction fs with
  | nil => simp [entryValue?] at h
  | cons f fs ih =>
    rw [entryValue?_cons] at h
    obtain ⟨answer, hf, h⟩ := Option.bind_eq_some_iff.mp h
    cases answer with
    | true => exact ⟨f, by simp, hf, by simpa using h⟩
    | false =>
      obtain ⟨g, hg, hsame, hw⟩ := ih h
      exact ⟨g, by simp [hg], hsame, hw⟩

theorem entryValue?_eq_none (h : entryValue? same fs = some none) :
    ∀ f ∈ fs, same f.1 = some false := by
  induction fs with
  | nil => simp
  | cons f fs ih =>
    rw [entryValue?_cons] at h
    obtain ⟨answer, hf, h⟩ := Option.bind_eq_some_iff.mp h
    cases answer with
    | true => simp at h
    | false =>
      have hrest := ih h
      exact List.forall_mem_cons.mpr ⟨hf, hrest⟩

theorem entryValue?_total (h : ∀ f ∈ fs, ∃ r, same f.1 = some r) :
    ∃ found, entryValue? same fs = some found := by
  induction fs with
  | nil => exact ⟨none, rfl⟩
  | cons f fs ih =>
    obtain ⟨answer, hf⟩ := h f (by simp)
    rw [entryValue?_cons, hf, Option.bind_some]
    cases answer with
    | true => exact ⟨some f.2, rfl⟩
    | false => exact ih fun g hg => h g (by simp [hg])

end

section

variable {sameKey sameKey' sameValue sameValue' : Value → Value → Option Bool}
  {es fs : List (Value × Value)}

theorem found_cons (e : Value × Value) (es : List (Value × Value)) :
    entriesEqual.found sameKey sameValue fs (e :: es) =
      (entryValue? (sameKey · e.1) fs).bind fun found =>
        match found with
        | some w =>
          (sameValue w e.2).bind fun answer =>
            if answer then entriesEqual.found sameKey sameValue fs es else some false
        | none => some false := by
  rw [entriesEqual.found]
  rcases entryValue? (sameKey · e.1) fs with _ | _ | w
  · rfl
  · rfl
  · simp only [Option.bind_some]
    rcases sameValue w e.2 with _ | _ | _ <;> rfl

theorem found_refines (hk : Refines sameKey sameKey') (hv : Refines sameValue sameValue') {r : Bool}
    (h : entriesEqual.found sameKey sameValue fs es = some r) :
    entriesEqual.found sameKey' sameValue' fs es = some r := by
  induction es with
  | nil => exact h
  | cons e es ih =>
    rw [found_cons] at h ⊢
    obtain ⟨found, hf, h⟩ := Option.bind_eq_some_iff.mp h
    have hf' := entryValue?_refines (fun k r => hk k e.1 r) hf
    rw [hf', Option.bind_some]
    cases found with
    | none => exact h
    | some w =>
      obtain ⟨answer, hw, h⟩ := Option.bind_eq_some_iff.mp h
      have hw' := hv w e.2 answer hw
      simp only [hw', Option.bind_some]
      cases answer with
      | true => exact ih h
      | false => exact h

theorem found_eq_true (h : entriesEqual.found sameKey sameValue fs es = some true) :
    ∀ e ∈ es, ∃ f ∈ fs, sameKey f.1 e.1 = some true ∧ sameValue f.2 e.2 = some true := by
  induction es with
  | nil => simp
  | cons e es ih =>
    rw [found_cons] at h
    obtain ⟨found, hf, h⟩ := Option.bind_eq_some_iff.mp h
    cases found with
    | none => simp at h
    | some w =>
      obtain ⟨answer, hw, hrest⟩ := Option.bind_eq_some_iff.mp h
      cases answer with
      | true =>
        obtain ⟨f, hmem, hkey, rfl⟩ := entryValue?_eq_value hf
        have htail := ih hrest
        exact List.forall_mem_cons.mpr ⟨⟨f, hmem, hkey, hw⟩, htail⟩
      | false => simp at hrest

theorem found_eq_false (h : entriesEqual.found sameKey sameValue fs es = some false) :
    ∃ e ∈ es, (∀ f ∈ fs, sameKey f.1 e.1 = some false) ∨
      ∃ f ∈ fs, sameKey f.1 e.1 = some true ∧ sameValue f.2 e.2 = some false := by
  induction es with
  | nil => simp [entriesEqual.found] at h
  | cons e es ih =>
    rw [found_cons] at h
    obtain ⟨found, hf, h⟩ := Option.bind_eq_some_iff.mp h
    cases found with
    | none =>
      have hnone := entryValue?_eq_none hf
      exact ⟨e, by simp, .inl hnone⟩
    | some w =>
      obtain ⟨answer, hw, h⟩ := Option.bind_eq_some_iff.mp h
      cases answer with
      | true =>
        obtain ⟨e', he', hor⟩ := ih h
        exact ⟨e', by simp [he'], hor⟩
      | false =>
        obtain ⟨f, hmem, hkey, rfl⟩ := entryValue?_eq_value hf
        exact ⟨e, by simp, .inr ⟨f, hmem, hkey, hw⟩⟩

theorem found_total (hk : ∀ e ∈ es, ∀ f ∈ fs, ∃ r, sameKey f.1 e.1 = some r)
    (hv : ∀ e ∈ es, ∀ f ∈ fs, ∃ r, sameValue f.2 e.2 = some r) :
    ∃ r, entriesEqual.found sameKey sameValue fs es = some r := by
  induction es with
  | nil => exact ⟨true, rfl⟩
  | cons e es ih =>
    have htotal : ∃ found, entryValue? (sameKey · e.1) fs = some found :=
      entryValue?_total (hk e (by simp))
    obtain ⟨found, hf⟩ := htotal
    rw [found_cons, hf, Option.bind_some]
    cases found with
    | none => exact ⟨false, rfl⟩
    | some w =>
      obtain ⟨f, hmem, -, rfl⟩ := entryValue?_eq_value hf
      obtain ⟨answer, hw⟩ := hv e (by simp) f hmem
      simp only [hw, Option.bind_some]
      cases answer with
      | true => exact ih (fun e he => hk e (by simp [he])) (fun e he => hv e (by simp [he]))
      | false => exact ⟨false, rfl⟩

theorem entriesEqual_refines (hk : Refines sameKey sameKey')
    (hv : Refines sameValue sameValue') {r : Bool}
    (h : entriesEqual sameKey sameValue es fs = some r) :
    entriesEqual sameKey' sameValue' es fs = some r := by
  unfold entriesEqual at h ⊢
  split at h
  · next hlen => rw [if_pos hlen]; exact found_refines hk hv h
  · next hlen => rwa [if_neg hlen]

theorem entriesEqual_eq_true (h : entriesEqual sameKey sameValue es fs = some true) :
    es.length = fs.length ∧
      ∀ e ∈ es, ∃ f ∈ fs, sameKey f.1 e.1 = some true ∧ sameValue f.2 e.2 = some true := by
  unfold entriesEqual at h
  split at h
  · next hlen => exact ⟨hlen, found_eq_true h⟩
  · simp at h

theorem entriesEqual_eq_false (h : entriesEqual sameKey sameValue es fs = some false)
    (hlen : es.length = fs.length) :
    ∃ e ∈ es, (∀ f ∈ fs, sameKey f.1 e.1 = some false) ∨
      ∃ f ∈ fs, sameKey f.1 e.1 = some true ∧ sameValue f.2 e.2 = some false := by
  rw [entriesEqual, if_pos hlen] at h
  exact found_eq_false h

theorem entriesEqual_total (hk : ∀ e ∈ es, ∀ f ∈ fs, ∃ r, sameKey f.1 e.1 = some r)
    (hv : ∀ e ∈ es, ∀ f ∈ fs, ∃ r, sameValue f.2 e.2 = some r) :
    ∃ r, entriesEqual sameKey sameValue es fs = some r := by
  unfold entriesEqual
  split
  · exact found_total hk hv
  · exact ⟨false, rfl⟩

end

end Value

end Lisp
