import Lisp.Proofs.ArithmeticFold
import Lisp.Proofs.Asking

/-! What the builtins on sequences make of the elements. Whether a sequence is a list or a vector makes no
difference to them, and sequences that are equal have equal elements. -/

namespace Lisp

open Arithmetic (InRange)

/-- The elements of a sequence, of which nil has none. -/
def Value.elements? : Value → Option (List Value)
  | .nil => some []
  | v => v.items?

/-- The builtins on sequences, each of which is a function of its arguments alone. -/
def Sequence.ofBuiltin? : Builtin → Option (List Value → Except EvalError Value)
  | .isEmpty => some Sequence.isEmpty
  | .count => some Sequence.count
  | .first => some Sequence.first
  | .rest => some Sequence.rest
  | .nth => some Sequence.nth
  | .cons => some Sequence.cons
  | .concat => some Sequence.concat
  | .vec => some Sequence.vec
  | _ => none

/-- The values are lists and vectors with these elements. -/
abbrev HoldParts (args : List Value) (parts : List (List Value)) : Prop :=
  List.Forall₂ (fun v xs => v.items? = some xs) args parts

/-- The first of the arguments that is neither a list nor a vector. -/
inductive FirstOdd : Value → List Value → Prop
  | here {v : Value} (odd : v.items? = none) (args : List Value) : FirstOdd v (v :: args)
  | later {v u : Value} {args : List Value} {xs : List Value} (isItems : u.items? = some xs)
    (h : FirstOdd v args) : FirstOdd v (u :: args)

section

variable {args : List Value} {parts : List (List Value)} {s t v x : Value} {xs ys : List Value} {e : EvalError}

namespace Value

theorem requireItems_of_items (h : s.items? = some xs) : s.requireItems = .ok xs := by
  rw [requireItems, h]

theorem requireItems_of_none (h : s.items? = none) :
    s.requireItems = .error (.wrongArgType "list or vector" s.kind) := by
  rw [requireItems, h]

theorem elements?_cases (h : s.elements? = some xs) : s = .nil ∧ xs = [] ∨ s.items? = some xs := by
  unfold elements? at h
  split at h
  · exact .inl ⟨rfl, (Option.some.inj h).symm⟩
  · exact .inr h

theorem elements?_of_items (h : s.items? = some xs) : s.elements? = some xs := by
  unfold elements?
  split
  · cases h
  · exact h

theorem requireItemsOrNil_of_elements (h : s.elements? = some xs) : s.requireItemsOrNil = .ok xs := by
  obtain ⟨rfl, rfl⟩ | h := elements?_cases h
  · rfl
  · unfold requireItemsOrNil
    split
    · cases h
    · exact requireItems_of_items h

end Value

namespace Sequence

theorem inRange_of_le {m n : Nat} (hle : m ≤ n) (h : InRange n) : InRange m := by
  unfold InRange at h ⊢
  omega

theorem size_toInt (h : InRange xs.length) : (size xs).toInt = xs.length := by
  cases hn : integer? xs.length with
  | some n => rw [size, hn, Option.getD_some, integer?_eq_some.mp hn]
  | none => exact absurd h (Arithmetic.integer?_eq_none_iff.mp hn)

/-- The sizes of parts add up to the size of the whole. -/
theorem sum_sizes (h : InRange parts.flatten.length) :
    (size parts.flatten).toInt = ((parts.map size).map Int64.toInt).sum := by
  rw [size_toInt h]
  induction parts with
  | nil => rfl
  | cons xs parts ih =>
    rw [List.flatten_cons, List.length_append] at h
    have hxs : InRange xs.length := inRange_of_le (Nat.le_add_right _ _) h
    have hparts : InRange parts.flatten.length := inRange_of_le (Nat.le_add_left _ _) h
    rw [List.map_cons, List.map_cons, List.sum_cons, size_toInt hxs, ← ih hparts, List.flatten_cons,
      List.length_append, Int.natCast_add]

/-- What is made of one sequence is made of its elements. -/
theorem bind_elements (h : s.elements? = some xs) (f : List Value → Except EvalError Value) :
    (oneArgument [s] >>= fun v => v.requireItemsOrNil >>= f) = f xs := by
  simp only [oneArgument, bind, Except.bind, Value.requireItemsOrNil_of_elements h]

theorem count_elements (h : s.elements? = some xs) : count [s] = .ok (.int (size xs)) :=
  bind_elements h fun xs => .ok (.int (size xs))

theorem isEmpty_elements (h : s.elements? = some xs) : isEmpty [s] = .ok (.bool xs.isEmpty) :=
  bind_elements h fun xs => .ok (.bool xs.isEmpty)

theorem first_elements (h : s.elements? = some xs) : first [s] = .ok (xs.head?.getD .nil) :=
  bind_elements h fun xs => .ok (xs.head?.getD .nil)

theorem rest_elements (h : s.elements? = some xs) : rest [s] = .ok (.list xs.tail) :=
  bind_elements h fun xs => .ok (.list xs.tail)

theorem cons_items (h : s.items? = some xs) (x : Value) : cons [x, s] = .ok (.list (x :: xs)) := by
  simp only [cons, twoArguments, bind, Except.bind, Value.requireItems_of_items h]

theorem nth_eq (h : s.items? = some xs) (i : Int64) :
    nth [s, .int i] = (element? xs i.toInt).elim (.error (.indexOutOfBounds i.toInt xs.length)) .ok := by
  simp only [nth, twoArguments, bind, Except.bind, Value.requireItems_of_items h, Value.requireInt]
  cases element? xs i.toInt <;> rfl

theorem element?_inside {i : Int} (hi : 0 ≤ i) : element? xs i = xs[i.toNat]? :=
  if_neg (Int.not_lt.mpr hi)

theorem element?_outside {i : Int} (hi : ¬ (0 ≤ i ∧ i < xs.length)) : element? xs i = none := by
  unfold element?
  split
  · rfl
  · exact List.getElem?_eq_none (by omega)

theorem nth_inside (h : s.items? = some xs) {i : Int64} (hi : 0 ≤ i.toInt) (hlt : i.toInt < xs.length) :
    ∃ v, xs[i.toInt.toNat]? = some v ∧ nth [s, .int i] = .ok v := by
  have hget := List.getElem?_eq_getElem (l := xs) (i := i.toInt.toNat) (by omega)
  exact ⟨_, hget, by rw [nth_eq h, element?_inside hi, hget]; rfl⟩

theorem nth_outside (h : s.items? = some xs) {i : Int64} (hi : ¬ (0 ≤ i.toInt ∧ i.toInt < xs.length)) :
    nth [s, .int i] = .error (.indexOutOfBounds i.toInt xs.length) := by
  rw [nth_eq h, element?_outside hi]
  rfl

theorem nth_eq_ok (h : s.items? = some xs) (i : Int64) :
    nth [s, .int i] = .ok v ↔ element? xs i.toInt = some v := by
  rw [nth_eq h]
  cases element? xs i.toInt <;> simp

theorem element?_append_left {i : Int} (hi : i < xs.length) : element? (xs ++ ys) i = element? xs i := by
  unfold element?
  split
  · rfl
  · exact List.getElem?_append_left (by omega)

theorem element?_append_right {i : Int} (hi : xs.length ≤ i) :
    element? (xs ++ ys) i = element? ys (i - xs.length) := by
  rw [element?_inside (by omega), element?_inside (by omega), List.getElem?_append_right (by omega)]
  congr 1
  omega

theorem vec_eq_ok : vec args = .ok v ↔ ∃ s xs, args = [s] ∧ s.items? = some xs ∧ v = .vector xs := by
  constructor
  · intro h
    match args with
    | [] | _ :: _ :: _ => cases h
    | [s] =>
      cases hs : s.items? with
      | none =>
        simp only [vec, oneArgument, bind, Except.bind, Value.requireItems_of_none hs] at h
        cases h
      | some xs =>
        simp only [vec, oneArgument, bind, Except.bind, Value.requireItems_of_items hs] at h
        cases h
        exact ⟨s, xs, rfl, hs, rfl⟩
  · rintro ⟨s, xs, rfl, hs, rfl⟩
    simp only [vec, oneArgument, bind, Except.bind, Value.requireItems_of_items hs]

theorem mapM_parts (h : HoldParts args parts) : args.mapM Value.requireItems = .ok parts := by
  induction h with
  | nil => rfl
  | cons isItems _ ih =>
    rw [List.mapM_cons, Value.requireItems_of_items isItems, ih]
    rfl

theorem mapM_odd (h : FirstOdd v args) :
    args.mapM Value.requireItems = .error (.wrongArgType "list or vector" v.kind) := by
  induction h with
  | here odd =>
    rw [List.mapM_cons, Value.requireItems_of_none odd]
    rfl
  | later isItems _ ih =>
    rw [List.mapM_cons, Value.requireItems_of_items isItems, ih]
    rfl

theorem parts_or_odd (args : List Value) : (∃ parts, HoldParts args parts) ∨ ∃ v, FirstOdd v args := by
  induction args with
  | nil => exact .inl ⟨[], .nil⟩
  | cons u args ih =>
    cases hu : u.items? with
    | none => exact .inr ⟨u, .here hu args⟩
    | some xs =>
      obtain ⟨parts, hparts⟩ | ⟨v, odd⟩ := ih
      · exact .inl ⟨xs :: parts, .cons hu hparts⟩
      · exact .inr ⟨v, .later hu odd⟩

theorem concat_parts (h : HoldParts args parts) : concat args = .ok (.list parts.flatten) := by
  rw [concat, mapM_parts h]
  rfl

theorem concat_odd (h : FirstOdd v args) : concat args = .error (.wrongArgType "list or vector" v.kind) := by
  rw [concat, mapM_odd h]
  rfl

theorem concat_eq_error :
    concat args = .error e ↔ ∃ v, FirstOdd v args ∧ e = .wrongArgType "list or vector" v.kind := by
  constructor
  · intro h
    obtain ⟨parts, hparts⟩ | ⟨v, odd⟩ := parts_or_odd args
    · rw [concat_parts hparts] at h
      cases h
    · rw [concat_odd odd] at h
      cases h
      exact ⟨v, odd, rfl⟩
  · rintro ⟨v, odd, rfl⟩
    exact concat_odd odd

theorem concat_eq_ok : concat args = .ok v ↔ ∃ parts, HoldParts args parts ∧ v = .list parts.flatten := by
  constructor
  · intro h
    obtain ⟨parts, hparts⟩ | ⟨u, odd⟩ := parts_or_odd args
    · rw [concat_parts hparts] at h
      cases h
      exact ⟨parts, hparts, rfl⟩
    · rw [concat_odd odd] at h
      cases h
  · rintro ⟨parts, hparts, rfl⟩
    exact concat_parts hparts

/-- Joining sequences one step earlier makes no difference. -/
theorem concat_nested {within : List Value} (h : concat within = .ok v) (before after : List Value) :
    concat (before ++ v :: after) = concat (before ++ within ++ after) := by
  obtain ⟨parts, hparts, rfl⟩ := concat_eq_ok.mp h
  have hjoined : (Value.list parts.flatten).items? = some parts.flatten := rfl
  simp only [concat, List.mapM_append, List.mapM_cons, mapM_parts hparts,
    Value.requireItems_of_items hjoined]
  cases before.mapM Value.requireItems with
  | error e => rfl
  | ok parts₁ =>
    cases after.mapM Value.requireItems with
    | error e => rfl
    | ok parts₂ => simp [bind, Except.bind, pure, Except.pure]

end Sequence

end

section

variable {R : Value → Value → Prop} {cells : Cells} {s t : Value} {xs ys : List Value}

theorem forall₂_element? (h : List.Forall₂ R xs ys) (i : Int) :
    Sequence.element? xs i = none ∧ Sequence.element? ys i = none ∨
      ∃ v w, Sequence.element? xs i = some v ∧ Sequence.element? ys i = some w ∧ R v w := by
  by_cases hi : 0 ≤ i ∧ i < xs.length
  · have hlen := h.length_eq
    have hx : i.toNat < xs.length := by omega
    have hy : i.toNat < ys.length := by omega
    rw [Sequence.element?_inside hi.1, Sequence.element?_inside hi.1]
    exact .inr ⟨_, _, List.getElem?_eq_getElem hx, List.getElem?_eq_getElem hy, h.get hx hy⟩
  · have hi' : ¬ (0 ≤ i ∧ i < ys.length) := by rwa [← h.length_eq]
    exact .inl ⟨Sequence.element?_outside hi, Sequence.element?_outside hi'⟩

namespace Value

theorem Equal.forall₂_items (h : Equal cells s t) (hs : s.items? = some xs) (ht : t.items? = some ys) :
    List.Forall₂ (Equal cells) xs ys := by
  obtain ⟨steps, h⟩ := h
  cases steps with
  | zero => cases h
  | succ steps =>
    rw [equal?, equalWithin_items hs ht] at h
    exact (itemsEqual_eq_true h).imp fun x y hxy => ⟨steps, hxy⟩

theorem Equal.items?_isSome (h : Equal cells s t) : s.items?.isSome = t.items?.isSome := by
  obtain ⟨steps, h⟩ := h
  cases steps with
  | zero => cases h
  | succ steps => cases s <;> cases t <;> first | rfl | cases h

/-- Sequences that are equal are both nil, or both of them are lists or vectors. -/
theorem Equal.elements (h : Equal cells s t) (hs : s.elements? = some xs) (ht : t.elements? = some ys) :
    s = .nil ∧ t = .nil ∨
      s.items? = some xs ∧ t.items? = some ys ∧ List.Forall₂ (Equal cells) xs ys := by
  have hsome := h.items?_isSome
  obtain ⟨rfl, -⟩ | hs := elements?_cases hs <;> obtain ⟨rfl, -⟩ | ht := elements?_cases ht
  · exact .inl ⟨rfl, rfl⟩
  · rw [ht] at hsome
    cases hsome
  · rw [hs] at hsome
    cases hsome
  · exact .inr ⟨hs, ht, h.forall₂_items hs ht⟩

end Value

end

end Lisp
