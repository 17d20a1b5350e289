import Lisp.Proofs.Sequences
import Lisp.Proofs.SourcedCalls

/-! The algebra of lists and vectors: the laws that the builtins on sequences obey together, as calls. -/

namespace Lisp

open Arithmetic (InRange)

/-- Both end with values that are equal, or both fail in the same way, and neither changes the store. -/
inductive Outcome.EqualIn (σ : Store) : Outcome Value → Outcome Value → Prop
  | value {v w : Value} (h : Value.Equal σ.cells v w) : EqualIn σ (.value v σ) (.value w σ)
  | failure (e : EvalError) : EqualIn σ (.failure e σ) (.failure e σ)

namespace Evaluator

/-- The call has this value and changes nothing. -/
def CallGives (ev : Evaluator) (σ : Store) (b : Builtin) (args : List Value) (v : Value) : Prop :=
  ev.call b args σ = .value v σ

/-- The call fails in this way and changes nothing. -/
def CallFails (ev : Evaluator) (σ : Store) (b : Builtin) (args : List Value) (e : EvalError) : Prop :=
  ev.call b args σ = .failure e σ

/-- Takes `rest` this many times. -/
def restTimes (ev : Evaluator) : Nat → Value → Action Value
  | 0, s => pure s
  | n + 1, s => ev.call .rest [s] >>= ev.restTimes n

section

variable {ev : Evaluator} {σ τ : Store} {b : Builtin} {op : List Value → Except EvalError Value}
  {args : List Value} {parts : List (List Value)} {s t v : Value} {xs ys : List Value} {e : EvalError}

theorem call_sequence (h : Sequence.ofBuiltin? b = some op) : ev.call b args σ = .of (op args) σ := by
  have hcall : ev.call b args = .ofExcept (op args) := by
    cases b <;> cases h <;> simp only [call, callWithin]
  rw [hcall]
  exact Action.ofExcept_eq_of.mpr ⟨rfl, rfl⟩

theorem call_eq_value (h : Sequence.ofBuiltin? b = some op) :
    ev.call b args σ = .value v τ ↔ op args = .ok v ∧ τ = σ := by
  rw [call_sequence h, eq_comm, Outcome.value_eq_of, eq_comm (a := σ)]

theorem call_eq_failure (h : Sequence.ofBuiltin? b = some op) :
    ev.call b args σ = .failure e τ ↔ op args = .error e ∧ τ = σ := by
  rw [call_sequence h, eq_comm, Outcome.failure_eq_of, eq_comm (a := σ)]

theorem callGives_iff (h : Sequence.ofBuiltin? b = some op) : ev.CallGives σ b args v ↔ op args = .ok v :=
  (call_eq_value h).trans (and_iff_left rfl)

theorem callFails_iff (h : Sequence.ofBuiltin? b = some op) : ev.CallFails σ b args e ↔ op args = .error e :=
  (call_eq_failure h).trans (and_iff_left rfl)

theorem restTimes_elements (ev : Evaluator) (σ : Store) (h : s.elements? = some xs) (n : Nat) :
    ∃ r, ev.restTimes n s σ = .value r σ ∧ r.elements? = some (xs.drop n) := by
  induction n generalizing s xs with
  | zero => exact ⟨s, rfl, h⟩
  | succ n ih =>
    -- One `rest` leaves a list, whatever `s` was, so the induction is over all sequences.
    obtain ⟨r, hr, hdrop⟩ := ih (s := .list xs.tail) rfl
    have hrest : ev.call .rest [s] σ = .value (.list xs.tail) σ :=
      (callGives_iff rfl).mpr (Sequence.rest_elements h)
    refine ⟨r, ?_, by rw [hdrop, List.drop_tail]⟩
    rw [restTimes, Action.bind_apply, hrest]
    exact hr

theorem first_restTimes (ev : Evaluator) (σ : Store) (h : s.elements? = some xs) (n : Nat) :
    (ev.restTimes n s >>= fun r => ev.call .first [r]) σ = .value (xs[n]?.getD .nil) σ := by
  obtain ⟨r, hr, hdrop⟩ := restTimes_elements ev σ h n
  have hfirst : ev.call .first [r] σ = .value ((xs.drop n).head?.getD .nil) σ :=
    (callGives_iff rfl).mpr (Sequence.first_elements hdrop)
  rw [Action.bind_apply, hr, ← List.head?_drop]
  exact hfirst

theorem callGives_count (h : s.elements? = some xs) : ev.CallGives σ .count [s] (.int (Sequence.size xs)) :=
  (callGives_iff rfl).mpr (Sequence.count_elements h)

theorem callGives_concat (h : HoldParts args parts) : ev.CallGives σ .concat args (.list parts.flatten) :=
  (callGives_iff rfl).mpr (Sequence.concat_parts h)

theorem callGives_nth_iff (h : s.items? = some xs) (i : Int64) :
    ev.CallGives σ .nth [s, .int i] v ↔ Sequence.element? xs i.toInt = some v :=
  (callGives_iff rfl).trans (Sequence.nth_eq_ok h i)

theorem counts_cons (h : s.items? = some xs) (x : Value) :
    ∃ m n : Int64, ev.CallGives σ .count [s] (.int m) ∧ ev.CallGives σ .count [.list (x :: xs)] (.int n) ∧
      (InRange (xs.length + 1) → n.toInt = m.toInt + 1) := by
  refine ⟨_, _, callGives_count (Value.elements?_of_items h), callGives_count rfl, fun hrange => ?_⟩
  have hxs : InRange xs.length := Sequence.inRange_of_le (Nat.le_succ _) hrange
  rw [Sequence.size_toInt hxs, Sequence.size_toInt (by simpa using hrange), List.length_cons, Int.natCast_succ]

theorem counts_concat (h : HoldParts args parts) :
    ∃ (ns : List Int64) (k : Int64), List.Forall₂ (fun v n => ev.CallGives σ .count [v] (.int n)) args ns ∧
      ev.CallGives σ .count [.list parts.flatten] (.int k) ∧
      (InRange parts.flatten.length → k.toInt = (ns.map Int64.toInt).sum) := by
  refine ⟨parts.map Sequence.size, _, ?_, callGives_count rfl, Sequence.sum_sizes⟩
  exact List.forall₂_map_right_iff.mpr (h.imp fun v xs hv => callGives_count (Value.elements?_of_items hv))

/-- An index into joined sequences is one into the first, or one into the second when it is moved down. -/
theorem callGives_nth_concat (hs : s.items? = some xs) (ht : t.items? = some ys) (i : Int64) :
    (i.toInt < xs.length →
      ∀ v, ev.CallGives σ .nth [.list (xs ++ ys), .int i] v ↔ ev.CallGives σ .nth [s, .int i] v) ∧
    (xs.length ≤ i.toInt → ∃ j : Int64, j.toInt = i.toInt - xs.length ∧
      ∀ v, ev.CallGives σ .nth [.list (xs ++ ys), .int i] v ↔ ev.CallGives σ .nth [t, .int j] v) := by
  refine ⟨fun hi v => ?_, fun hi => ?_⟩
  · rw [callGives_nth_iff rfl, callGives_nth_iff hs, Sequence.element?_append_left hi]
  · have hlt : i.toInt < 2 ^ 63 := (Arithmetic.inRange_toInt i).2
    have hj : (Int64.ofInt (i.toInt - xs.length)).toInt = i.toInt - xs.length :=
      Int64.toInt_ofInt_of_le (by omega) (by omega)
    refine ⟨_, hj, fun v => ?_⟩
    rw [callGives_nth_iff rfl, callGives_nth_iff ht, Sequence.element?_append_right hi, hj]

/-- Sequences that are equal are alike to all that counts them or looks an element up. -/
theorem alike_of_equal (hs : s.elements? = some xs) (ht : t.elements? = some ys)
    (h : Value.Equal σ.cells s t) :
    ev.call .count [s] σ = ev.call .count [t] σ ∧ ev.call .isEmpty [s] σ = ev.call .isEmpty [t] σ ∧
      ∀ i : Int64, Outcome.EqualIn σ (ev.call .nth [s, .int i] σ) (ev.call .nth [t, .int i] σ) := by
  obtain ⟨rfl, rfl⟩ | ⟨hs', ht', hitems⟩ := h.elements hs ht
  · exact ⟨rfl, rfl, fun i => .failure (.wrongArgType "list or vector" .nil)⟩
  · have hlen := hitems.length_eq
    have hempty : xs.isEmpty = ys.isEmpty := by cases hitems <;> rfl
    refine ⟨?_, ?_, fun i => ?_⟩
    · rw [call_sequence rfl, call_sequence rfl, Sequence.count_elements hs, Sequence.count_elements ht,
        Sequence.size, Sequence.size, hlen]
    · rw [call_sequence rfl, call_sequence rfl, Sequence.isEmpty_elements hs, Sequence.isEmpty_elements ht,
        hempty]
    · rw [call_sequence rfl, call_sequence rfl, Sequence.nth_eq hs', Sequence.nth_eq ht', hlen]
      obtain ⟨hx, hy⟩ | ⟨v, w, hx, hy, hvw⟩ := forall₂_element? hitems i.toInt
      · rw [hx, hy]
        exact .failure _
      · rw [hx, hy]
        exact .value hvw

end

end Evaluator

/-- How the builtins on sequences go together. What `count` gives is the number of elements, unless this is no
integer in range, and no list that fits into memory has so many. -/
structure SequenceLaws (ev : Evaluator) (σ : Store) : Prop where
  count {s : Value} {xs : List Value} : s.elements? = some xs →
    ∃ n : Int64, ev.CallGives σ .count [s] (.int n) ∧ (InRange xs.length → n.toInt = xs.length)
  isEmpty {s : Value} {xs : List Value} : s.elements? = some xs →
    ev.CallGives σ .isEmpty [s] (.bool xs.isEmpty)
  first {s : Value} {xs : List Value} : s.elements? = some xs →
    ev.CallGives σ .first [s] (xs.head?.getD .nil)
  rest {s : Value} {xs : List Value} : s.elements? = some xs → ev.CallGives σ .rest [s] (.list xs.tail)
  nth {s : Value} {xs : List Value} {i : Int64} : s.items? = some xs → 0 ≤ i.toInt → i.toInt < xs.length →
    ∃ v, ev.CallGives σ .nth [s, .int i] v ∧
      (ev.restTimes i.toInt.toNat s >>= fun r => ev.call .first [r]) σ = .value v σ
  nthOutside {s : Value} {xs : List Value} {i : Int64} : s.items? = some xs →
    ¬ (0 ≤ i.toInt ∧ i.toInt < xs.length) →
    ev.CallFails σ .nth [s, .int i] (.indexOutOfBounds i.toInt xs.length)
  cons {s : Value} {xs : List Value} (x : Value) : s.items? = some xs →
    ∃ l, ev.CallGives σ .cons [x, s] l ∧ ev.CallGives σ .first [l] x ∧
      ev.CallGives σ .rest [l] (.list xs) ∧
      ∃ m n : Int64, ev.CallGives σ .count [s] (.int m) ∧ ev.CallGives σ .count [l] (.int n) ∧
        (InRange (xs.length + 1) → n.toInt = m.toInt + 1)
  concat {args : List Value} {parts : List (List Value)} : HoldParts args parts →
    ∃ l, ev.CallGives σ .concat args l ∧ l.items? = some parts.flatten ∧
      ∃ (ns : List Int64) (k : Int64), List.Forall₂ (fun v n => ev.CallGives σ .count [v] (.int n)) args ns ∧
        ev.CallGives σ .count [l] (.int k) ∧
        (InRange parts.flatten.length → k.toInt = (ns.map Int64.toInt).sum)
  concatFails {args : List Value} {e : EvalError} {τ : Store} : ev.call .concat args σ = .failure e τ ↔
    (∃ v, FirstOdd v args ∧ e = .wrongArgType "list or vector" v.kind) ∧ τ = σ
  /-- An index that has no element here is refused as in any other list, with the number of all elements. -/
  nthConcat {s t l : Value} {xs ys : List Value} (i : Int64) : s.items? = some xs → t.items? = some ys →
    ev.CallGives σ .concat [s, t] l →
    (i.toInt < xs.length → ∀ v, ev.CallGives σ .nth [l, .int i] v ↔ ev.CallGives σ .nth [s, .int i] v) ∧
    (xs.length ≤ i.toInt → ∃ j : Int64, j.toInt = i.toInt - xs.length ∧
      ∀ v, ev.CallGives σ .nth [l, .int i] v ↔ ev.CallGives σ .nth [t, .int j] v)
  /-- Arguments that were joined before make no difference, at any place and however many there are. -/
  concatNested {within : List Value} {l : Value} (before after : List Value) : ev.CallGives σ .concat within l →
    ev.call .concat (before ++ l :: after) σ = ev.call .concat (before ++ within ++ after) σ
  concatAssoc {s t u : Value} {xs ys zs : List Value} : s.items? = some xs → t.items? = some ys →
    u.items? = some zs → ∃ l m r, ev.CallGives σ .concat [s, t] l ∧ ev.CallGives σ .concat [t, u] m ∧
      ev.CallGives σ .concat [l, u] r ∧ ev.CallGives σ .concat [s, m] r
  makesList {b : Builtin} {args : List Value} {v : Value} {τ : Store} : b ∈ [.rest, .cons, .concat] →
    ev.call b args σ = .value v τ → ∃ xs, v = .list xs
  vec {args : List Value} {v : Value} {τ : Store} : ev.call .vec args σ = .value v τ ↔
    (∃ s xs, args = [s] ∧ s.items? = some xs ∧ v = .vector xs) ∧ τ = σ
  equal {s t : Value} {xs ys : List Value} : s.elements? = some xs → t.elements? = some ys →
    Value.Equal σ.cells s t →
    ev.call .count [s] σ = ev.call .count [t] σ ∧ ev.call .isEmpty [s] σ = ev.call .isEmpty [t] σ ∧
      ∀ i : Int64, Outcome.EqualIn σ (ev.call .nth [s, .int i] σ) (ev.call .nth [t, .int i] σ)

/-- The builtins on sequences obey the laws of lists, in every store. -/
theorem sequences_algebra (ev : Evaluator) (σ : Store) : SequenceLaws ev σ where
  count h := ⟨_, Evaluator.callGives_count h, Sequence.size_toInt⟩
  isEmpty h := (Evaluator.callGives_iff rfl).mpr (Sequence.isEmpty_elements h)
  first h := (Evaluator.callGives_iff rfl).mpr (Sequence.first_elements h)
  rest h := (Evaluator.callGives_iff rfl).mpr (Sequence.rest_elements h)
  nth {s xs i} h hi hlt := by
    obtain ⟨v, hget, hnth⟩ := Sequence.nth_inside h hi hlt
    have hfirst := Evaluator.first_restTimes ev σ (Value.elements?_of_items h) i.toInt.toNat
    rw [hget] at hfirst
    exact ⟨v, (Evaluator.callGives_iff rfl).mpr hnth, hfirst⟩
  nthOutside h hi := (Evaluator.callFails_iff rfl).mpr (Sequence.nth_outside h hi)
  cons {s xs} x h := by
    have hl : (Value.list (x :: xs)).elements? = some (x :: xs) := rfl
    exact ⟨_, (Evaluator.callGives_iff rfl).mpr (Sequence.cons_items h x),
      (Evaluator.callGives_iff rfl).mpr (Sequence.first_elements hl),
      (Evaluator.callGives_iff rfl).mpr (Sequence.rest_elements hl), Evaluator.counts_cons h x⟩
  concat h := ⟨_, Evaluator.callGives_concat h, rfl, Evaluator.counts_concat h⟩
  concatFails {args e τ} := by rw [Evaluator.call_eq_failure rfl, Sequence.concat_eq_error]
  nthConcat {s t l xs ys} i hs ht hl := by
    have hparts : HoldParts [s, t] [xs, ys] := .cons hs (.cons ht .nil)
    cases (Evaluator.callGives_concat hparts).symm.trans hl
    simpa using Evaluator.callGives_nth_concat hs ht i
  concatNested before after h := by
    rw [Evaluator.call_sequence rfl, Evaluator.call_sequence rfl,
      Sequence.concat_nested ((Evaluator.callGives_iff rfl).mp h)]
  concatAssoc {s t u xs ys zs} hs ht hu := by
    have hst : HoldParts [s, t] [xs, ys] := .cons hs (.cons ht .nil)
    have htu : HoldParts [t, u] [ys, zs] := .cons ht (.cons hu .nil)
    have hleft : HoldParts [Value.list [xs, ys].flatten, u] [[xs, ys].flatten, zs] := .cons rfl (.cons hu .nil)
    have hright : HoldParts [s, Value.list [ys, zs].flatten] [xs, [ys, zs].flatten] := .cons hs (.cons rfl .nil)
    have hsame : [xs, [ys, zs].flatten].flatten = [[xs, ys].flatten, zs].flatten := by simp
    refine ⟨_, _, _, Evaluator.callGives_concat hst, Evaluator.callGives_concat htu,
      Evaluator.callGives_concat hleft, ?_⟩
    rw [← hsame]
    exact Evaluator.callGives_concat hright
  makesList {b args v τ} hb h := by
    have hlist (x : List Value) : Ensures (fun v => ∃ xs, v = Value.list xs) (.ok (.list x)) := .ok ⟨x, rfl⟩
    simp only [List.mem_cons, List.not_mem_nil, or_false] at hb
    rcases hb with rfl | rfl | rfl <;> obtain ⟨h, -⟩ := (Evaluator.call_eq_value rfl).mp h
    · exact Ensures.after (fun _ => .after fun _ => hlist _) v h
    · exact Ensures.after (fun _ => .after fun _ => hlist _) v h
    · exact Ensures.after (fun _ => hlist _) v h
  vec {args v τ} := by rw [Evaluator.call_eq_value rfl, Sequence.vec_eq_ok]
  equal := Evaluator.alike_of_equal

/-- A vector and an equal list, which hold two atoms with the same content. -/
theorem sequences_algebra_atoms :
    let ev := Host.evaluator ⟨.empty, 1, 1⟩
    let σ : Store := ⟨#[], #[.int 7, .int 7], 0, .silent⟩
    let s : Value := .vector [.nil, .atom ⟨0⟩]
    let t : Value := .list [.nil, .atom ⟨1⟩]
    SequenceLaws ev σ ∧
      (s.items? = some [.nil, .atom ⟨0⟩] ∧ ev.CallGives σ .nth [s, .int 1] (.atom ⟨0⟩) ∧
        (ev.restTimes 1 s >>= fun r => ev.call .first [r]) σ = .value (.atom ⟨0⟩) σ) ∧
      ev.CallFails σ .nth [s, .int (-1)] (.indexOutOfBounds (-1) 2) ∧
      (FirstOdd .nil [s, .nil, .int 1] ∧
        ev.CallFails σ .concat [s, .nil, .int 1] (.wrongArgType "list or vector" .nil)) ∧
      Value.Equal σ.cells s t ∧
      Outcome.EqualIn σ (ev.call .nth [s, .int 1] σ) (ev.call .nth [t, .int 1] σ) := by
  intro ev σ s t
  have laws := sequences_algebra ev σ
  have hnth : ev.CallGives σ .nth [s, .int 1] (.atom ⟨0⟩) := rfl
  obtain ⟨v, hv, hfirst⟩ := laws.nth (s := s) (i := 1) rfl (by decide) (by decide)
  cases hnth.symm.trans hv
  have houtside := laws.nthOutside (s := s) (i := -1) rfl (by decide)
  have odd : FirstOdd .nil [s, .nil, .int 1] := .later rfl (.here rfl _)
  have hodd := laws.concatFails.mpr ⟨⟨_, odd, rfl⟩, rfl⟩
  have hequal : Value.Equal σ.cells s t := ⟨3, rfl⟩
  obtain ⟨-, -, halike⟩ := laws.equal (s := s) (t := t) rfl rfl hequal
  exact ⟨laws, ⟨rfl, hnth, hfirst⟩, houtside, ⟨odd, hodd⟩, hequal, halike 1⟩

end Lisp
