import Lisp.Value.Entries
import Mathlib.Data.List.Induction

/-! The entries of a map. No two keys of a map are the same, and entries with this property stay as they
are when a map is made of them, if the test that compares keys answers at all. -/

namespace Lisp

namespace Entries

variable (same : Value → Value → Bool)

/-- Inserts an entry, where `same` tells at once whether two keys are the same. -/
def put (k v : Value) : Entries → Entries
  | [] => [(k, v)]
  | (l, w) :: es => if same l k then (l, v) :: es else (l, w) :: put k v es

theorem insert_pure {m : Type → Type} [Monad m] [LawfulMonad m] (k v : Value) (es : Entries) :
    insert (m := m) (fun l k => pure (same l k)) k v es = pure (put same k v es) := by
  induction es with
  | nil => rfl
  | cons e es ih =>
    obtain ⟨l, w⟩ := e
    by_cases h : same l k = true <;> simp [insert, put, h, ih]

theorem ofList_pure {m : Type → Type} [Monad m] [LawfulMonad m] (pairs : List (Value × Value)) :
    ofList (m := m) (fun l k => pure (same l k)) pairs =
      pure (pairs.foldl (fun es pair => put same pair.1 pair.2 es) []) := by
  simp only [ofList, insert_pure, List.foldlM_pure]

def Distinct (es : Entries) : Prop :=
  es.Pairwise fun e f => same e.1 f.1 = false

variable {same}

theorem distinct_iff_keys {es : Entries} :
    Distinct same es ↔ (es.map Prod.fst).Pairwise fun k l => same k l = false := by
  rw [Distinct, List.pairwise_map]

section

variable {same same' : Value → Value → Option Bool} {pairs es fs : Entries} {k v : Value}

/-- A pair that is inserted changes the value of the first key that is the same, or comes last. -/
theorem insert_cases (h : insert same k v es = some fs) :
    (∃ before l w after, es = before ++ (l, w) :: after ∧ same l k = some true ∧
      fs = before ++ (l, v) :: after) ∨
    (∀ e ∈ es, same e.1 k = some false) ∧ fs = es ++ [(k, v)] := by
  induction es generalizing fs with
  | nil => exact .inr ⟨by simp, (Option.some.inj h).symm⟩
  | cons e es ih =>
    obtain ⟨l, w⟩ := e
    simp only [insert, Option.bind_eq_bind, Option.bind_eq_some_iff] at h
    obtain ⟨answer, hanswer, h⟩ := h
    cases answer with
    | true => exact .inl ⟨[], l, w, es, rfl, hanswer, (Option.some.inj h).symm⟩
    | false =>
      simp only [Bool.false_eq_true, if_false, Option.bind_eq_some_iff] at h
      obtain ⟨rest, hrest, h⟩ := h
      obtain rfl := Option.some.inj h
      rcases ih hrest with ⟨before, l', w', after, rfl, hsame, rfl⟩ | ⟨hnew, rfl⟩
      · exact .inl ⟨(l, w) :: before, l', w', after, rfl, hsame, rfl⟩
      · exact .inr ⟨List.forall_mem_cons.mpr ⟨hanswer, hnew⟩, rfl⟩

theorem insert_of_new (hnew : ∀ e ∈ es, same e.1 k ≠ some true) (h : insert same k v es = some fs) :
    fs = es ++ [(k, v)] := by
  rcases insert_cases h with ⟨before, l, w, after, rfl, hl, -⟩ | ⟨-, rfl⟩
  · exact absurd hl (hnew (l, w) (by simp))
  · rfl

theorem ofList_concat (pairs : List (Value × Value)) (p : Value × Value) :
    ofList same (pairs ++ [p]) = (ofList same pairs).bind (insert same p.1 p.2) := by
  simp [ofList, List.foldlM_append]

/-- What holds of no pairs, and is kept when a pair is inserted, holds of the entries made of pairs. -/
theorem ofList_induction {motive : List (Value × Value) → Entries → Prop} (nil : motive [] [])
    (concat : ∀ {pairs es fs} (p : Value × Value), motive pairs es →
      insert same p.1 p.2 es = some fs → motive (pairs ++ [p]) fs)
    (h : ofList same pairs = some es) : motive pairs es := by
  induction pairs using List.reverseRecOn generalizing es with
  | nil =>
    obtain rfl := Option.some.inj h
    exact nil
  | append_singleton pairs p ih =>
    rw [ofList_concat, Option.bind_eq_some_iff] at h
    obtain ⟨done, hdone, h⟩ := h
    exact concat p (ih hdone) h

theorem ofList_parts (h : ofList same pairs = some es) :
    ∀ e ∈ es, (∃ p ∈ pairs, p.1 = e.1) ∧ ∃ p ∈ pairs, p.2 = e.2 := by
  refine ofList_induction
    (motive := fun pairs es => ∀ e ∈ es, (∃ p ∈ pairs, p.1 = e.1) ∧ ∃ p ∈ pairs, p.2 = e.2)
    (by simp) ?_ h
  intro pairs es fs p ih hinsert e he
  have hold (e) (he : e ∈ es) :
      (∃ q ∈ pairs ++ [p], q.1 = e.1) ∧ ∃ q ∈ pairs ++ [p], q.2 = e.2 := by
    obtain ⟨⟨q, hq, hkey⟩, q', hq', hvalue⟩ := ih e he
    exact ⟨⟨q, List.mem_append_left _ hq, hkey⟩, q', List.mem_append_left _ hq', hvalue⟩
  have hp : p ∈ pairs ++ [p] := by simp
  rcases insert_cases hinsert with ⟨before, l, w, after, rfl, -, rfl⟩ | ⟨-, rfl⟩
  · rcases List.mem_append.mp he with he | he
    · exact hold e (by simp [he])
    · rcases List.mem_cons.mp he with rfl | he
      · exact ⟨(hold (l, w) (by simp)).1, p, hp, rfl⟩
      · exact hold e (by simp [he])
  · rcases List.mem_append.mp he with he | he
    · exact hold e he
    · rw [List.mem_singleton.mp he]
      exact ⟨⟨p, hp, rfl⟩, p, hp, rfl⟩

theorem ofList_distinct (h : ofList same pairs = some es) :
    (es.map Prod.fst).Pairwise fun k l => same k l = some false := by
  refine ofList_induction
    (motive := fun _ es => (es.map Prod.fst).Pairwise fun k l => same k l = some false)
    List.Pairwise.nil ?_ h
  intro pairs es fs p ih hinsert
  rcases insert_cases hinsert with ⟨before, l, w, after, rfl, -, rfl⟩ | ⟨hnew, rfl⟩
  · simpa using ih
  · rw [List.map_append, List.pairwise_append]
    refine ⟨ih, List.pairwise_singleton _ _, fun k hk l hl => ?_⟩
    obtain ⟨e, he, rfl⟩ := List.mem_map.mp hk
    rw [List.mem_singleton.mp hl]
    exact hnew e he

/-- Pairs whose keys are not equal are the entries of the map that is made of them. -/
theorem ofList_of_distinct (hdistinct : pairs.Pairwise fun e f => same e.1 f.1 ≠ some true)
    (h : ofList same pairs = some fs) : fs = pairs := by
  refine ofList_induction
    (motive := fun pairs fs => (pairs.Pairwise fun e f => same e.1 f.1 ≠ some true) → fs = pairs)
    (fun _ => rfl) ?_ h hdistinct
  intro pairs es fs p ih hinsert hdistinct
  obtain ⟨hpairs, -, hnew⟩ := List.pairwise_append.mp hdistinct
  obtain rfl := ih hpairs
  exact insert_of_new (fun e he => hnew e he p List.mem_cons_self) hinsert

theorem insert_congr (h : ∀ e ∈ es, same e.1 k = same' e.1 k) :
    insert same k v es = insert same' k v es := by
  induction es with
  | nil => rfl
  | cons e es ih =>
    obtain ⟨hl, hes⟩ := List.forall_mem_cons.mp h
    rw [insert, insert, hl, ih hes]

theorem ofList_congr (h : ∀ p ∈ pairs, ∀ q ∈ pairs, same p.1 q.1 = same' p.1 q.1) :
    ofList same pairs = ofList same' pairs := by
  induction pairs using List.reverseRecOn with
  | nil => rfl
  | append_singleton pairs p ih =>
    have hpairs : ofList same pairs = ofList same' pairs :=
      ih fun q hq r hr => h q (List.mem_append_left _ hq) r (List.mem_append_left _ hr)
    rw [ofList_concat, ofList_concat, ← hpairs]
    refine Option.bind_congr fun es hes => insert_congr fun e he => ?_
    obtain ⟨⟨q, hq, hkey⟩, -⟩ := ofList_parts hes e he
    rw [← hkey]
    exact h q (List.mem_append_left _ hq) p (by simp)

end

end Entries

namespace Value

theorem mapOfLiterals_eq (pairs : List (Value × Value)) :
    mapOfLiterals pairs =
      .map (pairs.foldl (fun es pair => Entries.put literalEqual pair.1 pair.2 es) []) := by
  rw [mapOfLiterals, Entries.ofList_pure]
  rfl

/-- A map of literals holds distinct keys, and its parts are parts of the entries it was made of. -/
theorem mapOfLiterals_spec {P Q : Value → Prop} {pairs : List (Value × Value)}
    (h : ∀ p ∈ pairs, P p.1 ∧ Q p.2) :
    ∃ es, mapOfLiterals pairs = .map es ∧ Entries.Distinct literalEqual es ∧
      ∀ e ∈ es, P e.1 ∧ Q e.2 := by
  have hmade := Entries.ofList_pure (m := Option) literalEqual pairs
  refine ⟨_, mapOfLiterals_eq pairs, ?_, fun e he => ?_⟩
  · exact Entries.distinct_iff_keys.mpr ((Entries.ofList_distinct hmade).imp Option.some.inj)
  · obtain ⟨⟨p, hp, hkey⟩, q, hq, hvalue⟩ := Entries.ofList_parts hmade e he
    rw [← hkey, ← hvalue]
    exact ⟨(h p hp).1, (h q hq).2⟩

theorem mapOfLiterals_of_distinct {es : Entries} (h : Entries.Distinct literalEqual es) :
    mapOfLiterals es = .map es := by
  have hnot : es.Pairwise fun e f => some (literalEqual e.1 f.1) ≠ some true :=
    h.imp fun hne => by simp [hne]
  rw [mapOfLiterals_eq, Entries.ofList_of_distinct hnot (Entries.ofList_pure literalEqual es)]

end Value

end Lisp
