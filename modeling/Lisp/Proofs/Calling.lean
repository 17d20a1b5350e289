import Lisp.Proofs.BigStep
import Lisp.Proofs.Termination

/-! What calls and maps depend on. All builtins but `eval` and `swap!` do the same with an
evaluator that evaluates nothing, and more patience changes no result. -/

namespace Lisp

open Value (Refines)

namespace Entries

variable {same same' : Value → Value → Option Bool}

theorem insert_refines (hs : Refines same same') {k v : Value} {es fs : Entries}
    (h : insert same k v es = some fs) : insert same' k v es = some fs := by
  induction es generalizing fs with
  | nil => exact h
  | cons e es ih =>
    obtain ⟨l, w⟩ := e
    simp only [insert, Option.bind_eq_bind, Option.bind_eq_some_iff] at h ⊢
    obtain ⟨answer, hanswer, h⟩ := h
    refine ⟨answer, hs _ _ _ hanswer, ?_⟩
    cases answer with
    | true => exact h
    | false =>
      simp only [Bool.false_eq_true, if_false, Option.bind_eq_some_iff] at h ⊢
      obtain ⟨rest, hrest, h⟩ := h
      exact ⟨rest, ih hrest, h⟩

theorem ofList_refines (hs : Refines same same') {pairs : List (Value × Value)} {es : Entries}
    (h : ofList same pairs = some es) : ofList same' pairs = some es := by
  unfold ofList at h ⊢
  generalize ([] : Entries) = done at h ⊢
  induction pairs generalizing done with
  | nil => exact h
  | cons pair pairs ih =>
    simp only [List.foldlM_cons, Option.bind_eq_bind, Option.bind_eq_some_iff] at h ⊢
    obtain ⟨next, hnext, h⟩ := h
    exact ⟨next, insert_refines hs hnext, ih next h⟩

end Entries

namespace Outcome

def ofOption {α : Type} (σ : Store) : Option α → Outcome α
  | some a => .value a σ
  | none => .halted .outOfSteps

theorem ofOption_andThen {α β : Type} (σ : Store) (x : Option α) (f : α → Action β)
    (g : α → Option β)
    (h : ∀ a, f a σ = ofOption σ (g a)) : (ofOption σ x).andThen f = ofOption σ (x >>= g) := by
  cases x with
  | none => rfl
  | some a => exact h a

theorem ofOption_eq_of {α : Type} {σ τ : Store} {x : Option α} {r : Except EvalError α} :
    ofOption σ x = of r τ ↔ ∃ a, x = some a ∧ r = .ok a ∧ τ = σ := by
  cases x <;> simp [ofOption]

end Outcome

namespace Evaluator

variable {ev : Evaluator} {σ τ : Store}

theorem same_apply (a b : Value) :
    ev.same a b σ = .ofOption σ (a.equal? σ.cells ev.patience b) := by
  unfold same
  cases a.equal? σ.cells ev.patience b <;> rfl

theorem insert_apply (k v : Value) (es : Entries) :
    Entries.insert ev.same k v es σ =
      .ofOption σ (Entries.insert (fun k l => k.equal? σ.cells ev.patience l) k v es) := by
  induction es with
  | nil => rfl
  | cons e es ih =>
    obtain ⟨l, w⟩ := e
    unfold Entries.insert
    rw [Action.bind_apply, same_apply]
    refine Outcome.ofOption_andThen _ _ _ _ fun answer => ?_
    cases answer with
    | true => rfl
    | false =>
      simp only [Bool.false_eq_true, if_false]
      rw [Action.bind_apply, ih]
      exact Outcome.ofOption_andThen _ _ _ _ fun _ => rfl

theorem ofList_apply (pairs : List (Value × Value)) :
    Entries.ofList ev.same pairs σ =
      .ofOption σ (Entries.ofList (fun k l => k.equal? σ.cells ev.patience l) pairs) := by
  unfold Entries.ofList
  generalize ([] : Entries) = done
  induction pairs generalizing done with
  | nil => rfl
  | cons pair pairs ih =>
    rw [List.foldlM_cons, Action.bind_apply, insert_apply]
    exact Outcome.ofOption_andThen _ _ _ _ ih

theorem mapOf_eq_of {pairs : List (Value × Value)} {r : Except EvalError Value} :
    ev.mapOf pairs σ = .of r τ ↔
      ∃ es, Entries.ofList (fun k l => k.equal? σ.cells ev.patience l) pairs = some es ∧
        r = .ok (.map es) ∧ τ = σ := by
  have hmap : ev.mapOf pairs σ = .ofOption σ
      ((Entries.ofList (fun k l => k.equal? σ.cells ev.patience l) pairs).map Value.map) := by
    unfold mapOf
    rw [Action.bind_apply, ofList_apply]
    cases Entries.ofList (fun k l => k.equal? σ.cells ev.patience l) pairs <;> rfl
  rw [hmap, Outcome.ofOption_eq_of]
  simp

theorem call_swap (args : List Value) : ev.call .swap args = Builtin.swapContent ev.apply args := by
  match args with
  | [] => rfl
  | [_] => rfl
  | _ :: f :: _ => cases f <;> rfl

theorem swapContent_apply (c : Cell) (f : Value) (extra : List Value) :
    Builtin.swapContent ev.apply (.atom c :: f :: extra) σ =
      (do
        let v ← ev.apply f (σ.cells.content c :: extra)
        c.set v
        pure v : Action Value) σ := by
  cases f <;> rfl

theorem swapContent_noAtom {a : Value} (noAtom : ∀ c, a ≠ .atom c) (f : Value)
    (extra : List Value) :
    Builtin.swapContent ev.apply (a :: f :: extra) σ =
      .failure (.wrongArgType "atom" a.kind) σ := by
  cases a <;> first | rfl | exact absurd rfl (noAtom _)

theorem call_idle {b : Builtin} (noEval : b ≠ .eval) (noSwap : b ≠ .swap) (args : List Value) :
    ev.call b args = (idle ev.files ev.patience).call b args := by
  cases b with
  | eval => exact absurd rfl noEval
  | swap => exact absurd rfl noSwap
  | _ => simp only [call, callWithin] <;> rfl

theorem equal?_refines (cells : Cells) {patience more : Nat} (hle : patience ≤ more) :
    Refines (fun k l => k.equal? cells patience l) (fun k l => k.equal? cells more l) :=
  Value.equalWithin_mono hle []

theorem call_idle_mono {b : Builtin} {args : List Value} {files : Files} {patience more : Nat}
    {r : Except EvalError Value} (noSwap : b ≠ .swap) (hle : patience ≤ more)
    (h : (idle files patience).call b args σ = .of r τ) :
    (idle files more).call b args σ = .of r τ := by
  cases b with
  | swap => exact absurd rfl noSwap
  | equal =>
    simp only [call, callWithin, Action.bind_eq_of, same_apply, Outcome.ofOption_eq_of] at h ⊢
    rcases h with h | ⟨pair, ρ, hpair, h⟩
    · exact .inl h
    · refine .inr ⟨pair, ρ, hpair, ?_⟩
      rcases h with ⟨e, -, answer, -, h, -⟩ | ⟨answer, ρ', ⟨answer', hsame, heq⟩, h⟩
      · cases h
      · exact .inr ⟨answer, ρ', ⟨answer', equal?_refines _ hle _ _ _ hsame, heq⟩, h⟩
  | _ => simpa only [call, callWithin, idle] using h

end Evaluator

theorem EntriesOf.eventually {cells : Cells} {pairs : List (Value × Value)} {es : Entries}
    (h : EntriesOf cells pairs es) :
    ∃ patience, ∀ more, patience ≤ more →
      Entries.ofList (fun k l => k.equal? cells more l) pairs = some es := by
  obtain ⟨patience, h⟩ := h
  exact ⟨patience, fun more hle => Entries.ofList_refines (Evaluator.equal?_refines cells hle) h⟩

end Lisp
