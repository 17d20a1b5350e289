import Lisp.Proofs.Rules

/-! Every evaluation that comes to an end is derived. This holds of each rule by itself, for any
evaluator whose evaluations are derived. -/

namespace Lisp

/-- What a step of evaluation ended with, or goes on to, has this result and leaves this store. -/
def Outcome.Leads (files : Files) (r : Except EvalError Value) (τ : Store) : Outcome Step → Prop
  | .value (.done v) ρ => r = .ok v ∧ τ = ρ
  | .value (.next form env) ρ => Evaluates files form env ρ r τ
  | .failure e ρ => r = .error e ∧ τ = ρ
  | .halted _ => False

namespace Action

variable {α : Type} {files : Files} {r : Except EvalError Value} {σ τ : Store}

theorem leads_bind {x : Action α} {f : α → Action Step} :
    ((x >>= f) σ).Leads files r τ ↔
      (∃ e, r = .error e ∧ x σ = .of (.error e) τ) ∨
        ∃ a ρ, x σ = .of (.ok a) ρ ∧ (f a ρ).Leads files r τ := by
  rw [bind_apply]
  cases hx : x σ with
  | value a ρ => simp [Outcome.andThen]
  | failure e ρ => simp [Outcome.andThen, Outcome.Leads, eq_comm]
  | halted why => simp [Outcome.andThen, Outcome.Leads]

theorem leads_done {x : Action Value} :
    ((x >>= fun v => pure (.done v)) σ).Leads files r τ ↔ x σ = .of r τ := by
  rw [bind_apply]
  cases x σ <;> simp [Outcome.andThen, Outcome.Leads, pure_apply]

end Action

namespace Evaluator

structure Sound (files : Files) (ev : Evaluator) : Prop where
  files_eq : ev.files = files
  eval {form : Value} {env : Env} {σ : Store} {r : Except EvalError Value} {τ : Store} :
    ev.eval form env σ = .of r τ → Evaluates files form env σ r τ

namespace Sound

variable {files : Files} {ev : Evaluator} {env : Env} {σ τ : Store}

theorem evalAll (hev : ev.Sound files) {forms : List Value} {r : Except EvalError (List Value)}
    (h : ev.evalAll forms env σ = .of r τ) : EvaluatesAll files forms env σ r τ := by
  induction forms generalizing σ r with
  | nil =>
    obtain ⟨rfl, rfl⟩ := Action.pure_eq_of.mp h
    exact .nil
  | cons form forms ih =>
    rw [evalAll_cons] at h
    obtain ⟨e, rfl, he⟩ | ⟨v, ρ, hv, h⟩ := Action.bind_eq_of.mp h
    · have hfails := hev.eval he
      exact .fails hfails
    · have hhead := hev.eval hv
      obtain ⟨r, hr, rfl⟩ := Action.map_eq_of.mp h
      have htail := ih hr
      exact .cons hhead htail

theorem bindAll (hev : ev.Sound files) {r : Except EvalError Unit} :
    {items : List Value} → {σ : Store} → items.length % 2 = 0 → ev.bindAll env items σ = .of r τ →
      BindsAll files env items σ r τ
  | [], σ, _, h => by
    obtain ⟨rfl, rfl⟩ := Action.pure_eq_of.mp h
    exact .nil
  | [_], _, even, _ => by simp at even
  | name :: form :: items, σ, even, h => by
    unfold Evaluator.bindAll at h
    cases hname : name.symbolName? with
    | none =>
      rw [SpecialForm.boundName_of_none hname] at h
      obtain ⟨rfl, rfl⟩ := Action.fail_eq_of.mp h
      exact .noName hname
    | some s =>
      obtain rfl := Value.symbolName?_eq_some.mp hname
      change (ev.eval form env >>= _) σ = _ at h
      obtain ⟨e, rfl, he⟩ | ⟨v, ρ, hv, h⟩ := Action.bind_eq_of.mp h
      · have hfails := hev.eval he
        exact .fails hfails
      · have heven : items.length % 2 = 0 := by
          simp only [List.length_cons] at even
          omega
        have hhead := hev.eval hv
        have htail := hev.bindAll heven h
        exact .cons hhead htail

theorem splice (hev : ev.Sound files) {form : Value} {spliced : List Value}
    (h : ev.splice env form σ = .of (.ok spliced) τ) :
    ∃ v, Evaluates files form env σ (.ok v) τ ∧ v.items? = some spliced := by
  obtain ⟨e, hs, -⟩ | ⟨v, hv, ⟨items, hitems, hs⟩ | ⟨-, hs⟩⟩ := splice_eq_of.mp h
  · cases hs
  · cases hs
    exact ⟨v, hev.eval hv, hitems⟩
  · cases hs

theorem splice_fails (hev : ev.Sound files) {form : Value} {e : EvalError}
    (h : ev.splice env form σ = .of (.error e) τ) :
    (∃ v, Evaluates files form env σ (.ok v) τ ∧ v.items? = none ∧
        e = .invalidForm "splice-unquote" s!"expected a list or vector, got {v.kind.name}") ∨
      Evaluates files form env σ (.error e) τ := by
  obtain ⟨e', hs, he⟩ | ⟨v, hv, ⟨items, -, hs⟩ | ⟨hitems, hs⟩⟩ := splice_eq_of.mp h
  · cases hs
    exact .inr (hev.eval he)
  · cases hs
  · cases hs
    exact .inl ⟨v, hev.eval hv, hitems, rfl⟩

mutual

theorem fill (hev : ev.Sound files) (template : Value) {σ : Store}
    {r : Except EvalError Value} {τ : Store}
    (h : ev.fill env template σ = .of r τ) : Fills files template env σ r τ := by
  unfold Evaluator.fill at h
  cases hbody : Marker.unquote.body? template with
  | some form =>
    rw [hbody] at h
    have hevaluated := hev.eval h
    rw [Marker.body?_eq_some.mp hbody]
    exact .unquote hevaluated
  | none =>
    rw [hbody] at h
    cases template with
    | list items =>
      have plain := Marker.body?_eq_none.mp hbody
      obtain ⟨r, hr, rfl⟩ := Action.map_eq_of.mp h
      have hall := hev.fillItems items hr
      exact .list plain hall
    | vector items =>
      obtain ⟨r, hr, rfl⟩ := Action.map_eq_of.mp h
      have hall := hev.fillItems items hr
      exact .vector hall
    | _ =>
      obtain ⟨rfl, rfl⟩ := Action.pure_eq_of.mp h
      exact .quoted rfl

theorem fillItems (hev : ev.Sound files) (items : List Value) {σ : Store}
    {r : Except EvalError (List Value)} {τ : Store} (h : ev.fillItems env [] items σ = .of r τ) :
    FillsAll files items env σ r τ := by
  match items with
  | [] =>
    obtain ⟨rfl, rfl⟩ := Action.pure_eq_of.mp h
    exact .nil
  | item :: items =>
    by_cases plain : ∀ form, item ≠ Marker.spliceUnquote.wrap form
    · rw [fillItems_cons plain] at h
      obtain ⟨e, rfl, he⟩ | ⟨v, ρ, hv, h⟩ := Action.bind_eq_of.mp h
      · have hfails := hev.fill item he
        exact .fails plain hfails
      · have hhead := hev.fill item hv
        obtain ⟨r, hr, rfl⟩ := Action.map_eq_of.mp h
        have htail := hev.fillItems items hr
        exact .cons plain hhead htail
    · obtain ⟨form, hform⟩ := not_forall.mp plain
      obtain rfl := not_not.mp hform
      rw [fillItems_splice] at h
      obtain ⟨e, rfl, he⟩ | ⟨spliced, ρ, hs, h⟩ := Action.bind_eq_of.mp h
      · obtain ⟨v, hv, hitems, rfl⟩ | he := hev.splice_fails he
        · exact .noSplice hv hitems
        · exact .spliceFails he
      · obtain ⟨v, hv, hitems⟩ := hev.splice hs
        obtain ⟨r, hr, rfl⟩ := Action.map_eq_of.mp h
        have htail := hev.fillItems items hr
        exact .splice hv hitems htail

end

theorem applyClosure (hev : ev.Sound files) {c : Closure Value} {args : List Value}
    {r : Except EvalError Value} (h : ev.applyClosure c args σ = .of r τ) :
    Applies files (.closure c) args σ r τ := by
  unfold Evaluator.applyClosure Env.enter at h
  cases hframe : c.params.frame c.env args with
  | error e =>
    rw [hframe] at h
    obtain ⟨rfl, rfl⟩ := Action.fail_eq_of.mp h
    exact .closureFails hframe
  | ok frame =>
    rw [hframe] at h
    have hbody := hev.eval h
    exact .closure hframe rfl hbody

theorem expandUpTo (hev : ev.Sound files) {n : Nat} {form : Value} {r : Except EvalError Value}
    (h : ev.expandUpTo env n form σ = .of r τ) : Expands files form env σ r τ := by
  induction n generalizing form σ with
  | zero => exact absurd h Action.halt_ne_of
  | succ n ih =>
    cases hcall : σ.macroCall? env form with
    | none =>
      rw [expandUpTo_none hcall n.succ_pos] at h
      obtain ⟨rfl, rfl⟩ := Outcome.value_eq_of.mp h
      exact .done hcall
    | some call =>
      obtain ⟨c, operands⟩ := call
      rw [expandUpTo_some hcall n.succ_pos] at h
      obtain ⟨e, rfl, he⟩ | ⟨expansion, ρ, hx, h⟩ := Action.bind_eq_of.mp h
      · have hfails := hev.applyClosure he
        exact .fails hcall hfails
      · have hexpansion := hev.applyClosure hx
        have hrest := ih h
        exact .step hcall hexpansion hrest

theorem callEval (hev : ev.Sound files) {args : List Value} {r : Except EvalError Value}
    (h : ev.call .eval args σ = .of r τ) : Applies files (.function .eval) args σ r τ := by
  match args with
  | [form] => exact .eval (hev.eval h)
  | [] | _ :: _ :: _ =>
    obtain ⟨rfl, rfl⟩ := Action.fail_eq_of.mp h
    exact .evalArity (by simp)

theorem callSwap {args : List Value} {r : Except EvalError Value}
    (happly : ∀ {f content : Value} {rest : List Value} {r : Except EvalError Value} {τ : Store},
      rest.length + 2 = args.length → ev.apply f (content :: rest) σ = .of r τ →
        Applies files f (content :: rest) σ r τ)
    (h : ev.call .swap args σ = .of r τ) : Applies files (.function .swap) args σ r τ := by
  rw [call_swap] at h
  match args with
  | [] | [_] =>
    obtain ⟨rfl, rfl⟩ := Action.fail_eq_of.mp h
    exact .swapArity (by simp)
  | a :: f :: extra =>
    by_cases noAtom : ∀ c, a ≠ .atom c
    · rw [swapContent_noAtom noAtom] at h
      obtain ⟨rfl, rfl⟩ := Outcome.failure_eq_of.mp h
      exact .swapNoAtom noAtom
    · obtain ⟨c, hc⟩ := not_forall.mp noAtom
      obtain rfl := not_not.mp hc
      rw [swapContent_apply] at h
      obtain ⟨e, rfl, he⟩ | ⟨v, ρ, hv, h⟩ := Action.bind_eq_of.mp h
      · have hfails := happly rfl he
        exact .swapFails hfails
      · have happlied := happly rfl hv
        obtain ⟨rfl, rfl⟩ := Outcome.value_eq_of.mp h
        exact .swap happlied

/-- Builtins apply functions to fewer arguments than they are given. -/
theorem apply (hev : ev.Sound files) {f : Value} {args : List Value} {r : Except EvalError Value}
    (h : ev.apply f args σ = .of r τ) : Applies files f args σ r τ := by
  induction hn : args.length using Nat.strong_induction_on generalizing f args r τ with
  | _ n ih =>
    cases f with
    | closure c => exact hev.applyClosure h
    | function b =>
      by_cases noEval : b = .eval
      · subst noEval
        exact hev.callEval h
      · by_cases noSwap : b = .swap
        · subst noSwap
          refine callSwap (fun {f content rest _ _} hlen hrest => ?_) h
          have hlt : (content :: rest).length < n := by
            simp only [List.length_cons]
            omega
          exact ih _ hlt hrest rfl
        · have hidle : ev.call b args σ = .of r τ := h
          rw [call_idle noEval noSwap, hev.files_eq] at hidle
          exact .builtin noEval noSwap hidle
    | _ =>
      obtain ⟨rfl, rfl⟩ := Action.fail_eq_of.mp h
      exact .noFunction nofun nofun

end Sound

end Evaluator

end Lisp
