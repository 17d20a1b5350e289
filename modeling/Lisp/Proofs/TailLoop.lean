import Lisp.Proofs.ArithmeticFold
import Lisp.Proofs.Nesting
import Mathlib.Tactic.Ring

/-! A loop of tail calls: a function that adds up the numbers below its argument and calls itself as the
last thing it does. However often it does so, no more than three evaluations are active at a time. -/

namespace Lisp

open SpecialForm (form)

/-- The call that the function ends with, unless `n` is zero. -/
def sumAgain : Value :=
  .list [.symbol "sum", .list [.symbol "-", .symbol "n", .int 1],
    .list [.symbol "+", .symbol "acc", .symbol "n"]]

def sumBody : Value :=
  form .conditional [.list [.symbol "=", .symbol "n", .int 0], .symbol "acc", sumAgain]

def sumForm : Value :=
  form .define [.symbol "sum", form .lambda [.list [.symbol "n", .symbol "acc"], sumBody]]

def sumSource : String :=
  "(def! sum (fn* (n acc) (if (= n 0) acc (sum (- n 1) (+ acc n)))))"

theorem read_sumSource : read sumSource = .ok sumForm := by
  have hsource : tokenize sumSource = [
      ⟨.opening .round, "("⟩, ⟨.word, "def!"⟩, ⟨.word, "sum"⟩, ⟨.opening .round, "("⟩, ⟨.word, "fn*"⟩,
      ⟨.opening .round, "("⟩, ⟨.word, "n"⟩, ⟨.word, "acc"⟩, ⟨.closing .round, ")"⟩,
      ⟨.opening .round, "("⟩, ⟨.word, "if"⟩, ⟨.opening .round, "("⟩, ⟨.word, "="⟩, ⟨.word, "n"⟩,
      ⟨.word, "0"⟩, ⟨.closing .round, ")"⟩, ⟨.word, "acc"⟩, ⟨.opening .round, "("⟩, ⟨.word, "sum"⟩,
      ⟨.opening .round, "("⟩, ⟨.word, "-"⟩, ⟨.word, "n"⟩, ⟨.word, "1"⟩, ⟨.closing .round, ")"⟩,
      ⟨.opening .round, "("⟩, ⟨.word, "+"⟩, ⟨.word, "acc"⟩, ⟨.word, "n"⟩, ⟨.closing .round, ")"⟩,
      ⟨.closing .round, ")"⟩, ⟨.closing .round, ")"⟩, ⟨.closing .round, ")"⟩,
      ⟨.closing .round, ")"⟩] := by
    decide +kernel
  rw [read, hsource]
  rfl

def sumClosure (id : Nat) (env : Env) : Closure Value :=
  ⟨id, ⟨["n", "acc"], none⟩, sumBody, env, false⟩

/-- An environment in which the builtins are not shadowed that the function calls. -/
structure Store.CanSum (σ : Store) (env : Env) : Prop where
  older : σ.ParentsOlder
  known : (σ.frame? env).isSome
  equal : σ.find? env "=" = some (.function .equal)
  subtract : σ.find? env "-" = some (.function .subtract)
  add : σ.find? env "+" = some (.function .add)

/-- An environment in which the function has been defined. -/
structure Store.Sums (σ : Store) (env : Env) : Prop extends σ.CanSum env where
  defined : ∃ id, σ.find? env "sum" = some (.closure (sumClosure id env))

/-- The frame of a call of the function. -/
def sumFrame (env : Env) (n acc : Int64) : Frame :=
  ⟨[("acc", .int acc), ("n", .int n)], some env⟩

/-- An environment of such a call. -/
structure Store.InSum (σ : Store) (env inner : Env) (n acc : Int64) : Prop where
  number : σ.find? inner "n" = some (.int n)
  total : σ.find? inner "acc" = some (.int acc)
  equal : σ.find? inner "=" = some (.function .equal)
  subtract : σ.find? inner "-" = some (.function .subtract)
  add : σ.find? inner "+" = some (.function .add)
  defined : ∃ id, σ.find? inner "sum" = some (.closure (sumClosure id env))
  outer : σ.Sums env

theorem Arithmetic.Operation.call_pair (ev : Evaluator) (op : Operation) {a b c : Int64}
    (h : op.checked a b = .ok c) (σ : Store) :
    ev.call op.builtin [.int a, .int b] σ = .of (.ok (.int c)) σ := by
  have hfrom : foldFrom op.checked a [.int b] = .ok c := by
    change (op.checked a b >>= fun c => Except.ok c) = _
    rw [h]
    rfl
  have hfold : fold op.unit? op.checked [.int a, .int b] = .ok (.int c) := by
    change (foldFrom op.checked a [.int b] >>= fun c => Except.ok (Value.int c)) = _
    rw [hfrom]
    rfl
  rw [op.call_apply, hfold]

theorem Evaluator.call_equal_int {ev : Evaluator} (patient : 0 < ev.patience) (n m : Int64)
    (σ : Store) : ev.call .equal [.int n, .int m] σ = .of (.ok (.bool (n == m))) σ := by
  obtain ⟨patience, hpatience⟩ := Nat.exists_eq_add_one_of_ne_zero (Nat.ne_of_gt patient)
  have hsame : ev.same (.int n) (.int m) σ = .of (.ok (n == m)) σ := by
    rw [same_apply, hpatience]
    rfl
  change (ev.same (.int n) (.int m) >>= fun answer => (pure (Value.bool answer) : Action Value)) σ = _
  rw [Action.bind_of_ok hsame]
  rfl

namespace Store

open Arithmetic (InRange Operation exists_exact inRange_toInt exact_eq_ok)
open Evaluator (nesting nesting_eval_symbol nesting_eval_int nesting_eval_builtin)

variable {files : Files} {env inner : Env} {σ : Store} {id k : Nat} {n acc m t s : Int64}

theorem Sums.addFrame (h : σ.Sums env) (n acc : Int64) :
    (σ.addFrame (sumFrame env n acc)).2.Sums env := by
  have hknown (p : Env) (hp : (sumFrame env n acc).parent = some p) : (σ.frame? p).isSome := by
    rw [← Option.some.inj hp]
    exact h.known
  have hkept : ((σ.addFrame (sumFrame env n acc)).2.frame? env).isSome := by
    rw [frame?_new_or_old]
    split
    · rfl
    · exact h.known
  have hfind := h.older.find?_addFrame hknown h.known
  obtain ⟨id, hid⟩ := h.defined
  exact ⟨⟨h.older.addFrame hknown, hkept, (hfind _).trans h.equal, (hfind _).trans h.subtract,
    (hfind _).trans h.add⟩, id, (hfind _).trans hid⟩

theorem Sums.inSum (h : σ.Sums env) (n acc : Int64) :
    (σ.addFrame (sumFrame env n acc)).2.InSum env (σ.addFrame (sumFrame env n acc)).1 n acc := by
  have hfind := h.older.find?_new (f := sumFrame env n acc) rfl h.known
  obtain ⟨id, hid⟩ := h.defined
  exact ⟨hfind _, hfind _, (hfind _).trans h.equal, (hfind _).trans h.subtract,
    (hfind _).trans h.add, ⟨id, (hfind _).trans hid⟩, h.addFrame n acc⟩

/-- A call of the function goes on with its body. -/
theorem tailPosition_sum {d : Nat} {e : Env} {x y : Value}
    (defined : σ.find? e "sum" = some (.closure (sumClosure id env)))
    (hx : NestsWithin files (d + 1) x e σ (.ok (.int n)) σ)
    (hy : NestsWithin files (d + 1) y e σ (.ok (.int acc)) σ) :
    TailPosition (NestsWithin files (d + 1)) (.list [.symbol "sum", x, y]) e σ sumBody
      (σ.addFrame (sumFrame env n acc)).1 (σ.addFrame (sumFrame env n acc)).2 := by
  have ordinary : ∀ sf forms, Value.list [.symbol "sum", x, y] ≠ form sf forms :=
    SpecialForm.ofName?_eq_none.mp rfl
  have noMacro : σ.macroCall? e (.list [.symbol "sum", x, y]) = none :=
    macroCall?_of_find? defined (by simp [Value.kind, sumClosure])
  have function : NestsWithin files (d + 1) (.symbol "sum") e σ (.ok (.closure (sumClosure id env))) σ :=
    ⟨1, nesting_eval_symbol defined⟩
  exact .application ordinary noMacro function (.cons hx (.cons hy .nil)) rfl rfl

namespace InSum

variable (h : σ.InSum env inner n acc)

include h

theorem tailPosition_body :
    TailPosition (NestsWithin files 2) sumBody inner σ (if n = 0 then .symbol "acc" else sumAgain)
      inner σ := by
  have chosen : NestsWithin files 2 (.list [.symbol "=", .symbol "n", .int 0]) inner σ
      (.ok (.bool (n == 0))) σ :=
    ⟨2, nesting_eval_builtin (b := .equal) h.equal (nesting_eval_symbol h.number)
      (nesting_eval_int 0) (Evaluator.call_equal_int Nat.one_pos n 0 σ)⟩
  by_cases hn : n = 0
  · rw [beq_iff_eq.mpr hn] at chosen
    rw [if_pos hn]
    exact .thenPart le_rfl chosen rfl
  · rw [beq_eq_false_iff_ne.mpr hn] at chosen
    rw [if_neg hn]
    exact .elsePart chosen rfl

theorem tailPosition_again (hm : m.toInt = n.toInt - 1) (ht : t.toInt = acc.toInt + n.toInt) :
    TailPosition (NestsWithin files 2) sumAgain inner σ sumBody (σ.addFrame (sumFrame env m t)).1
      (σ.addFrame (sumFrame env m t)).2 := by
  obtain ⟨id, defined⟩ := h.defined
  refine tailPosition_sum defined ⟨2, ?_⟩ ⟨2, ?_⟩
  · exact nesting_eval_builtin (b := .subtract) h.subtract (nesting_eval_symbol h.number)
      (nesting_eval_int 1) (Operation.subtract.call_pair _ (exact_eq_ok.mpr hm) σ)
  · exact nesting_eval_builtin (b := .add) h.add (nesting_eval_symbol h.total)
      (nesting_eval_symbol h.number) (Operation.add.call_pair _ (exact_eq_ok.mpr ht) σ)

end InSum

/-- The definition binds the function where the builtins stay what they are. -/
theorem CanSum.define (h : σ.CanSum env) (files : Files) :
    ∃ c τ, Ends files (·.eval sumForm env) σ (.ok (.closure c)) τ ∧ τ.Sums env := by
  let ρ : Store := (σ.addClosure ⟨["n", "acc"], none⟩ sumBody env false).2
  let v : Value := .closure (sumClosure σ.closures env)
  have older : ρ.ParentsOlder := h.older
  have hframes : ρ.frames = σ.frames := rfl
  have hfind (name : String) (hne : name ≠ "sum") :
      (ρ.bind env "sum" v).find? env name = σ.find? env name := by
    obtain ⟨heq, -⟩ | hfind := ρ.visible_or_find?_bind env env "sum" name v
    · exact absurd heq hne
    · exact hfind.trans (find?_of_frames hframes env name)
  have known : (ρ.frame? env).isSome := h.known
  have hdefined : (ρ.bind env "sum" v).find? env "sum" = some v := find?_bind_self known "sum" v
  have hknown : ((ρ.bind env "sum" v).frame? env).isSome := by
    rw [frame?_bind, if_pos rfl, Option.isSome_map]
    exact known
  refine ⟨sumClosure σ.closures env, ρ.bind env "sum" v, ends_eval.mpr (.define (.lambda rfl rfl rfl)),
    ⟨older.bind env "sum" v, hknown, ?_, ?_, ?_⟩, σ.closures, hdefined⟩
  · rw [hfind "=" (by decide), h.equal]
  · rw [hfind "-" (by decide), h.subtract]
  · rw [hfind "+" (by decide), h.add]

/-- Where the last sum is in range, so are the sums on the way to it. -/
theorem sums_inRange (hn : n.toInt = k + 1)
    (hs : s.toInt = acc.toInt + ((k + 1) * (k + 2) / 2 : Nat)) :
    ∃ m t : Int64, m.toInt = k ∧ t.toInt = acc.toInt + n.toInt ∧
      s.toInt = t.toInt + (k * (k + 1) / 2 : Nat) := by
  have hsplit : (k + 1) * (k + 2) / 2 = k * (k + 1) / 2 + (k + 1) := by
    have hmul : (k + 1) * (k + 2) = k * (k + 1) + (k + 1) * 2 := by ring
    rw [hmul, Nat.add_mul_div_right _ _ Nat.two_pos]
  rw [hsplit] at hs
  have hrange := inRange_toInt n
  have hacc := inRange_toInt acc
  have hlast := inRange_toInt s
  unfold InRange at hrange hacc hlast
  obtain ⟨m, -, hm⟩ := exists_exact "subtraction" (n := (k : Int)) ⟨by omega, by omega⟩
  obtain ⟨t, -, ht⟩ := exists_exact "addition" (n := acc.toInt + n.toInt) ⟨by omega, by omega⟩
  exact ⟨m, t, hm, ht, by omega⟩

/-- The body goes on with another form twice for each number that is added. -/
theorem InSum.tailRun (h : σ.InSum env inner n acc) (hn : n.toInt = k)
    (hs : s.toInt = acc.toInt + (k * (k + 1) / 2 : Nat)) :
    ∃ τ, TailRun files 2 (2 * k + 1) sumBody inner σ (.ok (.int s)) τ ∧ τ.Sums env := by
  -- Each turn adds a frame, and what it leaves is a store that the next turn can begin with.
  induction k generalizing σ inner n acc with
  | zero =>
    have hzero : n = 0 := Int64.toInt_inj.mp hn
    have hself : s = acc := Int64.toInt_inj.mp (by simpa using hs)
    have hbody : TailPosition (NestsWithin files 2) sumBody inner σ _ inner σ := h.tailPosition_body
    rw [if_pos hzero] at hbody
    rw [hself]
    exact ⟨σ, hbody.tailRun (.done ⟨0, Evaluator.step_symbol h.total⟩), h.outer⟩
  | succ k ih =>
    have hne : n ≠ 0 := by
      rintro rfl
      rw [Int64.toInt_zero] at hn
      omega
    obtain ⟨m, t, hm, ht, hs⟩ := sums_inRange hn hs
    obtain ⟨τ, rest, hτ⟩ := ih (h.outer.inSum m t) hm hs
    have hbody : TailPosition (NestsWithin files 2) sumBody inner σ _ inner σ := h.tailPosition_body
    rw [if_neg hne] at hbody
    exact ⟨τ, hbody.tailRun ((h.tailPosition_again (by omega) ht).tailRun rest), hτ⟩

theorem Sums.tailRun (h : σ.Sums env) (hn : n.toInt = k)
    (hs : s.toInt = acc.toInt + (k * (k + 1) / 2 : Nat)) :
    ∃ τ, TailRun files 2 (2 * k + 2) (.list [.symbol "sum", .int n, .int acc]) env σ (.ok (.int s)) τ ∧
      τ.Sums env := by
  obtain ⟨id, defined⟩ := h.defined
  have hcall : TailPosition (NestsWithin files 2) _ env σ _ _ _ :=
    tailPosition_sum defined ⟨1, nesting_eval_int n⟩ ⟨1, nesting_eval_int acc⟩
  obtain ⟨τ, rest, hτ⟩ := (h.inSum n acc).tailRun hn hs
  exact ⟨τ, hcall.tailRun rest, hτ⟩

end Store

/-- A step goes on with a form just when that form is in one of the five tail positions, and then it has
evaluated only what stands before it. So a form nests as deep as the one in its tail position: an evaluation
nests one level deeper than what its steps evaluate, however often it goes on with another form, and every
evaluation is one of this kind. The function that is defined here adds up `n` numbers in `2 * n + 2` tail calls
and branches, and never nests more than three levels deep. -/
theorem tail_calls_nest_once (files : Files) :
    (∀ (ev : Evaluator) value env σ tail env' ρ,
      ev.step value env σ = .of (.ok (.next tail env')) ρ ↔
        TailPosition ev.Evaluated value env σ tail env' ρ) ∧
    (∀ d value env σ tail env' ρ, StepsWithin files d value env σ (.ok (.next tail env')) ρ ↔
      TailPosition (NestsWithin files d) value env σ tail env' ρ) ∧
    (∀ d value env σ tail env' ρ r τ, TailPosition (NestsWithin files d) value env σ tail env' ρ →
      (NestsWithin files (d + 1) value env σ r τ ↔ NestsWithin files (d + 1) tail env' ρ r τ)) ∧
    (∀ d n value env σ r τ, TailRun files d n value env σ r τ →
      NestsWithin files (d + 1) value env σ r τ) ∧
    (∀ d value env σ r τ, NestsWithin files (d + 1) value env σ r τ →
      ∃ n, TailRun files d n value env σ r τ) ∧
    (∀ value env σ r τ, Ends files (·.eval value env) σ r τ ↔
      ∃ d, NestsWithin files d value env σ r τ) ∧
    read sumSource = .ok sumForm ∧
    (∀ (σ : Store) env, σ.CanSum env →
      ∃ c τ, Ends files (·.eval sumForm env) σ (.ok (.closure c)) τ ∧ τ.Sums env) ∧
    ∀ (σ : Store) env (n acc s : Int64), σ.Sums env → 0 ≤ n.toInt →
      s.toInt = acc.toInt + n.toInt * (n.toInt + 1) / 2 →
      let call : Value := .list [.symbol "sum", .int n, .int acc]
      ∃ τ, TailRun files 2 (2 * n.toInt.toNat + 2) call env σ (.ok (.int s)) τ ∧
        NestsWithin files 3 call env σ (.ok (.int s)) τ ∧ τ.Sums env := by
  refine ⟨fun _ _ _ _ _ _ _ => Evaluator.step_eq_next, fun _ _ _ _ _ _ _ => stepsWithin_next_iff,
    fun _ _ _ _ _ _ _ _ _ h => h.nestsWithin_iff, fun _ _ _ _ _ _ _ h => h.nestsWithin,
    fun _ _ _ _ _ _ h => h.exists_tailRun, fun _ _ _ _ _ => ends_eval_iff_nestsWithin,
    read_sumSource, fun σ env h => h.define files, ?_⟩
  intro σ env n acc s h hn hs call
  obtain ⟨k, hk⟩ := Int.eq_ofNat_of_zero_le hn
  rw [hk] at hs
  obtain ⟨τ, hrun, hτ⟩ := h.tailRun hk (by exact_mod_cast hs)
  have hcount : n.toInt.toNat = k := by rw [hk, Int.toNat_natCast]
  rw [hcount]
  exact ⟨τ, hrun, hrun.nestsWithin, hτ⟩

/-- In a new session with a macro `same`, the call `((fn* (x) (let* (y x) (do y (if y (same y))))) 1)` goes
through all five tail positions and nests two levels deep. Without the macro, `(sum 3 4)` is ten. -/
theorem tail_calls_nest_once_ten :
    let σ : Store := ((Store.empty .silent).addFrame .builtins).2
    let same := σ.addClosure ⟨["x"], none⟩ (.symbol "x") .global true
    let σ₀ := same.2.bind .global "same" (.closure same.1)
    let expanded : Value := .list [.symbol "same", .symbol "y"]
    let branch := form .conditional [.symbol "y", expanded]
    let block := form .sequence [.symbol "y", branch]
    let scope := form .letIn [.list [.symbol "y", .symbol "x"], block]
    let start : Value := .list [form .lambda [.list [.symbol "x"], scope], .int 1]
    let called := (σ₀.addClosure ⟨["x"], none⟩ scope .global false).2.addFrame
      ⟨[("x", .int 1)], some .global⟩
    let inner := called.2.addFrame ⟨[], some called.1⟩
    let σ₂ := inner.2.bind inner.1 "y" (.int 1)
    let σ₃ := (σ₂.addFrame ⟨[("x", .symbol "y")], some .global⟩).2
    let call : Value := .list [.symbol "sum", .int 3, .int 4]
    (TailPosition (NestsWithin .empty 1) start .global σ₀ scope called.1 called.2 ∧
      TailPosition (NestsWithin .empty 1) scope called.1 called.2 block inner.1 σ₂ ∧
      TailPosition (NestsWithin .empty 1) block inner.1 σ₂ branch inner.1 σ₂ ∧
      TailPosition (NestsWithin .empty 1) branch inner.1 σ₂ expanded inner.1 σ₂ ∧
      TailPosition (NestsWithin .empty 1) expanded inner.1 σ₂ (.symbol "y") inner.1 σ₃ ∧
      TailRun .empty 1 5 start .global σ₀ (.ok (.int 1)) σ₃ ∧
      NestsWithin .empty 2 start .global σ₀ (.ok (.int 1)) σ₃ ∧
      NestsWithin .empty 2 scope called.1 called.2 (.ok (.int 1)) σ₃) ∧
    σ.CanSum .global ∧
    ∃ c τ ρ, Ends .empty (·.eval sumForm .global) σ (.ok (.closure c)) τ ∧ τ.Sums .global ∧
      TailRun .empty 2 8 call .global τ (.ok (.int 10)) ρ ∧
      NestsWithin .empty 3 call .global τ (.ok (.int 10)) ρ := by
  intro σ same σ₀ expanded branch block scope start called inner σ₂ σ₃ call
  obtain ⟨-, hposition, hagain, hnests, -, -, -, hdefine, hsum⟩ := tail_calls_nest_once .empty
  refine ⟨?_, ?_⟩
  · have hstart := (hposition 1 start .global σ₀ scope called.1 called.2).mp ⟨1, rfl⟩
    have hscope := (hposition 1 scope called.1 called.2 block inner.1 σ₂).mp ⟨1, rfl⟩
    have hblock := (hposition 1 block inner.1 σ₂ branch inner.1 σ₂).mp ⟨1, rfl⟩
    have hbranch := (hposition 1 branch inner.1 σ₂ expanded inner.1 σ₂).mp ⟨1, rfl⟩
    have hexpanded := (hposition 1 expanded inner.1 σ₂ (.symbol "y") inner.1 σ₃).mp ⟨1, rfl⟩
    have hlast : TailRun .empty 1 0 (.symbol "y") inner.1 σ₃ (.ok (.int 1)) σ₃ := .done ⟨0, rfl⟩
    have hrun : TailRun .empty 1 5 start .global σ₀ (.ok (.int 1)) σ₃ :=
      hstart.tailRun (hscope.tailRun (hblock.tailRun (hbranch.tailRun (hexpanded.tailRun hlast))))
    have htwo := hnests 1 5 start .global σ₀ (.ok (.int 1)) σ₃ hrun
    exact ⟨hstart, hscope, hblock, hbranch, hexpanded, hrun, htwo,
      (hagain 1 start .global σ₀ scope called.1 called.2 _ _ hstart).mp htwo⟩
  · have older : σ.ParentsOlder :=
      (Store.ParentsOlder.empty .silent).addFrame fun p hp => nomatch hp
    have hcan : σ.CanSum .global := ⟨older, rfl, rfl, rfl, rfl⟩
    obtain ⟨c, τ, hends, hτ⟩ := hdefine σ .global hcan
    obtain ⟨ρ, hten, hthree, -⟩ := hsum τ .global 3 4 10 hτ (by decide) (by decide)
    exact ⟨hcan, c, τ, ρ, hends, hτ, hten, hthree⟩

end Lisp
