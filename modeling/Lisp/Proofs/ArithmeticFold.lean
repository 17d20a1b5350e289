import Lisp.Eval
import Lisp.Proofs.Outcome
import Lisp.Proofs.Numeral
import Mathlib.Data.List.Basic
import Mathlib.Tactic.ByContra

/-! Addition, subtraction, multiplication and division against the same folds over unbounded integers. A call
computes what the exact fold does when every partial result of it is in range, and fails at the first argument
where something is wrong. -/

namespace Lisp

namespace Arithmetic

def InRange (n : Int) : Prop :=
  -2 ^ 63 ≤ n ∧ n < 2 ^ 63

instance (n : Int) : Decidable (InRange n) :=
  inferInstanceAs (Decidable (_ ∧ _))

inductive Operation
  | add
  | subtract
  | multiply
  | divide
  deriving DecidableEq, Repr

namespace Operation

def builtin : Operation → Builtin
  | add => .add
  | subtract => .subtract
  | multiply => .multiply
  | divide => .divide

def name : Operation → String
  | add => "addition"
  | subtract => "subtraction"
  | multiply => "multiplication"
  | divide => "division"

/-- The value without any argument, if there is one. -/
def unit? : Operation → Option Int64
  | add => some 0
  | multiply => some 1
  | subtract | divide => none

/-- The operation on unbounded integers. A quotient is rounded toward zero. -/
def exact : Operation → Int → Int → Int
  | add => (· + ·)
  | subtract => (· - ·)
  | multiply => (· * ·)
  | divide => Int.tdiv

/-- The operation on integers in range, which can fail. -/
def checked : Operation → Int64 → Int64 → Except EvalError Int64
  | add => Arithmetic.add
  | subtract => Arithmetic.subtract
  | multiply => Arithmetic.multiply
  | divide => Arithmetic.divide

/-- The exact fold from `a` over the integers after it. -/
def result (op : Operation) (a : Int64) (ns : List Int64) : Int :=
  ns.foldl (fun r n => op.exact r n.toInt) a.toInt

/-- Whether an integer may stand after the first argument. -/
def Allows (op : Operation) (n : Int64) : Prop :=
  op = divide → n ≠ 0

/-- No integer after `a` is a zero divisor, and the partial results of the exact fold, of which `n` is the
last, are in range. -/
structure Reaches (op : Operation) (a : Int64) (ns : List Int64) (n : Int64) : Prop where
  allowed : ∀ m ∈ ns, op.Allows m
  inRange : ∀ k ≤ ns.length, InRange (op.result a (ns.take k))
  last : n.toInt = op.result a ns

def Computes (op : Operation) (args : List Value) (n : Int64) : Prop :=
  ∃ a ns, args = (a :: ns).map .int ∧ op.Reaches a ns n

/-- What is wrong at an argument: it is no integer, or a zero divisor, or else the exact partial result that
it leads to is out of range. -/
inductive FaultAt (op : Operation) (args : List Value) (i : Nat) : EvalError → Prop
  | noInteger {v : Value} (arg : args[i]? = some v) (noInt : v.int? = none) :
    FaultAt op args i (.wrongArgType "integer" v.kind)
  | zeroDivisor (divides : op = divide) (later : 0 < i) (zero : args[i]? = some (.int 0)) :
    FaultAt op args i .divisionByZero
  | overflow {a b : Int64} {ns : List Int64} (ints : (a :: (ns ++ [b])).map .int <+: args)
    (here : i = ns.length + 1) (allowed : op.Allows b) (outside : ¬ InRange (op.result a (ns ++ [b]))) :
    FaultAt op args i (.integerOverflow op.name)

def FirstFault (op : Operation) (args : List Value) (i : Nat) (e : EvalError) : Prop :=
  op.FaultAt args i e ∧ ∀ j e', op.FaultAt args j e' → i ≤ j

end Operation

theorem integer?_eq_none_iff {n : Int} : integer? n = none ↔ ¬ InRange n := by
  rw [integer?_eq_none, InRange]
  omega

theorem inRange_toInt (n : Int64) : InRange n.toInt := by
  have hsome := integer?_eq_some.mpr (rfl : n.toInt = n.toInt)
  by_contra hout
  rw [integer?_eq_none_iff.mpr hout] at hsome
  cases hsome

theorem exact_eq_ok {operation : String} {n : Int} {d : Int64} :
    exact operation n = .ok d ↔ d.toInt = n := by
  rw [← integer?_eq_some, exact]
  cases integer? n <;> simp

theorem exact_eq_error {operation : String} {n : Int} {e : EvalError} :
    exact operation n = .error e ↔ ¬ InRange n ∧ e = .integerOverflow operation := by
  rw [← integer?_eq_none_iff, exact]
  cases integer? n <;> simp [eq_comm]

theorem exists_exact {n : Int} (operation : String) (h : InRange n) :
    ∃ d : Int64, exact operation n = .ok d ∧ d.toInt = n := by
  cases hd : exact operation n with
  | ok d => exact ⟨d, rfl, exact_eq_ok.mp hd⟩
  | error e => exact absurd h (exact_eq_error.mp hd).1

namespace Operation

variable {op : Operation} {a b c d : Int64} {ns : List Int64} {args vs : List Value} {i : Nat} {e : EvalError}

theorem checked_of_allows (h : op.Allows b) :
    op.checked c b = Arithmetic.exact op.name (op.exact c.toInt b.toInt) := by
  cases op with
  | add | subtract | multiply => rfl
  | divide => exact if_neg (h rfl)

theorem checked_of_not_allows (h : ¬ op.Allows b) :
    op = divide ∧ b = 0 ∧ op.checked c b = .error .divisionByZero := by
  obtain ⟨rfl, hb⟩ : op = divide ∧ b = 0 := by simpa [Allows] using h
  exact ⟨rfl, hb, if_pos hb⟩

theorem result_concat (op : Operation) (a : Int64) (ns : List Int64) (b : Int64) :
    op.result a (ns ++ [b]) = op.exact (op.result a ns) b.toInt := by
  simp [result]

theorem Reaches.start (op : Operation) (a : Int64) : op.Reaches a [] a where
  allowed := by simp
  inRange k _ := by simpa [result] using inRange_toInt a
  last := rfl

/-- One argument more, where nothing is wrong. -/
theorem Reaches.step (h : op.Reaches a ns c) (allowed : op.Allows b)
    (last : d.toInt = op.exact c.toInt b.toInt) : op.Reaches a (ns ++ [b]) d := by
  have hlast : d.toInt = op.result a (ns ++ [b]) := by rw [result_concat, ← h.last, last]
  refine ⟨?_, fun k hk => ?_, hlast⟩
  · intro m hm
    rcases List.mem_append.mp hm with hm | hm
    · exact h.allowed m hm
    · rwa [List.mem_singleton.mp hm]
  · by_cases hle : k ≤ ns.length
    · rw [List.take_append_of_le_length hle]
      exact h.inRange k hle
    · have hall : (ns ++ [b]).take k = ns ++ [b] := List.take_of_length_le (by simp; omega)
      rw [hall, ← hlast]
      exact inRange_toInt d

theorem take_ints (ints : (a :: (ns ++ [b])).map .int <+: args) :
    args.take (ns.length + 2) = (a :: (ns ++ [b])).map .int := by
  simpa using (List.prefix_iff_eq_take.mp ints).symm

/-- Up to where the fold has got, nothing is wrong. -/
theorem Reaches.lt_of_fault (h : op.Reaches a ns c) (hargs : args = (a :: ns).map .int ++ vs)
    (fault : op.FaultAt args i e) : ns.length < i := by
  by_contra hle
  have hi : i ≤ ns.length := Nat.le_of_not_lt hle
  have harg : args[i]? = ((a :: ns)[i]?).map .int := by
    rw [hargs, List.getElem?_append_left (by simp; omega), List.getElem?_map]
  cases fault with
  | noInteger arg noInt =>
    rw [harg] at arg
    obtain ⟨m, -, rfl⟩ := Option.map_eq_some_iff.mp arg
    cases noInt
  | zeroDivisor divides later zero =>
    obtain ⟨j, rfl⟩ := Nat.exists_eq_succ_of_ne_zero (Nat.ne_of_gt later)
    rw [harg, List.getElem?_cons_succ] at zero
    obtain ⟨m, hm, heq⟩ := Option.map_eq_some_iff.mp zero
    exact h.allowed m (List.mem_of_getElem? hm) divides (Value.int.inj heq)
  | @overflow a' b ns' ints here allowed outside =>
    have htake := take_ints ints
    have hshort : ns'.length + 2 ≤ ((a :: ns).map Value.int).length := by simp; omega
    rw [hargs, List.take_append_of_le_length hshort, ← List.map_take] at htake
    obtain ⟨rfl, hns⟩ := List.cons.inj (List.map_injective_iff.mpr (fun _ _ => Value.int.inj) htake)
    rw [← here] at hns
    rw [← hns] at outside
    exact outside (h.inRange i hi)

/-- A fold that has got as far as `c` goes on to the end, or stops at the first argument where something is
wrong. -/
theorem foldFrom_cases (h : op.Reaches a ns c) (hargs : args = (a :: ns).map .int ++ vs) :
    (∃ n, foldFrom op.checked c vs = .ok n ∧ op.Computes args n) ∨
      ∃ i e, foldFrom op.checked c vs = .error e ∧ op.FirstFault args i e := by
  induction vs generalizing ns c with
  | nil => exact .inl ⟨c, rfl, a, ns, by simpa using hargs, h⟩
  | cons v vs ih =>
    have hfirst {e : EvalError} (fault : op.FaultAt args (ns.length + 1) e) :
        op.FirstFault args (ns.length + 1) e :=
      ⟨fault, fun j e' hj => h.lt_of_fault hargs hj⟩
    have harg : args[ns.length + 1]? = some v := by
      rw [hargs, List.getElem?_append_right (by simp)]
      simp
    cases hv : v.int? with
    | none =>
      have hstop : foldFrom op.checked c (v :: vs) = .error (.wrongArgType "integer" v.kind) := by
        cases v <;> first | rfl | cases hv
      exact .inr ⟨_, _, hstop, hfirst (.noInteger harg hv)⟩
    | some b =>
      obtain rfl : v = .int b := by cases v <;> simp_all [Value.int?]
      have hfold : foldFrom op.checked c (.int b :: vs) =
          (op.checked c b >>= fun d => foldFrom op.checked d vs) := rfl
      by_cases hb : op.Allows b
      · rw [hfold, checked_of_allows hb]
        cases hx : Arithmetic.exact op.name (op.exact c.toInt b.toInt) with
        | ok d =>
          have hmore : args = (a :: (ns ++ [b])).map .int ++ vs := by simp [hargs]
          exact ih (h.step hb (exact_eq_ok.mp hx)) hmore
        | error e =>
          obtain ⟨outside, rfl⟩ := exact_eq_error.mp hx
          rw [h.last, ← result_concat] at outside
          have hints : (a :: (ns ++ [b])).map .int <+: args := ⟨vs, by simp [hargs]⟩
          exact .inr ⟨_, _, rfl, hfirst (.overflow hints rfl hb outside)⟩
      · obtain ⟨divides, rfl, hzero⟩ := checked_of_not_allows (c := c) hb
        rw [hfold, hzero]
        exact .inr ⟨_, _, rfl, hfirst (.zeroDivisor divides (Nat.succ_pos _) harg)⟩

theorem fold_cases (op : Operation) (v : Value) (vs : List Value) :
    (∃ n, fold op.unit? op.checked (v :: vs) = .ok (.int n) ∧ op.Computes (v :: vs) n) ∨
      ∃ i e, fold op.unit? op.checked (v :: vs) = .error e ∧ op.FirstFault (v :: vs) i e := by
  cases hv : v.int? with
  | none =>
    have hstop : fold op.unit? op.checked (v :: vs) = .error (.wrongArgType "integer" v.kind) := by
      cases v <;> first | rfl | cases hv
    exact .inr ⟨0, _, hstop, .noInteger rfl hv, fun j _ _ => Nat.zero_le j⟩
  | some a =>
    obtain rfl : v = .int a := by cases v <;> simp_all [Value.int?]
    have hfold : fold op.unit? op.checked (.int a :: vs) =
        (foldFrom op.checked a vs >>= fun n => .ok (.int n)) := rfl
    have hargs : .int a :: vs = [a].map .int ++ vs := rfl
    rcases foldFrom_cases (.start op a) hargs with ⟨n, hn, h⟩ | ⟨i, e, he, h⟩
    · exact .inl ⟨n, by rw [hfold, hn]; rfl, h⟩
    · exact .inr ⟨i, e, by rw [hfold, he]; rfl, h⟩

theorem FaultAt.lt_length (h : op.FaultAt args i e) : i < args.length := by
  cases h with
  | noInteger arg | zeroDivisor _ _ arg => exact (List.getElem?_eq_some_iff.mp arg).1
  | overflow ints here =>
    have hlen := ints.length_le
    simp at hlen
    omega

/-- What is wrong at an argument does not depend on the arguments after it. -/
theorem FaultAt.of_take (h : op.FaultAt args i e) {others : List Value}
    (same : others.take (i + 1) = args.take (i + 1)) : op.FaultAt others i e := by
  have harg : others[i]? = args[i]? := by
    rw [← List.getElem?_take_of_succ, same, List.getElem?_take_of_succ]
  cases h with
  | noInteger arg noInt => exact .noInteger (harg.trans arg) noInt
  | zeroDivisor divides later zero => exact .zeroDivisor divides later (harg.trans zero)
  | @overflow _ _ ns ints here allowed outside =>
    have htake := take_ints ints
    rw [here] at same
    rw [← same] at htake
    have hints := List.take_prefix (ns.length + 1 + 1) others
    rw [htake] at hints
    exact .overflow hints here allowed outside

theorem getElem?_ints (ints : (a :: (ns ++ [b])).map .int <+: args) :
    args[ns.length + 1]? = some (.int b) := by
  rw [← List.getElem?_take_of_succ, take_ints ints]
  simp

theorem ne_int_of_noInt {v : Value} (arg : args[i]? = some v) (noInt : v.int? = none) (n : Int64) :
    args[i]? ≠ some (.int n) := by
  intro h
  rw [Option.some.inj (arg.symm.trans h)] at noInt
  cases noInt

theorem FaultAt.unique {e' : EvalError} (h : op.FaultAt args i e) (h' : op.FaultAt args i e') : e = e' := by
  cases h with
  | noInteger arg noInt =>
    have hne := ne_int_of_noInt arg noInt
    cases h' with
    | noInteger arg' => rw [Option.some.inj (arg.symm.trans arg')]
    | zeroDivisor _ _ zero => exact absurd zero (hne 0)
    | overflow ints here => exact absurd (here ▸ getElem?_ints ints) (hne _)
  | zeroDivisor divides _ zero =>
    cases h' with
    | noInteger arg noInt => exact absurd zero (ne_int_of_noInt arg noInt 0)
    | zeroDivisor => rfl
    | overflow ints here allowed =>
      have hzero := (here ▸ getElem?_ints ints).symm.trans zero
      exact absurd (Value.int.inj (Option.some.inj hzero)) (allowed divides)
  | overflow ints here allowed =>
    subst here
    have hint := getElem?_ints ints
    cases h' with
    | noInteger arg noInt => exact absurd hint (ne_int_of_noInt arg noInt _)
    | zeroDivisor divides _ zero =>
      exact absurd (Value.int.inj (Option.some.inj (hint.symm.trans zero))) (allowed divides)
    | overflow => rfl

theorem Computes.no_fault {n : Int64} (h : op.Computes args n) : ¬ op.FaultAt args i e := by
  obtain ⟨a, ns, hargs, reached⟩ := h
  intro fault
  have hnone : args = (a :: ns).map .int ++ [] := by simpa using hargs
  have hlt := reached.lt_of_fault hnone fault
  have hlen := fault.lt_length
  simp [hargs] at hlen
  omega

theorem Computes.unique {n m : Int64} (h : op.Computes args n) (h' : op.Computes args m) : n = m := by
  obtain ⟨a, ns, rfl, reached⟩ := h
  obtain ⟨b, ms, hargs, reached'⟩ := h'
  obtain ⟨rfl, rfl⟩ := List.cons.inj (List.map_injective_iff.mpr (fun _ _ => Value.int.inj) hargs)
  exact Int64.toInt_inj.mp (reached.last.trans reached'.last.symm)

theorem fold_eq_ok {v w : Value} :
    fold op.unit? op.checked (v :: vs) = .ok w ↔ ∃ n, w = .int n ∧ op.Computes (v :: vs) n := by
  rcases op.fold_cases v vs with ⟨n, hfold, computes⟩ | ⟨i, e, hfold, fault, -⟩
  · rw [hfold]
    constructor
    · rintro ⟨⟩
      exact ⟨n, rfl, computes⟩
    · rintro ⟨m, rfl, computes'⟩
      rw [computes.unique computes']
  · rw [hfold]
    refine ⟨nofun, ?_⟩
    rintro ⟨n, -, computes⟩
    exact absurd fault computes.no_fault

theorem fold_eq_error {v : Value} :
    fold op.unit? op.checked (v :: vs) = .error e ↔ ∃ i, op.FirstFault (v :: vs) i e := by
  rcases op.fold_cases v vs with ⟨n, hfold, computes⟩ | ⟨i, e', hfold, first⟩
  · rw [hfold]
    refine ⟨nofun, ?_⟩
    rintro ⟨i, fault, -⟩
    exact absurd fault computes.no_fault
  · rw [hfold]
    constructor
    · rintro ⟨⟩
      exact ⟨i, first⟩
    · rintro ⟨j, first'⟩
      obtain rfl : i = j := Nat.le_antisymm (first.2 j e first'.1) (first'.2 i e' first.1)
      rw [first.1.unique first'.1]

theorem FirstFault.of_take (h : op.FirstFault args i e) {others : List Value}
    (same : others.take (i + 1) = args.take (i + 1)) : op.FirstFault others i e := by
  refine ⟨h.1.of_take same, fun j e' fault => ?_⟩
  by_contra hlt
  have hle : j + 1 ≤ i + 1 := by omega
  have hsame := congrArg (List.take (j + 1)) same
  rw [List.take_take, List.take_take, Nat.min_eq_left hle] at hsame
  exact hlt (h.2 j e' (fault.of_take hsame.symm))

theorem call_apply (ev : Evaluator) (op : Operation) (args : List Value) (σ : Store) :
    ev.call op.builtin args σ = .of (fold op.unit? op.checked args) σ := by
  have hcall : ev.call op.builtin args = .ofExcept (fold op.unit? op.checked args) := by
    cases op <;> simp only [builtin, Evaluator.call, Evaluator.callWithin] <;> rfl
  rw [hcall]
  exact Action.ofExcept_eq_of.mpr ⟨rfl, rfl⟩

end Operation

end Arithmetic

open Arithmetic (Operation)

/-- Without arguments, a sum is 0, a product is 1, and a difference or quotient fails. With arguments, a call has
a value when the exact fold over them does, and fails at the first argument where something is wrong, with
what is wrong there. The arguments after it make no difference. -/
theorem arithmetic_exact (ev : Evaluator) (op : Operation) (σ : Store) :
    (ev.call op.builtin [] σ =
      match op.unit? with
      | some n => .value (.int n) σ
      | none => .failure (.tooFewArguments 1 0) σ) ∧
    ∀ args, args ≠ [] →
      (∃ r, ev.call op.builtin args σ = .of r σ) ∧
      (∀ v τ, ev.call op.builtin args σ = .value v τ ↔ (∃ n, v = .int n ∧ op.Computes args n) ∧ τ = σ) ∧
      (∀ e τ, ev.call op.builtin args σ = .failure e τ ↔ (∃ i, op.FirstFault args i e) ∧ τ = σ) ∧
      (∀ i e, op.FirstFault args i e →
        ∀ rest, ev.call op.builtin (args.take (i + 1) ++ rest) σ = .failure e σ) := by
  refine ⟨by cases op <;> rfl, fun args hargs => ?_⟩
  have hcall := op.call_apply ev args σ
  obtain ⟨v, vs, rfl⟩ := List.exists_cons_of_ne_nil hargs
  refine ⟨⟨_, hcall⟩, fun w τ => ?_, fun e τ => ?_, fun i e first rest => ?_⟩
  · rw [hcall, eq_comm, Outcome.value_eq_of, Operation.fold_eq_ok, eq_comm (a := σ)]
  · rw [hcall, eq_comm, Outcome.failure_eq_of, Operation.fold_eq_error, eq_comm (a := σ)]
  · have hlt := first.1.lt_length
    have hsame : ((v :: vs).take (i + 1) ++ rest).take (i + 1) = (v :: vs).take (i + 1) :=
      List.take_left' (by rw [List.length_take, Nat.min_eq_left hlt])
    have hfails := Operation.fold_eq_error.mpr ⟨i, first.of_take hsame⟩
    rw [op.call_apply ev]
    exact congrArg (Outcome.of · σ) hfails

/-- The one quotient that is out of range, in front of an argument that is no integer. -/
theorem arithmetic_exact_quotient :
    let ev := Host.evaluator ⟨.empty, 1, 1⟩
    let σ := Store.empty .silent
    let args : List Value := [.int Int64.minValue, .int (-1), .str "x"]
    args ≠ [] ∧ Operation.divide.FirstFault args 1 (.integerOverflow "division") ∧
      ev.call .divide args σ = .failure (.integerOverflow "division") σ ∧
      ev.call .divide ([.int Int64.minValue, .int (-1)] ++ [.int 0]) σ =
        .failure (.integerOverflow "division") σ ∧
      ev.call .divide [.int (-7), .int 2] σ = .value (.int (-3)) σ ∧
      Operation.divide.Computes [.int (-7), .int 2] (-3) := by
  intro ev σ args
  have first : Operation.divide.FirstFault args 1 (.integerOverflow "division") := by
    have ints : (Int64.minValue :: ([] ++ [-1])).map .int <+: args := ⟨[.str "x"], rfl⟩
    refine ⟨.overflow ints rfl (fun _ => by decide) (by decide), ?_⟩
    intro j e fault
    cases fault with
    | noInteger arg noInt =>
      cases j with
      | zero =>
        cases arg
        cases noInt
      | succ j => exact Nat.succ_pos j
    | zeroDivisor _ later => exact later
    | overflow _ here => exact here ▸ Nat.succ_pos _
  obtain ⟨-, hcalls⟩ := arithmetic_exact ev .divide σ
  obtain ⟨-, -, hfailure, hrest⟩ := hcalls args (by simp [args])
  obtain ⟨-, hvalue, -, -⟩ := hcalls [.int (-7), .int 2] (by simp)
  have hquotient : ev.call .divide [.int (-7), .int 2] σ = .value (.int (-3)) σ := rfl
  obtain ⟨⟨n, hn, computes⟩, -⟩ := (hvalue _ _).mp hquotient
  obtain rfl := Value.int.inj hn
  exact ⟨by simp [args], first, (hfailure _ _).mpr ⟨⟨1, first⟩, rfl⟩, hrest 1 _ first _, hquotient, computes⟩

end Lisp
