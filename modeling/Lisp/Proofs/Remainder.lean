import Lisp.Proofs.ArithmeticFold

/-! The remainder against the exact fold of remainders. A remainder is always in range, but it is refused where
the quotient is not, and this can only happen at the first divisor. -/

namespace Lisp

namespace Arithmetic

variable {a b c d : Int64} {ns : List Int64} {vs : List Value}

/-- The exact fold of remainders from `a` over the divisors after it, each with the sign of what is divided. -/
def remainders (a : Int64) (ns : List Int64) : Int :=
  ns.foldl (fun r n => r.tmod n.toInt) a.toInt

theorem toInt_ne_zero (hb : b ≠ 0) : b.toInt ≠ 0 :=
  fun h => hb (Int64.toInt_inj.mp h)

/-- A quotient is out of range just when the least integer is divided by minus one. -/
theorem inRange_tdiv (hb : b ≠ 0) : InRange (a.toInt.tdiv b.toInt) ↔ ¬ (a = Int64.minValue ∧ b = -1) := by
  have hb := toInt_ne_zero hb
  have ha := inRange_toInt a
  have hmin : a = Int64.minValue ↔ a.toInt = -2 ^ 63 := Int64.toInt_inj.symm
  have hminus : b = -1 ↔ b.toInt = -1 := Int64.toInt_inj.symm
  have habs : (a.toInt.tdiv b.toInt).natAbs = a.toInt.natAbs / b.toInt.natAbs := Int.natAbs_tdiv ..
  rw [hmin, hminus]
  unfold InRange at ha ⊢
  by_cases hone : b.toInt = -1
  · rw [hone, Int.tdiv_neg, Int.tdiv_one]
    omega
  · refine iff_of_true ?_ (fun h => hone h.2)
    by_cases hpos : b.toInt = 1
    · rwa [hpos, Int.tdiv_one]
    · have hhalf : a.toInt.natAbs / b.toInt.natAbs ≤ a.toInt.natAbs / 2 :=
        Nat.div_le_div_left (by omega) (by omega)
      omega

theorem natAbs_tmod_lt (hb : b ≠ 0) : (a.toInt.tmod b.toInt).natAbs < b.toInt.natAbs := by
  rw [Int.natAbs_tmod]
  exact Nat.mod_lt _ (Int.natAbs_pos.mpr (toInt_ne_zero hb))

theorem inRange_tmod (hb : b ≠ 0) : InRange (a.toInt.tmod b.toInt) := by
  have hlt := natAbs_tmod_lt (a := a) hb
  have hrange := inRange_toInt b
  unfold InRange at hrange ⊢
  omega

theorem tmod_sign (a b : Int64) :
    a.toInt.tmod b.toInt = 0 ∨ (a.toInt.tmod b.toInt).sign = a.toInt.sign := by
  by_cases hzero : a.toInt.tmod b.toInt = 0
  · exact .inl hzero
  · right
    rcases Int.lt_trichotomy a.toInt 0 with ha | ha | ha
    · have hle : 0 ≤ (-a.toInt).tmod b.toInt := Int.tmod_nonneg _ (by omega)
      rw [Int.neg_tmod] at hle
      rw [Int.sign_eq_neg_one_of_neg ha, Int.sign_eq_neg_one_of_neg (by omega)]
    · rw [ha, Int.zero_tmod] at hzero
      exact absurd rfl hzero
    · have hle : 0 ≤ a.toInt.tmod b.toInt := Int.tmod_nonneg _ (by omega)
      rw [Int.sign_eq_one_of_pos ha, Int.sign_eq_one_of_pos (by omega)]

/-- All that a remainder can come to. -/
theorem remainder_cases (a b : Int64) :
    b = 0 ∧ remainder a b = .error .moduloByZero ∨
    (a = Int64.minValue ∧ b = -1) ∧ remainder a b = .error (.integerOverflow "modulo") ∨
    (b ≠ 0 ∧ ¬ (a = Int64.minValue ∧ b = -1)) ∧
      ∃ d : Int64, remainder a b = .ok d ∧ d.toInt = a.toInt.tmod b.toInt := by
  by_cases hb : b = 0
  · exact .inl ⟨hb, if_pos hb⟩
  · right
    have hrest : remainder a b = (exact "modulo" (a.toInt.tdiv b.toInt) >>= fun _ =>
        exact "modulo" (a.toInt.tmod b.toInt)) := if_neg hb
    cases hquotient : exact "modulo" (a.toInt.tdiv b.toInt) with
    | error e =>
      obtain ⟨outside, rfl⟩ := exact_eq_error.mp hquotient
      have hleast := not_not.mp (mt (inRange_tdiv hb).mpr outside)
      exact .inl ⟨hleast, by rw [hrest, hquotient]; rfl⟩
    | ok q =>
      have hin : InRange (a.toInt.tdiv b.toInt) := exact_eq_ok.mp hquotient ▸ inRange_toInt q
      obtain ⟨d, hd, hexact⟩ := exists_exact "modulo" (inRange_tmod (a := a) hb)
      refine .inr ⟨⟨hb, (inRange_tdiv hb).mp hin⟩, d, ?_, hexact⟩
      rw [hrest, hquotient]
      exact hd

/-- What is left after a division is not the least integer. -/
theorem ne_minValue_of_tmod (hb : b ≠ 0) (hd : d.toInt = a.toInt.tmod b.toInt) : d ≠ Int64.minValue := by
  rintro rfl
  have hlt := natAbs_tmod_lt (a := a) hb
  have hrange := inRange_toInt b
  have hmin : Int64.minValue.toInt = -2 ^ 63 := by decide
  unfold InRange at hrange
  omega

theorem foldFrom_int (op : Int64 → Int64 → Except EvalError Int64) (c b : Int64) (vs : List Value) :
    foldFrom op c (.int b :: vs) = (op c b >>= fun d => foldFrom op d vs) := rfl

/-- Folding goes through to the end when it can begin. -/
theorem foldFrom_remainder (nonzero : ∀ n ∈ ns, n ≠ 0)
    (begins : ¬ (c = Int64.minValue ∧ ns.head? = some (-1))) :
    ∃ r : Int64, foldFrom remainder c (ns.map .int) = .ok r ∧ r.toInt = remainders c ns := by
  induction ns generalizing c with
  | nil => exact ⟨c, rfl, rfl⟩
  | cons b ns ih =>
    obtain ⟨hb, nonzero⟩ := List.forall_mem_cons.mp nonzero
    obtain ⟨hzero, -⟩ | ⟨⟨hc, rfl⟩, -⟩ | ⟨-, d, hd, hexact⟩ := remainder_cases c b
    · exact absurd hzero hb
    · exact absurd ⟨hc, rfl⟩ begins
    · obtain ⟨r, hr, hlast⟩ := ih nonzero fun h => ne_minValue_of_tmod hb hexact h.1
      refine ⟨r, ?_, ?_⟩
      · rw [List.map_cons, foldFrom_int, hd]
        exact hr
      · rw [hlast, remainders, remainders, List.foldl_cons, hexact]

/-- Folding refuses a remainder at its first step or at none. -/
theorem foldFrom_remainder_overflow {operation : String} :
    foldFrom remainder c vs = .error (.integerOverflow operation) ↔
      c = Int64.minValue ∧ (∃ rest, vs = .int (-1) :: rest) ∧ operation = "modulo" := by
  constructor
  · intro h
    induction vs generalizing c with
    | nil => cases h
    | cons v vs ih =>
      cases v with
      | int b =>
        rw [foldFrom_int] at h
        obtain ⟨-, hfails⟩ | ⟨⟨hc, rfl⟩, hfails⟩ | ⟨⟨hb, -⟩, d, hd, hexact⟩ := remainder_cases c b
        · rw [hfails] at h
          cases h
        · rw [hfails] at h
          cases h
          exact ⟨hc, ⟨vs, rfl⟩, rfl⟩
        · rw [hd] at h
          exact absurd (ih h).1 (ne_minValue_of_tmod hb hexact)
      | _ => cases h
  · rintro ⟨rfl, ⟨rest, rfl⟩, rfl⟩
    rfl

theorem call_remainder (ev : Evaluator) (args : List Value) (σ : Store) :
    ev.call .remainder args σ = .of (fold none remainder args) σ := by
  have hcall : ev.call .remainder args = .ofExcept (fold none remainder args) := by
    simp only [Evaluator.call, Evaluator.callWithin]
  rw [hcall]
  exact Action.ofExcept_eq_of.mpr ⟨rfl, rfl⟩

theorem fold_int (op : Int64 → Int64 → Except EvalError Int64) (a : Int64) (vs : List Value) :
    fold none op (.int a :: vs) = (foldFrom op a vs).map .int := by
  change (foldFrom op a vs >>= fun n => Except.ok (Value.int n)) = _
  cases foldFrom op a vs <;> rfl

theorem fold_remainder_overflow {args : List Value} {operation : String} :
    fold none remainder args = .error (.integerOverflow operation) ↔
      (∃ rest, args = .int Int64.minValue :: .int (-1) :: rest) ∧ operation = "modulo" := by
  match args with
  | [] => simp [fold]
  | v :: vs =>
    cases v with
    | int a =>
      have hmap : (foldFrom remainder a vs).map Value.int = .error (.integerOverflow operation) ↔
          foldFrom remainder a vs = .error (.integerOverflow operation) := by
        cases foldFrom remainder a vs <;> simp [Except.map]
      rw [fold_int, hmap, foldFrom_remainder_overflow]
      constructor
      · rintro ⟨rfl, ⟨rest, rfl⟩, rfl⟩
        exact ⟨⟨rest, rfl⟩, rfl⟩
      · rintro ⟨⟨rest, hargs⟩, rfl⟩
        cases hargs
        exact ⟨rfl, ⟨rest, rfl⟩, rfl⟩
    | _ => simp [fold, Value.requireInt, bind, Except.bind]

theorem call_remainder_ints (ev : Evaluator) (σ : Store) (nonzero : ∀ n ∈ ns, n ≠ 0)
    (begins : ¬ (a = Int64.minValue ∧ ns.head? = some (-1))) :
    ∃ r : Int64, ev.call .remainder ((a :: ns).map .int) σ = .value (.int r) σ ∧
      r.toInt = remainders a ns := by
  obtain ⟨r, hr, hexact⟩ := foldFrom_remainder nonzero begins
  refine ⟨r, ?_, hexact⟩
  rw [call_remainder, List.map_cons, fold_int, hr]
  rfl

theorem call_divide_eq_value {ev : Evaluator} {σ τ : Store} {v : Value} (hb : b ≠ 0)
    (h : ev.call .divide [.int a, .int b] σ = .value v τ) :
    ∃ q : Int64, v = .int q ∧ q.toInt = a.toInt.tdiv b.toInt := by
  have hdivide : divide a b = exact "division" (a.toInt.tdiv b.toInt) := if_neg hb
  have hcall : ev.call .divide [.int a, .int b] σ = .of ((divide a b).map .int) σ := by
    refine (Operation.call_apply ev .divide _ σ).trans ?_
    change Outcome.of (fold none divide _) σ = _
    rw [fold_int, foldFrom_int]
    cases divide a b <;> rfl
  rw [hcall, hdivide] at h
  cases hq : exact "division" (a.toInt.tdiv b.toInt) with
  | ok q =>
    rw [hq] at h
    cases h
    exact ⟨q, rfl, exact_eq_ok.mp hq⟩
  | error e =>
    rw [hq] at h
    cases h

end Arithmetic

open Arithmetic (remainders)

/-- A remainder is the exact fold of remainders, unless the least integer is divided by minus one first, which is
refused whatever stands after it. Where a quotient is in range there is a remainder too, and the two go together:
the remainder is smaller than the divisor, and is zero or has the sign of what is divided. -/
theorem remainder_exact (ev : Evaluator) (σ : Store) :
    (∀ (a : Int64) (ns : List Int64), (∀ n ∈ ns, n ≠ 0) →
      ¬ (a = Int64.minValue ∧ ns.head? = some (-1)) →
      ∃ r : Int64, ev.call .remainder ((a :: ns).map .int) σ = .value (.int r) σ ∧
        r.toInt = remainders a ns) ∧
    (∀ args operation τ, ev.call .remainder args σ = .failure (.integerOverflow operation) τ ↔
      (∃ rest, args = .int Int64.minValue :: .int (-1) :: rest) ∧ operation = "modulo" ∧ τ = σ) ∧
    ∀ (a b : Int64), b ≠ 0 → ∀ v τ, ev.call .divide [.int a, .int b] σ = .value v τ →
      ∃ q r : Int64, v = .int q ∧ ev.call .remainder [.int a, .int b] σ = .value (.int r) σ ∧
        a.toInt = q.toInt * b.toInt + r.toInt ∧ r.toInt.natAbs < b.toInt.natAbs ∧
        (r = 0 ∨ r.toInt.sign = a.toInt.sign) := by
  refine ⟨fun a ns => Arithmetic.call_remainder_ints ev σ, fun args operation τ => ?_,
    fun a b hb v τ hquotient => ?_⟩
  · rw [Arithmetic.call_remainder, eq_comm, Outcome.failure_eq_of, Arithmetic.fold_remainder_overflow,
      and_assoc, eq_comm (a := σ)]
  · obtain ⟨q, rfl, hq⟩ := Arithmetic.call_divide_eq_value hb hquotient
    have hin : Arithmetic.InRange (a.toInt.tdiv b.toInt) := hq ▸ Arithmetic.inRange_toInt q
    have begins := (Arithmetic.inRange_tdiv hb).mp hin
    have nonzero : ∀ n ∈ [b], n ≠ 0 := by simpa using hb
    obtain ⟨r, hr, hexact⟩ := Arithmetic.call_remainder_ints ev σ nonzero (by simpa using begins)
    change r.toInt = a.toInt.tmod b.toInt at hexact
    refine ⟨q, r, rfl, hr, ?_, ?_, ?_⟩
    · rw [hq, hexact]
      exact (Int.tdiv_mul_add_tmod _ _).symm
    · rw [hexact]
      exact Arithmetic.natAbs_tmod_lt hb
    · rw [← Int64.toInt_inj, hexact]
      exact Arithmetic.tmod_sign a b

/-- Remainders of the least integer, which is divided by something else first, and of a negative one. -/
theorem remainder_exact_negative :
    let ev := Host.evaluator ⟨.empty, 1, 1⟩
    let σ := Store.empty .silent
    let ns : List Int64 := [-10, -1, 3]
    (∀ n ∈ ns, n ≠ 0) ∧ ¬ (Int64.minValue = Int64.minValue ∧ ns.head? = some (-1)) ∧
      (∃ r : Int64, ev.call .remainder ((Int64.minValue :: ns).map .int) σ = .value (.int r) σ ∧
        r.toInt = remainders Int64.minValue ns) ∧
      ev.call .divide [.int (-7), .int 2] σ = .value (.int (-3)) σ ∧
      ∃ q r : Int64, .int (-3) = Value.int q ∧
        ev.call .remainder [.int (-7), .int 2] σ = .value (.int r) σ ∧
        (-7 : Int64).toInt = q.toInt * (2 : Int64).toInt + r.toInt ∧
        r.toInt.natAbs < (2 : Int64).toInt.natAbs ∧ (r = 0 ∨ r.toInt.sign = (-7 : Int64).toInt.sign) := by
  intro ev σ ns
  obtain ⟨hfold, -, hquotient⟩ := remainder_exact ev σ
  have nonzero : ∀ n ∈ ns, n ≠ 0 := by simp [ns]
  have begins : ¬ (Int64.minValue = Int64.minValue ∧ ns.head? = some (-1)) := by decide
  exact ⟨nonzero, begins, hfold _ ns nonzero begins, rfl, hquotient (-7) 2 (by decide) _ σ rfl⟩

/-- The least integer divided by minus one leaves nothing, but the call fails with an overflow. -/
theorem remainder_least_refused :
    let ev := Host.evaluator ⟨.empty, 1, 1⟩
    let σ := Store.empty .silent
    (∀ n ∈ ([-1] : List Int64), n ≠ 0) ∧ remainders Int64.minValue [-1] = 0 ∧
      ev.call .remainder [.int Int64.minValue, .int (-1)] σ = .failure (.integerOverflow "modulo") σ :=
  ⟨by simp, by decide, rfl⟩

end Lisp
