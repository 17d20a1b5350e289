import Lisp.Numeral
import Mathlib.Algebra.Ring.Int.Defs

/-! Which integers have 64 bits, and the numerals that their decimal texts are. -/

namespace Lisp

theorem integer?_toInt (n : Int64) : integer? n.toInt = some n := by
  rw [integer?, if_pos ⟨n.minValue_le_toInt, n.toInt_le⟩, Int64.ofInt_toInt]

theorem integer?_eq_some {n : Int} {m : Int64} : integer? n = some m ↔ m.toInt = n := by
  constructor
  · intro h
    unfold integer? at h
    split at h
    · next hrange =>
      rw [← Option.some.inj h]
      exact Int64.toInt_ofInt_of_le hrange.1 (Int.lt_add_one_of_le hrange.2)
    · cases h
  · rintro rfl
    exact integer?_toInt m

theorem integer?_eq_none {n : Int} : integer? n = none ↔ n < -2 ^ 63 ∨ 2 ^ 63 ≤ n := by
  have hmin : Int64.minValue.toInt = -2 ^ 63 := by decide
  have hmax : Int64.maxValue.toInt = 2 ^ 63 - 1 := by decide
  unfold integer?
  rw [hmin, hmax]
  split
  · simp only [reduceCtorEq, false_iff]
    omega
  · simp only [true_iff]
    omega

namespace Numeral

/-- A text of digits, which may stand after a minus sign. -/
def IsNumeral (cs : List Char) : Prop :=
  ∃ digits, digits ≠ [] ∧ (∀ c ∈ digits, c.isDigit = true) ∧ (cs = digits ∨ cs = '-' :: digits)

theorem isDigits_iff {cs : List Char} :
    isDigits cs = true ↔ cs ≠ [] ∧ ∀ c ∈ cs, c.isDigit = true := by
  simp [isDigits]

theorem isDigits_toDigits (n : Nat) : isDigits (Nat.toDigits 10 n) = true :=
  have hdigit : ∀ c ∈ Nat.toDigits 10 n, c.isDigit = true :=
    fun _ hc => Nat.isDigit_of_mem_toDigits (by omega) (by omega) hc
  isDigits_iff.mpr ⟨Nat.toDigits_ne_nil, hdigit⟩

theorem value?_digits {cs : List Char} (h : isDigits cs = true) :
    value? cs = some (Nat.ofDigitChars 10 cs 0 : Int) := by
  have hne : ∀ ds, cs ≠ '-' :: ds := by
    rintro ds rfl
    exact absurd ((isDigits_iff.mp h).2 '-' (by simp)) (by decide)
  rw [value?.eq_def]
  split
  · exact absurd rfl (hne _)
  · simp [h]

theorem value?_minus {cs : List Char} (h : isDigits cs = true) :
    value? ('-' :: cs) = some (-(Nat.ofDigitChars 10 cs 0 : Int)) := by
  simp [value?, h]

theorem value?_eq_none {cs : List Char} (h : ¬ IsNumeral cs) : value? cs = none := by
  rw [value?.eq_def]
  split
  · rename_i ds
    have hno : ¬ isDigits ds = true := by
      intro hd
      obtain ⟨hne, hds⟩ := isDigits_iff.mp hd
      exact h ⟨ds, hne, hds, .inr rfl⟩
    simp [hno]
  · have hno : ¬ isDigits cs = true := by
      intro hd
      obtain ⟨hne, hcs⟩ := isDigits_iff.mp hd
      exact h ⟨cs, hne, hcs, .inl rfl⟩
    simp [hno]

theorem isNumeral_ofInteger (n : Int64) : IsNumeral (ofInteger n).toList := by
  have hd := isDigits_iff.mp (isDigits_toDigits n.toInt.natAbs)
  refine ⟨_, hd.1, hd.2, ?_⟩
  unfold ofInteger
  split <;> simp

theorem value?_ofInteger (n : Int64) : value? (ofInteger n).toList = some n.toInt := by
  have hd := isDigits_toDigits n.toInt.natAbs
  by_cases hn : n.toInt < 0
  · simp only [ofInteger, hn, if_true, String.toList_ofList, value?_minus hd,
      Nat.ofDigitChars_ten_toDigits, Option.some.injEq]
    omega
  · simp only [ofInteger, hn, if_false, String.toList_ofList, value?_digits hd,
      Nat.ofDigitChars_ten_toDigits, Option.some.injEq]
    omega

end Numeral

end Lisp
