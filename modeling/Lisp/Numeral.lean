/-! Numerals: the decimal text of 64-bit integers. -/

namespace Lisp

def integer? (n : Int) : Option Int64 :=
  if Int64.minValue.toInt ≤ n ∧ n ≤ Int64.maxValue.toInt then some (Int64.ofInt n) else none

namespace Numeral

def ofInteger (n : Int64) : String :=
  let digits := Nat.toDigits 10 n.toInt.natAbs
  String.ofList (if n.toInt < 0 then '-' :: digits else digits)

def isDigits (cs : List Char) : Bool :=
  !cs.isEmpty && cs.all Char.isDigit

def value? : List Char → Option Int
  | '-' :: cs => if isDigits cs then some (-(Nat.ofDigitChars 10 cs 0 : Int)) else none
  | cs => if isDigits cs then some (Nat.ofDigitChars 10 cs 0 : Int) else none

end Numeral

end Lisp
