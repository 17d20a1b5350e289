import Lisp.Value

/-! Equality of values by content. Lists and vectors are equal when their elements are, maps when they
have equal entries in any order, atoms when they are the same or hold equal contents. Atoms can hold one
another, so contents are compared for a bounded number of steps, and a pair of atoms that is already
being compared counts as equal. -/

namespace Lisp

abbrev Cells := Array Value

/-- What an atom holds. There is nothing but nil in a cell that does not exist. -/
def Cells.content (cells : Cells) (c : Cell) : Value :=
  cells[c.slot]?.getD .nil

namespace Value

/-- Whether elements are equal one by one. Lists of two lengths differ, whatever they hold. -/
def itemsEqual (same : Value → Value → Option Bool) (xs ys : List Value) : Option Bool :=
  if xs.length = ys.length then pairsEqual xs ys else some false
where
  pairsEqual : List Value → List Value → Option Bool
    | x :: xs, y :: ys =>
      match same x y with
      | some true => pairsEqual xs ys
      | answer => answer
    | _, _ => some true

def entryValue? (same : Value → Option Bool) : List (Value × Value) → Option (Option Value)
  | [] => some none
  | (k, v) :: es =>
    match same k with
    | some true => some (some v)
    | some false => entryValue? same es
    | none => none

/-- Whether each entry of one map has an entry with an equal key and an equal value in another of the
same size. -/
def entriesEqual (sameKey sameValue : Value → Value → Option Bool) (es fs : List (Value × Value)) :
    Option Bool :=
  if es.length = fs.length then found es else some false
where
  found : List (Value × Value) → Option Bool
    | [] => some true
    | (k, v) :: es =>
      match entryValue? (sameKey · k) fs with
      | some (some w) =>
        match sameValue w v with
        | some true => found es
        | answer => answer
      | some none => some false
      | none => none

/-- Whether two values are equal, if `steps` nested comparisons are enough to tell. The pairs of atoms in
`opened` are being compared. Keys are compared on their own, with no pair open. -/
def equalWithin (cells : Cells) : Nat → List (Cell × Cell) → Value → Value → Option Bool
  | 0, _, _, _ => none
  | steps + 1, opened, a, b =>
    match a, b with
    | .int m, .int n => some (m == n)
    | .bool p, .bool q => some (p == q)
    | .nil, .nil => some true
    | .eof, .eof => some true
    | .symbol s, .symbol t => some (s == t)
    | .keyword s, .keyword t => some (s == t)
    | .str s, .str t => some (s == t)
    | .error s, .error t => some (s == t)
    | .function f, .function g => some (f == g)
    | .closure c, .closure d => some (c.id == d.id)
    | .map es, .map fs =>
      entriesEqual (equalWithin cells steps []) (equalWithin cells steps opened) es fs
    | .atom c, .atom d =>
      if c = d || (c, d) ∈ opened then some true
      else equalWithin cells steps ((c, d) :: opened) (cells.content c) (cells.content d)
    | a, b =>
      match a.items?, b.items? with
      | some xs, some ys => itemsEqual (equalWithin cells steps opened) xs ys
      | _, _ => some false

def equal? (cells : Cells) (steps : Nat) (a b : Value) : Option Bool :=
  equalWithin cells steps [] a b

/-- Equality of values that hold no atom, for which the height of either is enough steps. -/
def literalEqual (a b : Value) : Bool :=
  equal? #[] a.height a b == some true

end Value

end Lisp
