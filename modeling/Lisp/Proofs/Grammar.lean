import Lisp.Proofs.RoundTrip
import Lisp.Proofs.Scalar

/-! The grammar of forms, as a relation of tokens to values, and beside it the ways in which tokens
are no form. Both say nothing of how tokens are read. -/

namespace Lisp

def Token.IsScalar (t : Token) : Prop :=
  t.sort = .caret ∨ t.sort = .quoted ∨ t.sort = .word

/-- What a bracket makes of the forms in it. Those of a map are its keys and values in turn. -/
inductive Bracket.Holds : Bracket → List Value → Value → Prop
  | round {forms : List Value} : Holds .round forms (.list forms)
  | square {forms : List Value} : Holds .square forms (.vector forms)
  | curly {pairs : List (Value × Value)} : Holds .curly (Value.forms pairs) (.mapOfLiterals pairs)

def NoComment (ts : List Token) : Prop :=
  ∀ t ∈ ts.head?, t.isComment = false

mutual

/-- The tokens are a form for a value, where `rest` follows them. What follows decides how far a run of
comments goes. -/
inductive Derives : List Token → List Token → Value → Prop
  | scalar {t rest v} (sort : t.IsScalar) (means : Classifies t.text v) : Derives [t] rest v
  | bracket {opener closer b used rest forms v} (opens : opener.sort = .opening b)
    (closes : closer.sort = .closing b) (elements : DerivesAll used (closer :: rest) forms)
    (holds : b.Holds forms v) : Derives (opener :: (used ++ [closer])) rest v
  | marker {t m used rest form} (sort : t.sort = .marker m) (body : Derives used rest form) :
    Derives (t :: used) rest (.list [.symbol m.symbolName, form])
  | comments {run rest} (nonempty : run ≠ []) (comments : ∀ t ∈ run, t.isComment = true)
    (maximal : NoComment rest) : Derives run rest .nil

/-- The tokens are forms for these values, with comments before, between and after them. -/
inductive DerivesAll : List Token → List Token → List Value → Prop
  | nil {rest} : DerivesAll [] rest []
  | comment {t used rest forms} (comment : t.isComment = true)
    (more : DerivesAll used rest forms) : DerivesAll (t :: used) rest forms
  | form {used more rest v forms} (noComment : NoComment used)
    (head : Derives used (more ++ rest) v) (tail : DerivesAll more rest forms) :
    DerivesAll (used ++ more) rest (v :: forms)

end

/-- No form begins the tokens, for this reason, and this is what is left of the tokens then. It is the
leftmost reason, but for a map, whose forms are counted where it is closed. -/
inductive Rejects : List Token → ReadError → List Token → Prop
  | closer {t b ts} (sort : t.sort = .closing b) :
    Rejects (t :: ts) (.unexpectedDelimiter b.closer) (t :: ts)
  | scalar {t ts e} (sort : t.IsScalar) (misread : Misread t.text e) : Rejects (t :: ts) e ts
  | marker {t m ts e rest} (sort : t.sort = .marker m) (body : Rejects ts e rest) :
    Rejects (t :: ts) e rest
  | noBody {t m} (sort : t.sort = .marker m) : Rejects [t] .unexpectedEof []
  | element {opener b used ts forms e rest} (opens : opener.sort = .opening b)
    (elements : DerivesAll used ts forms) (noComment : NoComment ts)
    (noCloser : ∀ t ∈ ts.head?, t.sort ≠ .closing b) (fault : Rejects ts e rest) :
    Rejects (opener :: (used ++ ts)) e rest
  | unclosed {opener b used forms} (opens : opener.sort = .opening b)
    (elements : DerivesAll used [] forms) : Rejects (opener :: used) .unexpectedEof []
  | noValue {opener closer used ts pairs key} (opens : opener.sort = .opening .curly)
    (closes : closer.sort = .closing .curly)
    (elements : DerivesAll used (closer :: ts) (Value.forms pairs ++ [key])) :
    Rejects (opener :: (used ++ closer :: ts)) (.missingMapValue key.printLiteral) ts

theorem Bracket.Holds.collect {b : Bracket} {forms : List Value} {v : Value}
    (h : b.Holds forms v) : b.collect forms = .ok v := by
  cases h with
  | round => rfl
  | square => rfl
  | curly => simp [Bracket.collect, readEntries_forms, Except.map]

theorem readEntries_odd (pairs : List (Value × Value)) (key : Value) :
    readEntries (Value.forms pairs ++ [key]) = .error (.missingMapValue key.printLiteral) := by
  induction pairs with
  | nil => rfl
  | cons pair pairs ih =>
    have hcons : Value.forms (pair :: pairs) = pair.1 :: pair.2 :: Value.forms pairs := rfl
    rw [hcons, List.cons_append, List.cons_append, readEntries, ih]
    rfl

/-- Forms are the keys and values of entries, but for one key after them when their number is odd. -/
theorem exists_entries (forms : List Value) :
    ∃ pairs, forms = Value.forms pairs ∨ ∃ key, forms = Value.forms pairs ++ [key] := by
  match forms with
  | [] => exact ⟨[], .inl rfl⟩
  | [key] => exact ⟨[], .inr ⟨key, rfl⟩⟩
  | k :: v :: forms =>
    obtain ⟨pairs, rfl | ⟨key, rfl⟩⟩ := exists_entries forms
    · exact ⟨(k, v) :: pairs, .inl rfl⟩
    · exact ⟨(k, v) :: pairs, .inr ⟨key, rfl⟩⟩

theorem Derives.nonempty {used rest : List Token} {v : Value} (h : Derives used rest v) :
    used ≠ [] := by
  cases h with
  | scalar | bracket | marker => exact List.cons_ne_nil _ _
  | comments nonempty => exact nonempty

end Lisp
