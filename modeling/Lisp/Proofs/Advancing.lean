import Lisp.Proofs.GrammarReading

/-! What the reader can come to at a token, whatever is pending. -/

namespace Lisp

/-- An error of what has been read, and not of where it ends or what comes next. -/
def ReadError.IsFault : ReadError → Prop
  | .unexpectedEof | .unexpectedDelimiter _ => False
  | .missingMapValue _ | .integerOutOfRange _ | .quoted _ => True

/-- A token is a mark, or it leaves a bracket on top, or the reading ends with it. -/
inductive Token.Advances (t : Token) (pending : List Pending) : Advance → Prop
  | mark {m} (sort : t.sort = .marker m) : t.Advances pending (.inside (.marked m :: pending))
  | bracket (b forms outer) : t.Advances pending (.inside (.opened b forms :: outer))
  | complete (form) : t.Advances pending (.complete form)
  | fault {e} (fault : e.IsFault) : t.Advances pending (.fault e)
  | refusal {b} (sort : t.sort = .closing b) :
    t.Advances pending (.refusal (.unexpectedDelimiter b.closer))

theorem Misread.isFault {text : String} {e : ReadError} (h : Misread text e) : e.IsFault := by
  cases h <;> trivial

theorem isFault_of_readScalar {text : String} {e : ReadError} (h : readScalar text = .error e) :
    e.IsFault := by
  obtain ⟨v, hv⟩ | ⟨e', he'⟩ := classifies_or_misread text
  · exact nomatch h.symm.trans hv.readScalar
  · obtain rfl := Except.error.inj (he'.readScalar.symm.trans h)
    exact he'.isFault

theorem Bracket.isFault_of_collect {b : Bracket} {forms : List Value} {e : ReadError}
    (h : b.collect forms = .error e) : e.IsFault := by
  obtain ⟨v, hv⟩ | ⟨rfl, pairs, key, rfl⟩ := b.holds_or_odd forms
  · exact nomatch h.symm.trans hv.collect
  · rw [collect, readEntries_odd] at h
    obtain rfl := Except.error.inj h
    trivial

variable {t : Token} {pending outer : List Pending}

theorem Token.Advances.deliver (form : Value) :
    t.Advances pending (Pending.deliver form outer) := by
  obtain ⟨whole, h⟩ | ⟨b, forms, inner, h⟩ := Pending.deliver_cases form outer <;> rw [h]
  · exact .complete whole
  · exact .bracket b forms inner

theorem Token.Advances.settle {r : Except ReadError Value} (h : ∀ e, r = .error e → e.IsFault) :
    t.Advances pending (Pending.settle outer r) := by
  cases r with
  | ok form => exact .deliver form
  | error e => exact .fault (h e rfl)

theorem Token.advances (t : Token) (pending : List Pending) :
    t.Advances pending (t.advance pending) := by
  cases hsort : t.sort with
  | opening b =>
    simp only [advance, hsort]
    exact .bracket b [] pending
  | marker m =>
    simp only [advance, hsort]
    exact .mark hsort
  | comment =>
    rcases pending with - | ⟨⟨b, forms⟩ | ⟨m⟩, outer⟩ <;> simp only [advance, hsort]
    · exact .deliver .nil
    · exact .bracket b forms outer
    · exact .deliver .nil
  | closing b =>
    rcases pending with - | ⟨⟨c, forms⟩ | ⟨m⟩, outer⟩ <;> simp only [advance, hsort]
    · exact .refusal hsort
    · split
      · exact .settle fun _ => Bracket.isFault_of_collect
      · exact .refusal hsort
    · exact .refusal hsort
  | caret | quoted | word =>
    simp only [advance, hsort]
    exact .settle fun _ => isFault_of_readScalar

end Lisp
