import Lisp.Proofs.MaximalMunch

/-! Where tokens end. A text that a token can have is cut out as one token exactly where what comes
after it can not be part of it. -/

namespace Lisp

open Pattern

/-- The text of a quoted token with its closing quote. -/
def Closed (cs : List Char) : Prop :=
  ∃ body, cs = '"' :: (body ++ ['"']) ∧ QuotedBody body

/-- What can come after the text of a token, so that the token goes no further. -/
def TokenSort.EndsBefore (sort : TokenSort) (text rest : List Char) : Prop :=
  match sort with
  | .word => Stops rest
  | .comment => ∀ c ∈ rest.head?, c = '\n'
  | .marker .unquote => ∀ c ∈ rest.head?, c ≠ '@'
  | .quoted => Closed text ∨ QuoteStops rest
  | _ => True

variable {sort : TokenSort} {text rest rest' : List Char}

theorem LongestMatch.quoted (matched : text ∈ TokenSort.quoted.pattern)
    (ends : Closed text ∨ QuoteStops rest) : LongestMatch (some .quoted) text rest := by
  obtain ⟨body, rfl, hbody⟩ | hstops := ends
  · exact .quoted_closed hbody rest
  · obtain ⟨body, last, rfl, hbody, rfl | rfl⟩ := mem_quoted.mp matched
    · exact .quoted_closed hbody rest
    · rw [List.append_nil]
      exact .quoted_open hbody hstops

theorem LongestMatch.of_endsBefore (matched : text ∈ sort.pattern)
    (ends : sort.EndsBefore text rest) : LongestMatch (some sort) text rest := by
  cases sort with
  | opening b | closing b =>
    obtain rfl := mem_literal.mp matched
    exact .of_literal (by cases b <;> decide) rfl rest
  | marker m =>
    obtain rfl := mem_literal.mp matched
    cases m with
    | unquote => exact .unquote ends
    | spliceUnquote => exact .spliceUnquote rest
    | quote | quasiquote | deref => exact .of_literal (by decide) rfl rest
  | caret =>
    obtain rfl := mem_literal.mp matched
    exact .of_literal (by decide) rfl rest
  | quoted => exact .quoted matched ends
  | comment =>
    obtain ⟨cs, rfl, hcs⟩ := mem_comment.mp matched
    exact .comment hcs ends
  | word =>
    obtain ⟨c, cs, rfl, hc, hcs⟩ := mem_word.mp matched
    exact .word hc hcs ends

/-- A match that is longest does not go on with one character more. -/
theorem LongestMatch.not_concat {lexeme : Lexeme} {c : Char} (h : LongestMatch lexeme text rest)
    (hc : c ∈ rest.head?) (other : Lexeme) : text ++ [c] ∉ other.pattern := by
  intro hmem
  obtain ⟨cs, rfl⟩ := List.head?_eq_some_iff.mp hc
  have hle := h.longest other (text ++ [c]) hmem ⟨cs, by simp⟩
  simp only [List.length_append, List.length_singleton] at hle
  omega

theorem LongestMatch.quoteStops (h : LongestMatch (some .quoted) text rest) :
    Closed text ∨ QuoteStops rest := by
  obtain ⟨body, last, rfl, hbody, rfl | rfl⟩ := mem_quoted.mp h.matched
  · exact .inl ⟨body, rfl, hbody⟩
  -- The pieces that follow one another here are those of the token, since both are longest.
  obtain ⟨body', rest', hsplit, hbody', hstops | ⟨ds, rfl⟩⟩ := exists_quotedBody (body ++ rest)
  · have hlongest := LongestMatch.quoted_open hbody' hstops
    obtain ⟨-, -, rfl⟩ := h.unique hlongest (by simpa using hsplit)
    exact .inr hstops
  · have hlongest := LongestMatch.quoted_closed hbody' ds
    obtain ⟨-, htext, -⟩ := h.unique hlongest (by simpa using hsplit)
    exact .inl ⟨body', htext, hbody'⟩

theorem LongestMatch.endsBefore (h : LongestMatch (some sort) text rest) :
    sort.EndsBefore text rest := by
  cases sort with
  | opening b | closing b | caret => trivial
  | marker m =>
    cases m with
    | unquote =>
      rintro c hc rfl
      obtain rfl : text = ['~'] := mem_literal.mp h.matched
      exact h.not_concat hc (some (.marker .spliceUnquote)) (mem_literal.mpr rfl)
    | quote | quasiquote | spliceUnquote | deref => trivial
  | quoted => exact h.quoteStops
  | comment =>
    intro c hc
    by_contra hne
    obtain ⟨cs, rfl, hcs⟩ := mem_comment.mp h.matched
    refine h.not_concat hc (some .comment) (mem_comment.mpr ⟨cs ++ [c], by simp, ?_⟩)
    simpa [or_imp, forall_and] using ⟨hcs, hne⟩
  | word =>
    intro c hc
    by_contra hne
    obtain ⟨d, ds, rfl, hd, hds⟩ := mem_word.mp h.matched
    refine h.not_concat hc (some .word) (mem_word.mpr ⟨d, ds ++ [c], by simp, hd, ?_⟩)
    simpa [or_imp, forall_and] using ⟨hds, isWordChar_iff.mpr hne⟩

/-- A token that ends before one text ends before another that begins alike or with a new line. -/
theorem TokenSort.EndsBefore.of_head (h : sort.EndsBefore text rest)
    (head : ∀ c ∈ rest'.head?, c = '\n' ∨ c ∈ rest.head?)
    (quoteStops : sort = .quoted → QuoteStops rest → Closed text ∨ QuoteStops rest') :
    sort.EndsBefore text rest' := by
  cases sort with
  | opening b | closing b | caret => trivial
  | marker m =>
    cases m with
    | unquote =>
      intro c hc
      obtain rfl | hmem := head c hc
      · decide
      · exact h c hmem
    | quote | quasiquote | spliceUnquote | deref => trivial
  | quoted => exact h.elim .inl (quoteStops rfl)
  | comment => exact fun c hc => (head c hc).elim id (h c)
  | word =>
    intro c hc
    obtain rfl | hmem := head c hc
    · exact .inl (by decide)
    · exact h c hmem

/-- Every token but a comment ends before a separator, if it is not a quoted token that is not
closed. -/
theorem TokenSort.endsBefore_separator (closed : sort = .quoted → Closed text)
    (separated : ∀ c ∈ rest.head?, isSeparator c = true)
    (line : sort = .comment → ∀ c ∈ rest.head?, c = '\n') : sort.EndsBefore text rest := by
  cases sort with
  | opening b | closing b | caret => trivial
  | marker m =>
    cases m with
    | unquote =>
      rintro c hc rfl
      exact absurd (separated '@' hc) (by decide)
    | quote | quasiquote | spliceUnquote | deref => trivial
  | quoted => exact .inl (closed rfl)
  | comment => exact line rfl
  | word =>
    intro c hc
    have hends := separated c hc
    by_contra hne
    exact absurd (isSeparator_of_isWordChar (isWordChar_iff.mpr hne)) (by simp [hends])

end Lisp
