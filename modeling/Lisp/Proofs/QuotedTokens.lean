import Lisp.Proofs.Offences
import Lisp.Proofs.ReadValues
import Lisp.Proofs.Wrapping

/-! Quoted tokens and quoted strings. The lexer ends a quoted token where the string ends that is read from
it, so that no string ends inside of a token, and a token that lacks its closing quote is no string. -/

namespace Lisp

open Pattern

namespace Quoted

/-- The text ends with a quote that is not escaped, and that is not its first character. -/
structure Terminated (cs : List Char) : Prop where
  long : 2 ≤ cs.length
  last : cs.getLast? = some '"'
  free : ¬ IsEscaped cs (cs.length - 1)

/-- Every backslash that begins an escape has one of the characters after it that can be escaped. -/
def EscapesKnown (cs : List Char) : Prop :=
  ∀ i, cs[i]? = some '\\' → ¬ IsEscaped cs i → ∃ c ∈ ['t', 'n', 'r', '\\', '"'], cs[i + 1]? = some c

variable {cs body ds : List Char} {c : Char} {i : Nat} {e : QuotedError}

theorem isEscaped_after (h : cs[i]? = some c) : IsEscaped cs (i + 1) ↔ c = '\\' ∧ ¬ IsEscaped cs i := by
  have htake : cs.take (i + 1) = cs.take i ++ [c] := by rw [List.take_add_one, h]; rfl
  rw [IsEscaped, htake]
  by_cases hc : c = '\\'
  · rw [hc, escaping_concat_backslash]
    simp [IsEscaped]
  · simp [not_escaping_concat hc, hc]

/-- No quote stands inside of a quoted token unless it is escaped. -/
theorem not_malformed_unexpectedEnd (h : cs ∈ TokenSort.quoted.pattern) (position : Nat) :
    ¬ Malformed cs (.unexpectedEnd position) := by
  obtain ⟨body, last, rfl, hbody, hlast⟩ := mem_quoted.mp h
  intro hmalformed
  cases hmalformed with
  | offence _ inside offence =>
    cases offence with
    | quote char free =>
      obtain ⟨k, rfl⟩ := Nat.exists_eq_add_one.mpr inside.1
      have hlength : last.length ≤ 1 := by rcases hlast with rfl | rfl <;> simp
      have hk : k < body.length := by
        have hlt := inside.2
        simp only [List.length_cons, List.length_append] at hlt
        omega
      rw [isEscaped_succ hk.le] at free
      have hchar : body[k]? = some '"' := (List.getElem?_append_left hk).symm.trans char
      exact free (escaping_of_quote hbody not_escaping_quote hchar)

theorem Stands.terminated (h : Stands body ds) : Terminated ('"' :: (body ++ ['"'])) := by
  refine ⟨by simp, List.getLast?_concat (l := '"' :: body), ?_⟩
  rw [isEscaped_last]
  exact not_escaping_body h.quotedBody not_escaping_quote

/-- An escape that begins in front of a closing quote ends in front of it. -/
theorem Terminated.escape_inside (h : Terminated cs) (backslash : cs[i]? = some '\\')
    (free : ¬ IsEscaped cs i) : i + 2 < cs.length := by
  have hi : i < cs.length := (List.getElem?_eq_some_iff.mp backslash).1
  have hescaped : IsEscaped cs (i + 1) := (isEscaped_after backslash).mpr ⟨rfl, free⟩
  have hnotNext : i + 1 ≠ cs.length - 1 := by
    intro heq
    exact h.free (heq ▸ hescaped)
  have hnotLast : i ≠ cs.length - 1 := by
    intro heq
    have hlast := h.last
    rw [List.getLast?_eq_getElem?, ← heq, backslash] at hlast
    exact absurd hlast (by decide)
  omega

theorem Stands.escapesKnown (h : Stands body ds) : EscapesKnown ('"' :: (body ++ ['"'])) := by
  intro i backslash free
  have hinside := h.terminated.escape_inside backslash free
  have hle : i + 1 ≤ body.length := by
    simp only [List.length_cons, List.length_append, List.length_nil] at hinside
    omega
  obtain ⟨c, hc⟩ : ∃ c, ('"' :: (body ++ ['"']))[i + 1]? = some c :=
    ⟨_, List.getElem?_eq_getElem (by omega)⟩
  refine ⟨c, ?_, hc⟩
  by_contra unknown
  have hescaped := (isEscaped_after backslash).mpr ⟨rfl, free⟩
  exact h.inoffensive (Nat.succ_pos i) hle (.escape hc hescaped unknown)

theorem EscapesKnown.not_invalidEscape (h : EscapesKnown cs) (hi : 0 < i) :
    ¬ Offence cs i (.invalidEscape c) := by
  intro hoffence
  obtain ⟨k, rfl⟩ := Nat.exists_eq_add_one.mpr hi
  cases hoffence with
  | escape char escaped unknown =>
    obtain ⟨hlt, -⟩ := List.getElem?_eq_some_iff.mp char
    obtain ⟨d, hd⟩ : ∃ d, cs[k]? = some d := ⟨_, List.getElem?_eq_getElem (by omega)⟩
    obtain ⟨rfl, free⟩ := (isEscaped_after hd).mp escaped
    obtain ⟨c', known, hc'⟩ := h k hd free
    exact unknown (Option.some.inj (hc'.symm.trans char) ▸ known)

theorem not_malformed_of_terminated (h : cs ∈ TokenSort.quoted.pattern) (terminated : Terminated cs)
    (known : EscapesKnown cs) : ¬ Malformed cs e := by
  intro hmalformed
  cases hmalformed with
  | unframed unframed =>
    obtain ⟨body, last, rfl, -⟩ := mem_quoted.mp h
    exact unframed ⟨terminated.long, rfl, terminated.last⟩
  | offence framed inside offence leftmost =>
    cases offence with
    | escape char escaped unknown =>
      exact known.not_invalidEscape inside.1 (.escape char escaped unknown)
    | quote char free =>
      exact not_malformed_unexpectedEnd h _ (.offence framed inside (.quote char free) leftmost)
  | escapedEnd _ _ escaped => exact terminated.free escaped

theorem decode_ok_iff {raw : String} (h : raw.toList ∈ TokenSort.quoted.pattern) :
    (∃ text, decode raw = .ok text) ↔ Terminated raw.toList ∧ EscapesKnown raw.toList := by
  constructor
  · rintro ⟨text, htext⟩
    obtain ⟨body, hraw, hstands⟩ := decode_eq_ok.mp htext
    rw [hraw]
    exact ⟨hstands.terminated, hstands.escapesKnown⟩
  · rintro ⟨terminated, known⟩
    obtain ⟨text, htext⟩ | ⟨e, hmalformed, -⟩ := denotes_or_malformed raw
    · exact ⟨text, htext.decode⟩
    · exact absurd hmalformed (not_malformed_of_terminated h terminated known)

end Quoted

variable {t : Token} {ts used rest : List Token} {v : Value}

theorem Token.Fits.sort_of_quote (h : t.Fits) (quote : t.text.toList.head? = some '"') :
    t.sort = .quoted := by
  obtain ⟨cs, hcs⟩ := List.head?_eq_some_iff.mp quote
  have hlexeme : '"' :: cs ∈ Lexeme.pattern (some t.sort) := hcs ▸ h
  obtain hsort | ⟨hc, -⟩ := lexeme_of_mem_pattern hlexeme
  · exact Option.some.inj hsort
  · exact absurd hc (by decide)

theorem Token.Fits.head_of_quoted (h : t.Fits) (sort : t.sort = .quoted) :
    t.text.toList.head? = some '"' := by
  rw [Fits, sort] at h
  obtain ⟨body, last, htext, -⟩ := mem_quoted.mp h
  rw [htext]
  rfl

theorem Token.Fits.decode_ne_unexpectedEnd (h : t.Fits) (position : Nat) :
    Quoted.decode t.text ≠ .error (.unexpectedEnd position) := by
  intro hdecode
  have hmalformed := Quoted.decode_eq_error.mp hdecode
  have framed : Quoted.Framed t.text.toList := by
    cases hmalformed with
    | offence framed => exact framed
  have hsort := h.sort_of_quote framed.first
  exact Quoted.not_malformed_unexpectedEnd (hsort ▸ h) position hmalformed

/-- A reading that fails for a quoted string fails at a token. -/
theorem Rejects.exists_misread {e : ReadError} (h : Rejects ts e rest) :
    ∀ q, e = .quoted q → ∃ t ∈ ts, Misread t.text (.quoted q) := by
  induction h with
  | closer | noBody | unclosed | noValue => exact fun q hq => nomatch hq
  | scalar _ misread =>
    rintro q rfl
    exact ⟨_, List.mem_cons_self, misread⟩
  | marker _ _ ih =>
    intro q hq
    obtain ⟨t, ht, hmisread⟩ := ih q hq
    exact ⟨t, List.mem_cons_of_mem _ ht, hmisread⟩
  | element _ _ _ _ _ ih =>
    intro q hq
    obtain ⟨t, ht, hmisread⟩ := ih q hq
    exact ⟨t, List.mem_cons_of_mem _ (List.mem_append_right _ ht), hmisread⟩

theorem readForm_ne_unexpectedEnd (fits : ∀ t ∈ ts, t.Fits) (position : Nat) :
    (readForm ts).1 ≠ .error (.quoted (.unexpectedEnd position)) := by
  intro hread
  have hrejects := rejects_of_readForm (Prod.ext hread rfl)
  obtain ⟨t, ht, hmisread⟩ := hrejects.exists_misread _ rfl
  cases hmisread with
  | quoted fault => exact (fits t ht).decode_ne_unexpectedEnd position fault.decode

theorem Classifies.decodes {text : String} (h : Classifies text v)
    (quote : text.toList.head? = some '"') : ∃ content, Quoted.decode text = .ok content := by
  have hread := h.readScalar
  rw [readScalar_of_quote quote] at hread
  cases hdecode : Quoted.decode text with
  | ok content => exact ⟨content, rfl⟩
  | error e =>
    rw [hdecode] at hread
    cases hread

/-- All quoted tokens of a form are strings, and so have their closing quotes. -/
theorem Derives.terminated (h : Derives used rest v) (fits : ∀ t ∈ used, t.Fits) :
    ∀ t ∈ used, t.sort = .quoted → Quoted.Terminated t.text.toList := by
  intro t ht hsort
  obtain ⟨w, hw⟩ := h.scalars t ht (.inr (.inl hsort))
  have hdecodes := hw.decodes ((fits t ht).head_of_quoted hsort)
  have hpattern : t.text.toList ∈ TokenSort.quoted.pattern := hsort ▸ fits t ht
  exact ((Quoted.decode_ok_iff hpattern).mp hdecodes).1

theorem readForm_terminated (fits : ∀ t ∈ ts, t.Fits) (h : readForm ts = (.ok v, rest)) :
    ∃ used, ts = used ++ rest ∧ ∀ t ∈ used, t.sort = .quoted → Quoted.Terminated t.text.toList := by
  obtain rfl | ⟨used, rfl, hform⟩ := derives_of_readForm h
  · obtain rfl : [] = rest := (Prod.mk.inj h).2
    exact ⟨[], rfl, by simp⟩
  · exact ⟨used, rfl, hform.terminated fun t ht => fits t (List.mem_append_left _ ht)⟩

/-- No string ends inside of a quoted token. The token is a string exactly when it ends with a quote that is
not escaped, and has no escape but those that are known. So no reading of a text, wherever in it the reading
begins, finds a string that ends too soon or takes one that does not end. -/
theorem quoted_tokens_end (source : String) :
    (∀ t ∈ tokenize source, t.sort = .quoted →
      (∀ position, Quoted.decode t.text ≠ .error (.unexpectedEnd position)) ∧
      ((∃ text, Quoted.decode t.text = .ok text) ↔
        Quoted.Terminated t.text.toList ∧ Quoted.EscapesKnown t.text.toList)) ∧
    (∀ position, read source ≠ .error (.quoted (.unexpectedEnd position))) ∧
    ∀ ts, ts <:+ tokenize source →
      (∀ position, (readForm ts).1 ≠ .error (.quoted (.unexpectedEnd position))) ∧
      ∀ v rest, readForm ts = (.ok v, rest) → ∃ used, ts = used ++ rest ∧
        ∀ t ∈ used, t.sort = .quoted → Quoted.Terminated t.text.toList := by
  have fits : ∀ t ∈ tokenize source, t.Fits := fun t ht => mem_pattern_of_mem_tokensOf ht
  refine ⟨fun t ht hsort => ⟨(fits t ht).decode_ne_unexpectedEnd, ?_⟩, readForm_ne_unexpectedEnd fits,
    fun ts suffix => ?_⟩
  · exact Quoted.decode_ok_iff (hsort ▸ fits t ht)
  · have hfits : ∀ t ∈ ts, t.Fits := fun t ht => fits t (suffix.subset ht)
    exact ⟨readForm_ne_unexpectedEnd hfits, fun v rest => readForm_terminated hfits⟩

/-- A string that ends with an escaped backslash, in a list, and after it one that ends with an escaped
quote. -/
theorem quoted_tokens_end_backslash :
    let source := "(\"a\\\\\") \"b\\\""
    let t : Token := ⟨.quoted, "\"a\\\\\""⟩
    let u : Token := ⟨.quoted, "\"b\\\""⟩
    let ts := tokenize source
    let used := ts.take 3
    (t ∈ ts ∧ Quoted.decode t.text = .ok "a\\" ∧ Quoted.Terminated t.text.toList ∧
      Quoted.EscapesKnown t.text.toList) ∧
    (u ∈ ts ∧ Quoted.decode u.text = .error .unbalanced ∧
      ¬ (Quoted.Terminated u.text.toList ∧ Quoted.EscapesKnown u.text.toList)) ∧
    ts <:+ tokenize source ∧ readForm ts = (.ok (.list [.str "a\\"]), [u]) ∧ ts = used ++ [u] ∧
      ∀ t ∈ used, t.sort = .quoted → Quoted.Terminated t.text.toList := by
  intro source t u ts used
  have htokens : ts = [⟨.opening .round, "("⟩, t, ⟨.closing .round, ")"⟩, u] := by decide +kernel
  have ht : t ∈ ts := by simp [htokens]
  have hu : u ∈ ts := by simp [htokens]
  have hdecode : Quoted.decode "\"a\\\\\"" = .ok "a\\" := by rfl
  have hunbalanced : Quoted.decode "\"b\\\"" = .error .unbalanced := by rfl
  have hread : readForm ts = (.ok (.list [.str "a\\"]), [u]) := by
    rw [htokens]
    simp only [t, u]
    rfl
  obtain ⟨hends, -, hreads⟩ := quoted_tokens_end source
  obtain ⟨hterminated, hknown⟩ := (hends t ht rfl).2.mp ⟨_, hdecode⟩
  refine ⟨⟨ht, hdecode, hterminated, hknown⟩, ⟨hu, hunbalanced, fun h => ?_⟩, List.suffix_rfl, hread, ?_⟩
  · obtain ⟨text, htext⟩ := (hends u hu rfl).2.mpr h
    exact nomatch hunbalanced.symm.trans htext
  · obtain ⟨used', happ, hused'⟩ := (hreads ts List.suffix_rfl).2 _ _ hread
    have hused : ts = used ++ [u] := by
      change ts = ts.take 3 ++ [u]
      rw [htokens]
      rfl
    rw [List.append_cancel_right (happ.symm.trans hused)] at hused'
    exact ⟨hused, hused'⟩

end Lisp
