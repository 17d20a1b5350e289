import Lisp.Proofs.TokenTexts
import Mathlib.Algebra.Ring.Parity
import Mathlib.Data.List.DropRight

/-! Quoted text by the positions of its characters. A character is escaped when the run of backslashes in
front of it is odd. A text that is no quoted string is wrong at the first position between its quotes
whose character can not stand there. -/

namespace Lisp

open Pattern (QuotedBody)

namespace Quoted

/-- These characters end with an odd run of backslashes, which escapes the character after them. -/
def Escaping (before : List Char) : Prop :=
  Odd (before.rtakeWhile (· == '\\')).length

def IsEscaped (cs : List Char) (i : Nat) : Prop :=
  Escaping (cs.take i)

/-- What is wrong with the character at a position: it is escaped and there is no such escape, or it is a
quote that is not escaped. -/
inductive Offence (cs : List Char) (i : Nat) : QuotedError → Prop
  | escape {c : Char} (char : cs[i]? = some c) (escaped : IsEscaped cs i)
    (unknown : c ∉ ['t', 'n', 'r', '\\', '"']) : Offence cs i (.invalidEscape c)
  | quote (char : cs[i]? = some '"') (free : ¬ IsEscaped cs i) : Offence cs i (.unexpectedEnd i)

structure Framed (cs : List Char) : Prop where
  long : 2 ≤ cs.length
  first : cs.head? = some '"'
  last : cs.getLast? = some '"'

/-- The positions between the first character and the last one. -/
def Inside (cs : List Char) (i : Nat) : Prop :=
  0 < i ∧ i + 1 < cs.length

/-- Why a text is no quoted string. Its leftmost offence decides, and where there is none, its last quote
is escaped. -/
inductive Malformed (cs : List Char) : QuotedError → Prop
  | unframed (unframed : ¬ Framed cs) : Malformed cs .unbalanced
  | offence {i : Nat} {e : QuotedError} (framed : Framed cs) (inside : Inside cs i)
    (offence : Offence cs i e) (leftmost : ∀ j e', Inside cs j → Offence cs j e' → i ≤ j) :
    Malformed cs e
  | escapedEnd (framed : Framed cs) (inoffensive : ∀ j e', Inside cs j → ¬ Offence cs j e')
    (escaped : IsEscaped cs (cs.length - 1)) : Malformed cs .unbalanced

variable {before body cs ds more : List Char} {c : Char} {i k : Nat} {e e' : QuotedError}

theorem not_escaping_concat (h : c ≠ '\\') (before : List Char) : ¬ Escaping (before ++ [c]) := by
  rw [Escaping, List.rtakeWhile_concat_neg _ _ _ (by simpa using h)]
  exact Nat.not_odd_zero

theorem escaping_concat_backslash : Escaping (before ++ ['\\']) ↔ ¬ Escaping before := by
  rw [Escaping, List.rtakeWhile_concat_pos _ _ _ rfl, List.length_append]
  exact Nat.odd_add_one

theorem not_escaping_concat_escape (h : ¬ Escaping before) (c : Char) :
    ¬ Escaping (before ++ ['\\', c]) := by
  have hsplit : before ++ ['\\', c] = before ++ ['\\'] ++ [c] := by simp
  rw [hsplit]
  by_cases hc : c = '\\'
  · rw [hc, escaping_concat_backslash]
    exact not_not_intro (escaping_concat_backslash.mpr h)
  · exact not_escaping_concat hc _

theorem not_escaping_quote : ¬ Escaping ['"'] :=
  not_escaping_concat (by decide) []

/-- Behind whole pieces of a quoted token a character is escaped only if it is in front of them. -/
theorem not_escaping_body (h : QuotedBody body) (free : ¬ Escaping before) :
    ¬ Escaping (before ++ body) := by
  induction h generalizing before with
  | nil => simpa using free
  | plain _ hb _ ih => simpa using ih (not_escaping_concat hb before)
  | @escaped c _ _ _ ih => simpa using ih (not_escaping_concat_escape free c)

theorem escaping_of_quote (h : QuotedBody body) (free : ¬ Escaping before)
    (quote : body[k]? = some '"') : Escaping (before ++ body.take k) := by
  induction h generalizing before k with
  | nil => simp at quote
  | plain hq hb _ ih =>
    match k with
    | 0 => exact absurd (Option.some.inj quote) hq
    | k + 1 => simpa using ih (not_escaping_concat hb before) quote
  | @escaped c _ _ _ ih =>
    match k with
    | 0 => exact absurd (Option.some.inj quote) (by decide)
    | 1 => simpa using escaping_concat_backslash.mpr free
    | k + 2 => simpa using ih (not_escaping_concat_escape free c) quote

theorem Stands.unescapes (h : Stands body ds) (free : ¬ Escaping before)
    (char : body[k]? = some c) (escaped : Escaping (before ++ body.take k)) :
    unescapeChar c ≠ none := by
  induction h generalizing before k with
  | nil => simp at char
  | plain _ hb _ ih =>
    match k with
    | 0 => exact absurd (by simpa using escaped) free
    | k + 1 => exact ih (not_escaping_concat hb before) char (by simpa using escaped)
  | @escaped d _ _ _ hd _ ih =>
    match k with
    | 0 => exact absurd (by simpa using escaped) free
    | 1 => simp [← Option.some.inj char, hd]
    | k + 2 => exact ih (not_escaping_concat_escape free d) char (by simpa using escaped)

theorem unescapeChar_eq_none : unescapeChar c = none ↔ c ∉ ['t', 'n', 'r', '\\', '"'] := by
  unfold unescapeChar
  split <;> simp_all

theorem framed_iff : Framed cs ↔ ∃ inner, cs = '"' :: (inner ++ ['"']) := by
  constructor
  · rintro ⟨long, first, last⟩
    obtain ⟨ds, rfl⟩ := List.head?_eq_some_iff.mp first
    obtain ⟨inner, hinner⟩ := List.getLast?_eq_some_iff.mp last
    cases inner with
    | nil =>
      obtain ⟨-, rfl⟩ := List.cons.inj hinner
      simp at long
    | cons d inner =>
      obtain ⟨-, rfl⟩ := List.cons.inj hinner
      exact ⟨inner, rfl⟩
  · rintro ⟨inner, rfl⟩
    refine ⟨by simp, rfl, ?_⟩
    exact List.getLast?_concat (l := '"' :: inner)

theorem Offence.unique (h : Offence cs i e) (h' : Offence cs i e') : e = e' := by
  cases h with
  | escape char escaped =>
    cases h' with
    | escape char' => rw [Option.some.inj (char.symm.trans char')]
    | quote _ free => exact absurd escaped free
  | quote _ free =>
    cases h' with
    | escape _ escaped => exact absurd escaped free
    | quote => rfl

theorem Malformed.unique (h : Malformed cs e) (h' : Malformed cs e') : e = e' := by
  cases h with
  | unframed unframed =>
    cases h' with
    | unframed | escapedEnd => rfl
    | offence framed => exact absurd framed unframed
  | offence framed inside offence leftmost =>
    cases h' with
    | unframed unframed => exact absurd framed unframed
    | offence _ inside' offence' leftmost' =>
      have hle := leftmost _ _ inside' offence'
      have hge := leftmost' _ _ inside offence
      obtain rfl := Nat.le_antisymm hle hge
      exact offence.unique offence'
    | escapedEnd _ inoffensive => exact absurd offence (inoffensive _ _ inside)
  | escapedEnd _ inoffensive =>
    cases h' with
    | unframed | escapedEnd => rfl
    | offence _ inside offence => exact absurd offence (inoffensive _ _ inside)

theorem isEscaped_succ (hk : k ≤ body.length) (more : List Char) :
    IsEscaped ('"' :: (body ++ more)) (k + 1) ↔ Escaping (['"'] ++ body.take k) := by
  rw [IsEscaped, List.take_succ_cons, List.take_append_of_le_length hk]
  rfl

theorem isEscaped_last (body : List Char) :
    IsEscaped ('"' :: (body ++ ['"'])) (('"' :: (body ++ ['"'])).length - 1) ↔ Escaping (['"'] ++ body) := by
  have hlength : ('"' :: (body ++ ['"'])).length - 1 = body.length + 1 := by simp
  rw [hlength, isEscaped_succ (Nat.le_refl _), List.take_length]

theorem inside_iff : Inside ('"' :: (body ++ ['"'])) i ↔ 0 < i ∧ i ≤ body.length := by
  simp only [Inside, List.length_cons, List.length_append, List.length_nil]
  omega

theorem Stands.not_escaped (h : Stands body ds) (more : List Char) :
    ¬ IsEscaped ('"' :: (body ++ more)) (body.length + 1) := by
  rw [isEscaped_succ (Nat.le_refl _), List.take_length]
  exact not_escaping_body h.quotedBody not_escaping_quote

/-- There is no offence in what stands for a text. -/
theorem Stands.inoffensive (h : Stands body ds) (hi : 0 < i) (hle : i ≤ body.length) :
    ¬ Offence ('"' :: (body ++ more)) i e := by
  obtain ⟨k, rfl⟩ := Nat.exists_eq_add_one.mpr hi
  have hk : k < body.length := hle
  have hchar : ('"' :: (body ++ more))[k + 1]? = body[k]? := List.getElem?_append_left hk
  intro hoffence
  cases hoffence with
  | escape char escaped unknown =>
    rw [isEscaped_succ hk.le] at escaped
    have hknown := h.unescapes not_escaping_quote (hchar ▸ char) escaped
    exact hknown (unescapeChar_eq_none.mpr unknown)
  | quote char free =>
    rw [isEscaped_succ hk.le] at free
    exact free (escaping_of_quote h.quotedBody not_escaping_quote (hchar ▸ char))

theorem Stands.inoffensive_backslash (h : Stands body ds) (more : List Char) (e : QuotedError) :
    ¬ Offence ('"' :: (body ++ '\\' :: more)) (body.length + 1) e := by
  have hchar : ('"' :: (body ++ '\\' :: more))[body.length + 1]? = some '\\' := by simp
  intro hoffence
  cases hoffence with
  | escape _ escaped => exact h.not_escaped _ escaped
  | quote char => exact absurd (hchar.symm.trans char) (by decide)

theorem Stands.not_malformed (h : Stands body ds) : ¬ Malformed ('"' :: (body ++ ['"'])) e := by
  intro hmalformed
  cases hmalformed with
  | unframed unframed => exact unframed (framed_iff.mpr ⟨body, rfl⟩)
  | offence _ inside offence =>
    obtain ⟨hpos, hle⟩ := inside_iff.mp inside
    exact h.inoffensive hpos hle offence
  | escapedEnd _ _ escaped =>
    exact not_escaping_body h.quotedBody not_escaping_quote ((isEscaped_last body).mp escaped)

theorem Stands.malformed_escapedEnd (h : Stands body ds) :
    Malformed ('"' :: (body ++ ['\\'] ++ ['"'])) .unbalanced := by
  refine .escapedEnd (framed_iff.mpr ⟨_, rfl⟩) (fun j e' inside => ?_) ?_
  · obtain ⟨hpos, hle⟩ := inside_iff.mp inside
    rw [List.length_append, List.length_singleton] at hle
    rw [List.append_assoc]
    obtain hj | rfl : j ≤ body.length ∨ j = body.length + 1 := by omega
    · exact h.inoffensive hpos hj
    · exact h.inoffensive_backslash ['"'] e'
  · rw [isEscaped_last, ← List.append_assoc]
    exact escaping_concat_backslash.mpr (not_escaping_body h.quotedBody not_escaping_quote)

theorem Stands.malformed_badEscape (h : Stands body ds) (unknown : unescapeChar c = none) :
    Malformed ('"' :: (body ++ '\\' :: c :: more ++ ['"'])) (.invalidEscape c) := by
  have hsplit : '"' :: (body ++ '\\' :: c :: more ++ ['"']) =
      '"' :: (body ++ ['\\'] ++ c :: (more ++ ['"'])) := by simp
  have hescaping := escaping_concat_backslash.mpr (not_escaping_body h.quotedBody not_escaping_quote)
  refine .offence (i := body.length + 2) (framed_iff.mpr ⟨_, rfl⟩) ⟨by omega, by simp⟩ ?_ ?_
  · refine .escape (by simp) ?_ (unescapeChar_eq_none.mp unknown)
    have hescaped := isEscaped_succ (Nat.le_refl (body ++ ['\\']).length) (c :: (more ++ ['"']))
    rw [List.take_length, ← List.append_assoc] at hescaped
    rw [hsplit]
    simpa using hescaped.mpr hescaping
  · intro j e' inside offence
    by_contra hlt
    rw [List.append_assoc] at offence
    obtain hj | rfl : j ≤ body.length ∨ j = body.length + 1 := by omega
    · exact h.inoffensive inside.1 hj offence
    · exact h.inoffensive_backslash _ e' offence

theorem Stands.malformed_innerQuote (h : Stands body ds) :
    Malformed ('"' :: (body ++ '"' :: more ++ ['"'])) (.unexpectedEnd (body.length + 1)) := by
  refine .offence (i := body.length + 1) (framed_iff.mpr ⟨_, rfl⟩) ⟨by omega, by simp⟩ ?_ ?_
  · rw [List.append_assoc]
    exact .quote (by simp) (h.not_escaped _)
  · intro j e' inside offence
    by_contra hlt
    rw [List.append_assoc] at offence
    exact h.inoffensive inside.1 (by omega) offence

theorem decode_of_unframed {raw : String} (h : ¬ Framed raw.toList) :
    decode raw = .error .unbalanced := by
  unfold decode
  split
  · next cs hraw =>
    split
    · next hlast =>
      refine absurd (framed_iff.mpr ⟨cs.dropLast, ?_⟩) h
      rw [hraw, List.dropLast_append_getLast? '"' hlast]
    · rfl
  · rfl

/-- A text is a quoted string, or it is malformed and fails for that reason. -/
theorem denotes_or_malformed (raw : String) :
    (∃ text, Denotes raw text) ∨ ∃ e, Malformed raw.toList e ∧ decode raw = .error e := by
  by_cases hframed : Framed raw.toList
  · obtain ⟨inner, hraw⟩ := framed_iff.mp hframed
    rw [hraw]
    obtain ⟨ds, hds⟩ | ⟨body, ds, rest, hstands, rfl, hrest⟩ := stands_or_stuck inner
    · exact .inl ⟨String.ofList ds, inner, hraw, by simpa using hds⟩
    · obtain rfl | ⟨c, more, rfl, unknown⟩ | ⟨more, rfl⟩ := hrest
      · have hdecode := (Faulty.escapedQuote hraw hstands).decode
        exact .inr ⟨_, hstands.malformed_escapedEnd, hdecode⟩
      · have hdecode := (Faulty.badEscape hraw hstands unknown).decode
        exact .inr ⟨_, hstands.malformed_badEscape unknown, hdecode⟩
      · have hdecode := (Faulty.innerQuote hraw hstands).decode
        rw [Nat.add_comm] at hdecode
        exact .inr ⟨_, hstands.malformed_innerQuote, hdecode⟩
  · exact .inr ⟨_, .unframed hframed, decode_of_unframed hframed⟩

theorem Denotes.not_malformed {raw text : String} (h : Denotes raw text) :
    ¬ Malformed raw.toList e := by
  obtain ⟨body, hraw, hstands⟩ := h
  rw [hraw]
  exact hstands.not_malformed

theorem decode_eq_ok {raw text : String} : decode raw = .ok text ↔ Denotes raw text := by
  refine ⟨fun h => ?_, Denotes.decode⟩
  obtain ⟨text', htext⟩ | ⟨e, -, herror⟩ := denotes_or_malformed raw
  · exact Except.ok.inj (htext.decode.symm.trans h) ▸ htext
  · exact nomatch herror.symm.trans h

theorem decode_eq_error {raw : String} : decode raw = .error e ↔ Malformed raw.toList e := by
  obtain ⟨text, htext⟩ | ⟨e', hmalformed, herror⟩ := denotes_or_malformed raw
  · refine iff_of_false (fun h => ?_) htext.not_malformed
    exact nomatch htext.decode.symm.trans h
  · constructor
    · intro h
      exact Except.error.inj (herror.symm.trans h) ▸ hmalformed
    · intro h
      exact hmalformed.unique h ▸ herror

end Quoted

end Lisp
