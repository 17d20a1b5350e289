import Lisp.Proofs.Reading
import Mathlib.Algebra.Ring.Int.Defs

/-! What the text of a scalar stands for: which texts are numerals and which integers they denote,
which are quoted strings and of what, and what becomes of all others. -/

namespace Lisp

namespace Numeral

/-- The integer that a numeral is written for. -/
inductive Denotes : List Char → Int → Prop
  | digits {ds : List Char} (hne : ds ≠ []) (hds : ∀ d ∈ ds, d.isDigit = true) :
    Denotes ds (Nat.ofDigitChars 10 ds 0)
  | minus {ds : List Char} (hne : ds ≠ []) (hds : ∀ d ∈ ds, d.isDigit = true) :
    Denotes ('-' :: ds) (-(Nat.ofDigitChars 10 ds 0 : Int))

theorem isNumeral_iff {cs : List Char} : IsNumeral cs ↔ ∃ n, Denotes cs n := by
  constructor
  · rintro ⟨ds, hne, hds, rfl | rfl⟩
    · exact ⟨_, .digits hne hds⟩
    · exact ⟨_, .minus hne hds⟩
  · rintro ⟨n, h⟩
    cases h with
    | digits hne hds => exact ⟨cs, hne, hds, .inl rfl⟩
    | minus hne hds => exact ⟨_, hne, hds, .inr rfl⟩

theorem Denotes.value? {cs : List Char} {n : Int} (h : Denotes cs n) : value? cs = some n := by
  cases h with
  | digits hne hds => exact value?_digits (isDigits_iff.mpr ⟨hne, hds⟩)
  | minus hne hds => exact value?_minus (isDigits_iff.mpr ⟨hne, hds⟩)

end Numeral

namespace Quoted

/-- What stands between the quotes of a string, and the characters that it stands for. -/
inductive Stands : List Char → List Char → Prop
  | nil : Stands [] []
  | plain {c : Char} {cs ds : List Char} (hq : c ≠ '"') (hb : c ≠ '\\') (more : Stands cs ds) :
    Stands (c :: cs) (c :: ds)
  | escaped {c d : Char} {cs ds : List Char} (escape : unescapeChar c = some d)
    (more : Stands cs ds) : Stands ('\\' :: c :: cs) (d :: ds)

/-- A quoted string, with both quotes, for a text. -/
def Denotes (raw text : String) : Prop :=
  ∃ body, raw.toList = '"' :: (body ++ ['"']) ∧ Stands body text.toList

/-- Why a text is no quoted string, when it begins with a quote: the closing quote is missing or escaped, a
backslash escapes nothing, or the quote is closed before the end. -/
inductive Faulty (raw : String) : QuotedError → Prop
  | unclosed (quote : raw.toList.head? = some '"') (last : raw.toList.tail.getLast? ≠ some '"') :
    Faulty raw .unbalanced
  | escapedQuote {body ds : List Char} (text : raw.toList = '"' :: (body ++ ['\\'] ++ ['"']))
    (stands : Stands body ds) : Faulty raw .unbalanced
  | badEscape {body ds more : List Char} {c : Char}
    (text : raw.toList = '"' :: (body ++ '\\' :: c :: more ++ ['"'])) (stands : Stands body ds)
    (escape : unescapeChar c = none) : Faulty raw (.invalidEscape c)
  | innerQuote {body ds more : List Char} (text : raw.toList = '"' :: (body ++ '"' :: more ++ ['"']))
    (stands : Stands body ds) : Faulty raw (.unexpectedEnd (1 + body.length))

theorem Stands.decodeBody_append {cs ds : List Char} (h : Stands cs ds) (position : Nat)
    (done more : List Char) :
    decodeBody position done (cs ++ more) =
      decodeBody (position + cs.length) (ds.reverse ++ done) more := by
  induction h generalizing position done with
  | nil => rfl
  | plain hq hb _ ih =>
    rw [List.cons_append, decodeBody_plain hb hq, ih]
    simp [Nat.add_assoc, Nat.add_comm 1]
  | escaped escape _ ih =>
    rw [List.cons_append, List.cons_append, decodeBody_escaped escape, ih]
    simp [Nat.add_assoc, Nat.add_comm 2]

theorem Stands.decodeBody {cs ds : List Char} (h : Stands cs ds) (position : Nat)
    (done : List Char) : decodeBody position done cs = .ok (done.reverse ++ ds) := by
  have happend := h.decodeBody_append position done []
  simpa [Quoted.decodeBody] using happend

/-- Text between quotes stands for a text, or it does up to where it can not go on. -/
theorem stands_or_stuck (cs : List Char) :
    (∃ ds, Stands cs ds) ∨ ∃ body ds rest, Stands body ds ∧ cs = body ++ rest ∧
      (rest = ['\\'] ∨ (∃ c more, rest = '\\' :: c :: more ∧ unescapeChar c = none) ∨
        ∃ more, rest = '"' :: more) := by
  match cs with
  | [] => exact .inl ⟨[], .nil⟩
  | c :: cs =>
    by_cases hb : c = '\\'
    · subst hb
      match cs with
      | [] => exact .inr ⟨[], [], _, .nil, rfl, .inl rfl⟩
      | c :: cs =>
        cases hc : unescapeChar c with
        | none => exact .inr ⟨[], [], _, .nil, rfl, .inr (.inl ⟨c, cs, rfl, hc⟩)⟩
        | some d =>
          obtain ⟨ds, hds⟩ | ⟨body, ds, rest, hstands, rfl, hrest⟩ := stands_or_stuck cs
          · exact .inl ⟨d :: ds, .escaped hc hds⟩
          · exact .inr ⟨_, d :: ds, rest, .escaped hc hstands, rfl, hrest⟩
    · by_cases hq : c = '"'
      · exact .inr ⟨[], [], _, .nil, rfl, .inr (.inr ⟨cs, by rw [hq]⟩)⟩
      · obtain ⟨ds, hds⟩ | ⟨body, ds, rest, hstands, rfl, hrest⟩ := stands_or_stuck cs
        · exact .inl ⟨c :: ds, .plain hq hb hds⟩
        · exact .inr ⟨_, c :: ds, rest, .plain hq hb hstands, rfl, hrest⟩

theorem decode_of_quotes {raw : String} {inner : List Char}
    (h : raw.toList = '"' :: (inner ++ ['"'])) :
    decode raw = (decodeBody 1 [] inner).map String.ofList := by
  rw [decode, h]
  simp

theorem decode_of_unclosed {raw : String} (h : raw.toList.tail.getLast? ≠ some '"') :
    decode raw = .error .unbalanced := by
  unfold decode
  split
  · next cs hraw =>
    rw [hraw, List.tail_cons] at h
    rw [if_neg h]
  · rfl

theorem Faulty.decode {raw : String} {e : QuotedError} (h : Faulty raw e) :
    decode raw = .error e := by
  cases h with
  | unclosed _ last => exact decode_of_unclosed last
  | escapedQuote text stands =>
    rw [decode_of_quotes text, stands.decodeBody_append]
    rfl
  | badEscape text stands escape =>
    rw [decode_of_quotes text, stands.decodeBody_append]
    simp [decodeBody, escape, Except.map]
  | innerQuote text stands =>
    rw [decode_of_quotes text, stands.decodeBody_append]
    rfl

theorem denotes_or_faulty {raw : String} (h : raw.toList.head? = some '"') :
    (∃ text, Denotes raw text) ∨ ∃ e, Faulty raw e := by
  obtain ⟨cs, hraw⟩ := List.head?_eq_some_iff.mp h
  by_cases hlast : cs.getLast? = some '"'
  · obtain ⟨inner, rfl⟩ : ∃ inner, cs = inner ++ ['"'] :=
      ⟨cs.dropLast, (List.dropLast_append_getLast? '"' hlast).symm⟩
    obtain ⟨ds, hds⟩ | ⟨body, ds, rest, hstands, rfl, hrest⟩ := stands_or_stuck inner
    · exact .inl ⟨String.ofList ds, inner, hraw, by simpa using hds⟩
    · obtain rfl | ⟨c, more, rfl, hescape⟩ | ⟨more, rfl⟩ := hrest
      · exact .inr ⟨_, .escapedQuote hraw hstands⟩
      · exact .inr ⟨_, .badEscape hraw hstands hescape⟩
      · exact .inr ⟨_, .innerQuote hraw hstands⟩
  · exact .inr ⟨_, .unclosed h (by rwa [hraw])⟩

theorem Denotes.decode {raw text : String} (h : Denotes raw text) : decode raw = .ok text := by
  obtain ⟨body, hraw, hstands⟩ := h
  rw [decode_of_quotes hraw, hstands.decodeBody]
  simp [Except.map]

theorem Denotes.head {raw text : String} (h : Denotes raw text) :
    raw.toList.head? = some '"' := by
  obtain ⟨body, hraw, -⟩ := h
  rw [hraw]
  rfl

theorem Faulty.head {raw : String} {e : QuotedError} (h : Faulty raw e) :
    raw.toList.head? = some '"' := by
  cases h with
  | unclosed quote => exact quote
  | escapedQuote text | badEscape text | innerQuote text =>
    rw [text]
    rfl

end Quoted

/-- What a text stands for, when it is no bracket, no mark and no comment. -/
inductive Classifies : String → Value → Prop
  | nil : Classifies "nil" .nil
  | true : Classifies "true" (.bool true)
  | false : Classifies "false" (.bool false)
  | int {text : String} {n : Int64} (numeral : Numeral.Denotes text.toList n.toInt) :
    Classifies text (.int n)
  | str {raw text : String} (quoted : Quoted.Denotes raw text) : Classifies raw (.str text)
  | keyword {name : String} (nonempty : name ≠ "") : Classifies (":" ++ name) (.keyword name)
  | symbol {name : String} (noConstant : name ≠ "nil" ∧ name ≠ "true" ∧ name ≠ "false")
    (noNumeral : ∀ n, ¬ Numeral.Denotes name.toList n) (noQuote : name.toList.head? ≠ some '"')
    (noKeyword : name = ":" ∨ name.toList.head? ≠ some ':') : Classifies name (.symbol name)

/-- Why a text stands for nothing: it is a numeral beyond the range of integers, or it begins as a
quoted string and is none. -/
inductive Misread : String → ReadError → Prop
  | range {text : String} {n : Int} (numeral : Numeral.Denotes text.toList n)
    (outside : n < -2 ^ 63 ∨ 2 ^ 63 ≤ n) : Misread text (.integerOutOfRange text)
  | quoted {text : String} {e : QuotedError} (fault : Quoted.Faulty text e) :
    Misread text (.quoted e)

theorem readScalar_of_range {text : String} {n : Int} (h : Numeral.value? text.toList = some n)
    (hn : integer? n = none) : readScalar text = .error (.integerOutOfRange text) := by
  unfold readScalar
  split
  case h_4 => simp [h, hn]
  all_goals cases h.symm.trans (by decide : Numeral.value? _ = none)

theorem readScalar_of_quote {text : String} (h : text.toList.head? = some '"') :
    readScalar text = match Quoted.decode text with
      | .ok text => .ok (.str text)
      | .error error => .error (.quoted error) := by
  obtain ⟨cs, hcs⟩ := List.head?_eq_some_iff.mp h
  unfold readScalar
  split
  case h_4 =>
    rw [hcs, value?_eq_none_of_head (by decide) (by decide)]
    cases Quoted.decode text <;> rfl
  all_goals exact absurd (List.cons.inj hcs).1 (by decide)

theorem Classifies.readScalar {text : String} {v : Value} (h : Classifies text v) :
    readScalar text = .ok v := by
  cases h with
  | nil | true | false => rfl
  | int numeral => exact readScalar_numeral numeral.value? (integer?_toInt _)
  | str quoted =>
    rw [readScalar_of_quote quoted.head, quoted.decode]
  | keyword nonempty => exact readScalar_keyword nonempty
  | symbol noConstant noNumeral noQuote noKeyword =>
    obtain ⟨hn, ht, hf⟩ := noConstant
    have hnumeral := fun h => not_exists.mpr noNumeral (Numeral.isNumeral_iff.mp h)
    exact readScalar_symbol hn ht hf hnumeral noQuote noKeyword

theorem Misread.readScalar {text : String} {e : ReadError} (h : Misread text e) :
    readScalar text = .error e := by
  cases h with
  | range numeral outside => exact readScalar_of_range numeral.value? (integer?_eq_none.mpr outside)
  | quoted fault => rw [readScalar_of_quote fault.head, fault.decode]

/-- Every text stands for a value, or there is a reason why it does not. -/
theorem classifies_or_misread (text : String) :
    (∃ v, Classifies text v) ∨ ∃ e, Misread text e := by
  by_cases hconstant : text ≠ "nil" ∧ text ≠ "true" ∧ text ≠ "false"
  · by_cases hnumeral : ∃ n, Numeral.Denotes text.toList n
    · obtain ⟨n, hn⟩ := hnumeral
      cases hinteger : integer? n with
      | none => exact .inr ⟨_, .range hn (integer?_eq_none.mp hinteger)⟩
      | some m => exact .inl ⟨.int m, .int (integer?_eq_some.mp hinteger ▸ hn)⟩
    · by_cases hquote : text.toList.head? = some '"'
      · obtain ⟨content, hcontent⟩ | ⟨e, he⟩ := Quoted.denotes_or_faulty hquote
        · exact .inl ⟨.str content, .str hcontent⟩
        · exact .inr ⟨.quoted e, .quoted he⟩
      · have noNumeral := not_exists.mp hnumeral
        by_cases hkeyword : text = ":" ∨ text.toList.head? ≠ some ':'
        · exact .inl ⟨.symbol text, .symbol hconstant noNumeral hquote hkeyword⟩
        · obtain ⟨hcolon, hhead⟩ := not_or.mp hkeyword
          obtain ⟨cs, hcs⟩ := List.head?_eq_some_iff.mp (not_not.mp hhead)
          have htext : text = ":" ++ String.ofList cs := by
            rw [← String.toList_inj, hcs]
            simp
          have hname : String.ofList cs ≠ "" := by
            intro hempty
            exact hcolon (by rw [htext, hempty]; rfl)
          rw [htext]
          exact .inl ⟨.keyword _, .keyword hname⟩
  · by_cases hn : text = "nil"
    · exact .inl ⟨.nil, by rw [hn]; exact .nil⟩
    · by_cases ht : text = "true"
      · exact .inl ⟨.bool true, by rw [ht]; exact .true⟩
      · have hf : text = "false" := not_not.mp fun hf => hconstant ⟨hn, ht, hf⟩
        exact .inl ⟨.bool false, by rw [hf]; exact .false⟩

theorem readScalar_eq_ok {text : String} {v : Value} :
    readScalar text = .ok v ↔ Classifies text v := by
  refine ⟨fun h => ?_, Classifies.readScalar⟩
  obtain ⟨w, hw⟩ | ⟨e, he⟩ := classifies_or_misread text
  · exact Except.ok.inj (hw.readScalar.symm.trans h) ▸ hw
  · exact nomatch he.readScalar.symm.trans h

end Lisp
