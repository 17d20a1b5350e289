import Lisp.Token.Lexer
import Lisp.Quoted

/-! The written form of a string is cut from a text as one token and is read back as the string. -/

namespace Lisp

namespace Quoted

theorem escapeChar_cases (c : Char) :
    (escapeChar c = [c] ∧ c ≠ '\\' ∧ c ≠ '"') ∨
      ∃ d, escapeChar c = ['\\', d] ∧ unescapeChar d = some c ∧ d ≠ '\n' := by
  by_cases hb : c = '\\'
  · subst hb; exact .inr ⟨'\\', rfl, rfl, by decide⟩
  by_cases hq : c = '"'
  · subst hq; exact .inr ⟨'"', rfl, rfl, by decide⟩
  by_cases ht : c = '\t'
  · subst ht; exact .inr ⟨'t', rfl, rfl, by decide⟩
  by_cases hn : c = '\n'
  · subst hn; exact .inr ⟨'n', rfl, rfl, by decide⟩
  by_cases hr : c = '\r'
  · subst hr; exact .inr ⟨'r', rfl, rfl, by decide⟩
  refine .inl ⟨?_, hb, hq⟩
  simp [escapeChar]

theorem decodeBody_plain {c : Char} (hb : c ≠ '\\') (hq : c ≠ '"') (position : Nat)
    (done cs : List Char) :
    decodeBody position done (c :: cs) = decodeBody (position + 1) (c :: done) cs := by
  rw [decodeBody.eq_def]
  split <;> simp_all

theorem decodeBody_escaped {c d : Char} (h : unescapeChar d = some c) (position : Nat)
    (done cs : List Char) :
    decodeBody position done ('\\' :: d :: cs) = decodeBody (position + 2) (c :: done) cs := by
  simp [decodeBody, h]

theorem decodeBody_escape (text : List Char) (position : Nat) (done : List Char) :
    decodeBody position done (text.flatMap escapeChar) = .ok (done.reverse ++ text) := by
  induction text generalizing position done with
  | nil => simp [decodeBody]
  | cons c cs ih =>
    rw [List.flatMap_cons]
    rcases escapeChar_cases c with ⟨he, hb, hq⟩ | ⟨d, he, hd, -⟩
    · rw [he, List.singleton_append, decodeBody_plain hb hq, ih]
      simp
    · rw [he, List.cons_append, List.singleton_append, decodeBody_escaped hd, ih]
      simp

theorem toList_encode (text : String) :
    (encode text).toList = '"' :: (text.toList.flatMap escapeChar ++ ['"']) := by
  simp [encode, escape]

theorem decode_encode (text : String) : decode (encode text) = .ok text := by
  rw [decode, toList_encode]
  simp [decodeBody_escape, Except.map]

end Quoted

theorem quotedSpan_plain {c : Char} (hb : c ≠ '\\') (hq : c ≠ '"') (taken cs : List Char) :
    quotedSpan taken (c :: cs) = quotedSpan (c :: taken) cs := by
  rw [quotedSpan.eq_def]
  split <;> simp_all

theorem quotedSpan_escaped {d : Char} (hd : d ≠ '\n') (taken cs : List Char) :
    quotedSpan taken ('\\' :: d :: cs) = quotedSpan (d :: '\\' :: taken) cs := by
  simp [quotedSpan, hd]

/-- A quoted token ends with the quote that ends the written form of a string, whatever follows. -/
theorem quotedSpan_escape (text taken rest : List Char) :
    quotedSpan taken (text.flatMap Quoted.escapeChar ++ '"' :: rest) =
      (taken.reverse ++ text.flatMap Quoted.escapeChar ++ ['"'], rest) := by
  induction text generalizing taken with
  | nil => simp [quotedSpan]
  | cons c cs ih =>
    rw [List.flatMap_cons, List.append_assoc]
    rcases Quoted.escapeChar_cases c with ⟨he, hb, hq⟩ | ⟨d, he, -, hd⟩
    · rw [he, List.singleton_append, quotedSpan_plain hb hq, ih]
      simp
    · rw [he, List.cons_append, List.singleton_append, quotedSpan_escaped hd, ih]
      simp

end Lisp
