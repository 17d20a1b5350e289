import Lisp.Proofs.Numeral
import Lisp.Proofs.Quoted
import Mathlib.Tactic.Tauto

/-! What a piece of text is cut into where it stands in front of a character that ends words, or
at the end of the whole text. -/

namespace Lisp

/-- The characters that no word goes on with: blanks, commas, brackets, quotes and the sign of a
comment. -/
def EndsWord (c : Char) : Prop :=
  isBlank c = true ∨ c ∈ [',', '[', ']', '\x7b', '\x7d', '(', ')', '\'', '"', '`', ';']

instance : DecidablePred EndsWord :=
  fun c => inferInstanceAs (Decidable (isBlank c = true ∨ c ∈ _))

theorem isWordChar_iff {c : Char} : isWordChar c = true ↔ ¬ EndsWord c := by
  simp [isWordChar, isSeparator, EndsWord]
  tauto

theorem isWordStart_iff {c : Char} :
    isWordStart c = true ↔ ¬ EndsWord c ∧ c ∉ ['~', '^', '@'] := by
  simp [isWordStart, isWordChar_iff]

theorem isSeparator_of_isWordChar {c : Char} (h : isWordChar c = true) : isSeparator c = false := by
  cases hs : isSeparator c with
  | false => rfl
  | true => simp [isWordChar, hs] at h

theorem isBlank_of_isDigit {c : Char} (h : c.isDigit = true) : isBlank c = false := by
  simp only [Char.isDigit, Bool.and_eq_true, decide_eq_true_eq, ge_iff_le] at h
  have h₁ : 48 ≤ c.toNat := h.1
  have h₂ : c.toNat ≤ 57 := h.2
  simp [isBlank, blankRanges]
  omega

theorem isWordStart_of_isDigit {c : Char} (h : c.isDigit = true) : isWordStart c = true := by
  refine isWordStart_iff.mpr ⟨?_, ?_⟩
  · rintro (hb | hm)
    · simp [isBlank_of_isDigit h] at hb
    · simp only [List.mem_cons, List.not_mem_nil, or_false] at hm
      rcases hm with rfl | rfl | rfl | rfl | rfl | rfl | rfl | rfl | rfl | rfl | rfl <;>
        exact absurd h (by decide)
  · intro hm
    simp only [List.mem_cons, List.not_mem_nil, or_false] at hm
    rcases hm with rfl | rfl | rfl <;> exact absurd h (by decide)

theorem isWordChar_of_isWordStart {c : Char} (h : isWordStart c = true) : isWordChar c = true :=
  isWordChar_iff.mpr (isWordStart_iff.mp h).1

/-- The text begins with no character that a word goes on with. -/
def Stops (cs : List Char) : Prop :=
  ∀ c ∈ cs.head?, EndsWord c

theorem stops_nil : Stops [] := by
  simp [Stops]

theorem stops_cons {c : Char} (h : EndsWord c) (cs : List Char) : Stops (c :: cs) := by
  simpa [Stops] using h

theorem endsWord_space : EndsWord ' ' := .inl (by decide)

theorem endsWord_closer (b : Bracket) : EndsWord b.closer := by
  cases b <;> exact .inr (by decide)

theorem Stops.takeWhile_append {rest cs : List Char} (h : Stops rest)
    (hcs : ∀ c ∈ cs, isWordChar c = true) : (cs ++ rest).takeWhile isWordChar = cs := by
  rw [List.takeWhile_append_of_pos hcs]
  cases rest with
  | nil => simp
  | cons c rest =>
    have hends := h c (by simp)
    have hword : isWordChar c = false := Bool.eq_false_iff.mpr fun hw => isWordChar_iff.mp hw hends
    simp [hword]

theorem Stops.dropWhile_append {rest cs : List Char} (h : Stops rest)
    (hcs : ∀ c ∈ cs, isWordChar c = true) : (cs ++ rest).dropWhile isWordChar = rest := by
  have hsplit := List.takeWhile_append_dropWhile (p := isWordChar) (l := cs ++ rest)
  rw [h.takeWhile_append hcs] at hsplit
  exact List.append_cancel_left hsplit

theorem tokensOnto_append (found earlier : List Token) (cs : List Char) :
    tokensOnto (found ++ earlier) cs = earlier.reverse ++ tokensOnto found cs := by
  fun_induction tokensOnto found cs with
  | case1 found => simp [tokensOnto]
  | case2 found c cs hs ih => rw [tokensOnto, if_pos hs, ih]
  | case3 found c cs hs hlen ih => rw [tokensOnto, if_neg hs, ← List.cons_append, ih]

def tokensOf (cs : List Char) : List Token :=
  tokensOnto [] cs

theorem tokenize_eq (source : String) : tokenize source = tokensOf source.toList := rfl

@[simp] theorem tokensOf_nil : tokensOf [] = [] := by
  simp [tokensOf, tokensOnto]

theorem tokensOf_separator {c : Char} (h : isSeparator c = true) (cs : List Char) :
    tokensOf (c :: cs) = tokensOf cs := by
  rw [tokensOf, tokensOnto, if_pos h, tokensOf]

theorem tokensOf_cons {c : Char} (h : isSeparator c = false) (cs : List Char) :
    tokensOf (c :: cs) = (Token.first c cs).1 :: tokensOf (Token.first c cs).2 := by
  rw [tokensOf, tokensOnto, if_neg (by simp [h])]
  exact tokensOnto_append [] [_] _

theorem tokensOf_space (cs : List Char) : tokensOf (' ' :: cs) = tokensOf cs :=
  tokensOf_separator (by decide) cs

theorem tokensOf_opener (b : Bracket) (cs : List Char) :
    tokensOf (b.opener :: cs) = ⟨.opening b, String.singleton b.opener⟩ :: tokensOf cs := by
  cases b <;> exact tokensOf_cons (by decide) cs

theorem tokensOf_closer (b : Bracket) (cs : List Char) :
    tokensOf (b.closer :: cs) = ⟨.closing b, String.singleton b.closer⟩ :: tokensOf cs := by
  cases b <;> exact tokensOf_cons (by decide) cs

theorem tokensOf_caret (cs : List Char) : tokensOf ('^' :: cs) = ⟨.caret, "^"⟩ :: tokensOf cs :=
  tokensOf_cons (by decide) cs

theorem Token.first_word {c : Char} (h : isWordStart c = true) (cs : List Char) :
    Token.first c cs =
      (⟨.word, String.ofList (c :: cs.takeWhile isWordChar)⟩, cs.dropWhile isWordChar) := by
  unfold Token.first
  split
  case h_14 => rfl
  all_goals exact absurd h (by decide)

theorem tokensOf_word {c : Char} {cs rest : List Char} (hc : isWordStart c = true)
    (hcs : ∀ d ∈ cs, isWordChar d = true) (hr : Stops rest) :
    tokensOf (c :: cs ++ rest) = ⟨.word, String.ofList (c :: cs)⟩ :: tokensOf rest := by
  have hsep := isSeparator_of_isWordChar (isWordChar_of_isWordStart hc)
  rw [List.cons_append, tokensOf_cons hsep, Token.first_word hc, hr.takeWhile_append hcs,
    hr.dropWhile_append hcs]

theorem tokensOf_encode (text : String) (rest : List Char) :
    tokensOf ((Quoted.encode text).toList ++ rest) =
      ⟨.quoted, Quoted.encode text⟩ :: tokensOf rest := by
  have hspan := quotedSpan_escape text.toList [] rest
  have htext : String.ofList (Quoted.encode text).toList = Quoted.encode text :=
    String.ofList_toList
  rw [Quoted.toList_encode] at htext ⊢
  rw [List.cons_append, List.append_assoc, List.singleton_append, tokensOf_cons (by decide)]
  simp only [Token.first, hspan]
  simp [htext]

end Lisp
