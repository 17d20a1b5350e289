import Lisp.Blank
import Lisp.Token

/-! A text is cut into tokens from the left, each as long as it can be. Separators between tokens are
dropped. Every other character starts some token, so every text has tokens. -/

namespace Lisp

def isWordChar (c : Char) : Bool :=
  !(isSeparator c || c ∈ ['[', ']', '\x7b', '\x7d', '(', ')', '\'', '"', '`', ';'])

def isWordStart (c : Char) : Bool :=
  isWordChar c && !(c ∈ ['~', '^', '@'])

/-- What a quoted token takes after its opening quote, and what it leaves. It ends with the first
quote that no backslash escapes. A backslash before a line feed or before the end of the text escapes
nothing, and the token ends in front of it. -/
def quotedSpan (taken : List Char) : List Char → List Char × List Char
  | [] => (taken.reverse, [])
  | '"' :: cs => (('"' :: taken).reverse, cs)
  | '\\' :: [] => (taken.reverse, ['\\'])
  | '\\' :: c :: cs =>
    if c = '\n' then (taken.reverse, '\\' :: c :: cs) else quotedSpan (c :: '\\' :: taken) cs
  | c :: cs => quotedSpan (c :: taken) cs

def Token.first (c : Char) (cs : List Char) : Token × List Char :=
  match c with
  | '(' => (⟨.opening .round, "("⟩, cs)
  | ')' => (⟨.closing .round, ")"⟩, cs)
  | '[' => (⟨.opening .square, "["⟩, cs)
  | ']' => (⟨.closing .square, "]"⟩, cs)
  | '\x7b' => (⟨.opening .curly, "\x7b"⟩, cs)
  | '\x7d' => (⟨.closing .curly, "\x7d"⟩, cs)
  | '\'' => (⟨.marker .quote, "'"⟩, cs)
  | '`' => (⟨.marker .quasiquote, "`"⟩, cs)
  | '@' => (⟨.marker .deref, "@"⟩, cs)
  | '^' => (⟨.caret, "^"⟩, cs)
  | '~' =>
    match cs with
    | '@' :: cs => (⟨.marker .spliceUnquote, "~@"⟩, cs)
    | _ => (⟨.marker .unquote, "~"⟩, cs)
  | '"' => (⟨.quoted, String.ofList ('"' :: (quotedSpan [] cs).1)⟩, (quotedSpan [] cs).2)
  | ';' =>
    (⟨.comment, String.ofList (';' :: cs.takeWhile (· != '\n'))⟩, cs.dropWhile (· != '\n'))
  | c => (⟨.word, String.ofList (c :: cs.takeWhile isWordChar)⟩, cs.dropWhile isWordChar)

theorem quotedSpan_length (taken cs : List Char) : (quotedSpan taken cs).2.length ≤ cs.length := by
  fun_induction quotedSpan taken cs <;> simp_all <;> omega

theorem length_dropWhile_le {α : Type} (p : α → Bool) (xs : List α) :
    (xs.dropWhile p).length ≤ xs.length :=
  (List.dropWhile_suffix p).length_le

theorem Token.first_length (c : Char) (cs : List Char) :
    (Token.first c cs).2.length ≤ cs.length := by
  unfold Token.first
  split <;> try exact Nat.le_refl _
  · split <;> simp
  · exact quotedSpan_length [] cs
  · exact length_dropWhile_le _ cs
  · exact length_dropWhile_le _ cs

def tokensOnto (found : List Token) : List Char → List Token
  | [] => found.reverse
  | c :: cs =>
    if isSeparator c then tokensOnto found cs
    else
      have := Token.first_length c cs
      tokensOnto ((Token.first c cs).1 :: found) (Token.first c cs).2
termination_by cs => cs.length

def tokenize (source : String) : List Token :=
  tokensOnto [] source.toList

end Lisp
