/-! Tokens: the pieces of text that forms are read from. A token keeps the text it was cut from,
so a quoted token is still escaped, and may lack its closing quote. -/

namespace Lisp

inductive Bracket
  | round
  | square
  | curly
  deriving DecidableEq, Repr

def Bracket.opener : Bracket → Char
  | .round => '('
  | .square => '['
  | .curly => '\x7b'

def Bracket.closer : Bracket → Char
  | .round => ')'
  | .square => ']'
  | .curly => '\x7d'

/-- A sign that wraps the form after it. -/
inductive Marker
  | quote
  | quasiquote
  | unquote
  | spliceUnquote
  | deref
  deriving DecidableEq, Repr

def Marker.symbolName : Marker → String
  | .quote => "quote"
  | .quasiquote => "quasiquote"
  | .unquote => "unquote"
  | .spliceUnquote => "splice-unquote"
  | .deref => "deref"

inductive TokenSort
  | opening (bracket : Bracket)
  | closing (bracket : Bracket)
  | marker (marker : Marker)
  | caret
  | quoted
  | comment
  | word
  deriving DecidableEq, Repr

structure Token where
  sort : TokenSort
  text : String
  deriving DecidableEq, Repr

def Token.isComment (t : Token) : Bool :=
  t.sort == .comment

end Lisp
