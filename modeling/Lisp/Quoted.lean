/-! Quoted text: the written form of a string. A quote, a backslash, a tab, a line feed and a carriage
return are escaped when a string is written. When it is read, the three white-space characters may also
stand for themselves. -/

namespace Lisp

inductive QuotedError
  | unbalanced
  | unexpectedEnd (position : Nat)
  | invalidEscape (c : Char)
  deriving DecidableEq, Repr

def QuotedError.message : QuotedError → String
  | .unbalanced => "unbalanced string"
  | .unexpectedEnd position => s!"Unexpected end of string (at position {position})"
  | .invalidEscape c => s!"Invalid escaped character '{c}'"

namespace Quoted

def escapeChar : Char → List Char
  | '\\' => ['\\', '\\']
  | '"' => ['\\', '"']
  | '\t' => ['\\', 't']
  | '\n' => ['\\', 'n']
  | '\r' => ['\\', 'r']
  | c => [c]

def unescapeChar : Char → Option Char
  | 't' => some '\t'
  | 'n' => some '\n'
  | 'r' => some '\r'
  | '\\' => some '\\'
  | '"' => some '"'
  | _ => none

def escape (text : String) : String :=
  String.ofList (text.toList.flatMap escapeChar)

def encode (text : String) : String :=
  "\"" ++ escape text ++ "\""

/-- Reads what stands between the quotes. The first of these characters is the one at `position` of the
whole text, and those read before it are `done`, last first. -/
def decodeBody (position : Nat) (done : List Char) : List Char → Except QuotedError (List Char)
  | [] => .ok done.reverse
  | ['\\'] => .error .unbalanced
  | '\\' :: c :: cs =>
    match unescapeChar c with
    | some d => decodeBody (position + 2) (d :: done) cs
    | none => .error (.invalidEscape c)
  | '"' :: _ => .error (.unexpectedEnd position)
  | c :: cs => decodeBody (position + 1) (c :: done) cs

def decode (raw : String) : Except QuotedError String :=
  match raw.toList with
  | '"' :: cs =>
    if cs.getLast? = some '"' then (decodeBody 1 [] cs.dropLast).map String.ofList
    else .error .unbalanced
  | _ => .error .unbalanced

end Quoted

end Lisp
