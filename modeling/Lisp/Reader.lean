import Lisp.Token.Lexer
import Lisp.Value.Entries
import Lisp.Value.Printer

/-! Reading forms from tokens. The reader goes through the tokens once and keeps what it is inside of:
brackets that are open and marks that wait for their form. -/

namespace Lisp

inductive ReadError
  | unexpectedEof
  | unexpectedDelimiter (closer : Char)
  | missingMapValue (key : String)
  | integerOutOfRange (text : String)
  | quoted (error : QuotedError)
  deriving DecidableEq, Repr

def ReadError.message : ReadError → String
  | .unexpectedEof => "Unexpected EOF"
  | .unexpectedDelimiter closer => s!"Unexpected '{closer}'"
  | .missingMapValue key => s!"Missing value for key={key}"
  | .integerOutOfRange text => s!"Integer literal out of range: {text}"
  | .quoted error => error.message

def readScalar (text : String) : Except ReadError Value :=
  match text with
  | "nil" => .ok .nil
  | "true" => .ok (.bool true)
  | "false" => .ok (.bool false)
  | _ =>
    match Numeral.value? text.toList with
    | some n =>
      match integer? n with
      | some n => .ok (.int n)
      | none => .error (.integerOutOfRange text)
    | none =>
      match text.toList with
      | '"' :: _ =>
        match Quoted.decode text with
        | .ok text => .ok (.str text)
        | .error error => .error (.quoted error)
      | ':' :: c :: cs => .ok (.keyword (String.ofList (c :: cs)))
      | _ => .ok (.symbol text)

def readEntries : List Value → Except ReadError (List (Value × Value))
  | [] => .ok []
  | [k] => .error (.missingMapValue k.printLiteral)
  | k :: v :: forms => (readEntries forms).map ((k, v) :: ·)

def Bracket.collect (forms : List Value) : Bracket → Except ReadError Value
  | .round => .ok (.list forms)
  | .square => .ok (.vector forms)
  | .curly => (readEntries forms).map Value.mapOfLiterals

def Marker.wrap (m : Marker) (form : Value) : Value :=
  .list [.symbol m.symbolName, form]

/-- What has begun and is not complete: a bracket with the forms read so far, last first, or a mark. -/
inductive Pending
  | opened (bracket : Bracket) (forms : List Value)
  | marked (marker : Marker)

inductive Advance
  /-- The reading goes on inside of what is pending now. -/
  | inside (pending : List Pending)
  /-- The token completes a form that nothing waits for. -/
  | complete (form : Value)
  /-- The token is taken, and no form comes of it. -/
  | fault (e : ReadError)
  /-- The token can not stand here, and is left. -/
  | refusal (e : ReadError)

/-- Gives a complete form to what waits for it. Marks take it until a bracket, if there is one, holds it. -/
def Pending.deliver (form : Value) : List Pending → Advance
  | [] => .complete form
  | .opened b forms :: outer => .inside (.opened b (form :: forms) :: outer)
  | .marked m :: outer => deliver (m.wrap form) outer

def Pending.settle (pending : List Pending) : Except ReadError Value → Advance
  | .ok form => deliver form pending
  | .error e => .fault e

/-- Comments are passed over between the forms of a bracket. Where a form has to stand, a comment is
nil. -/
def Token.advance (t : Token) (pending : List Pending) : Advance :=
  match t.sort, pending with
  | .comment, .opened _ _ :: _ => .inside pending
  | .comment, _ => Pending.deliver .nil pending
  | .opening b, _ => .inside (.opened b [] :: pending)
  | .marker m, _ => .inside (.marked m :: pending)
  | .closing b, .opened c forms :: outer =>
    if b = c then Pending.settle outer (b.collect forms.reverse)
    else .refusal (.unexpectedDelimiter b.closer)
  | .closing b, _ => .refusal (.unexpectedDelimiter b.closer)
  | .caret, _ | .quoted, _ | .word, _ => Pending.settle pending (readScalar t.text)

abbrev Reading := Except ReadError Value × List Token

/-- Reads on to the end of the form that is pending. A form that is a comment takes the comments after it
along. -/
def readInside (pending : List Pending) : List Token → Reading
  | [] => (if pending.isEmpty then .ok .eof else .error .unexpectedEof, [])
  | t :: ts =>
    match t.advance pending with
    | .inside pending => readInside pending ts
    | .complete form => (.ok form, if t.isComment then ts.dropWhile Token.isComment else ts)
    | .fault e => (.error e, ts)
    | .refusal e => (.error e, t :: ts)

def readForm (tokens : List Token) : Reading :=
  readInside [] tokens

def read (source : String) : Except ReadError Value :=
  (readForm (tokenize source)).1

end Lisp
