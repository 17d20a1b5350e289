import Lisp.Blank
import Lisp.Session

/-! The interactive loop. Each line of input is prompted for, evaluated and answered with one line, and a
failure is an answer like any other. -/

namespace Lisp

namespace Repl

def prompt : String := "user> "

def dropReturn : List UInt8 → List UInt8
  | 13 :: bytes => bytes
  | bytes => bytes

/-- Cuts bytes into lines, of which the first has begun with `line`, held last byte first. A line feed ends
a line, and so does the end of input after at least one byte. -/
def splitLines (line : List UInt8) : List UInt8 → List (List UInt8)
  | [] => if line.isEmpty then [] else [line.reverse]
  | 10 :: bytes => (dropReturn line).reverse :: splitLines [] bytes
  | b :: bytes => splitLines (b :: line) bytes

def lines (input : List UInt8) : List (List UInt8) :=
  splitLines [] input

def decodeLine (line : List UInt8) : Option String :=
  String.fromUTF8? ⟨line.toArray⟩

def isBlankLine (line : String) : Bool :=
  line.toList.all isBlank

end Repl

inductive ReplEnd
  | endOfInput
  | invalidText
  deriving DecidableEq, Repr

namespace Host

def answerLine (host : Host) (line : String) : Action Unit :=
  if Repl.isBlankLine line then pure ()
  else do
    let answer ← host.rep line
    .modify (·.writeLine answer)

def answerLines (host : Host) : List (List UInt8) → Action ReplEnd
  | [] => do
    .modify (·.write Repl.prompt)
    .modify (·.writeLine "")
    pure .endOfInput
  | line :: lines => do
    .modify (·.write Repl.prompt)
    match Repl.decodeLine line with
    | some text =>
      host.answerLine text
      host.answerLines lines
    | none => pure .invalidText

def runRepl (host : Host) (input : List UInt8) : Action ReplEnd :=
  host.answerLines (Repl.lines input)

end Host

end Lisp
