/-! The files that a program can read, as a function of their paths. -/

namespace Lisp

inductive FileFault
  | missing
  | unreadable (reason : String)
  | unlisted
  deriving DecidableEq, Repr

structure Files where
  size : String → Except FileFault Nat
  /-- The bytes found there, or the reason why they can not be read. -/
  content : String → Except String ByteArray

namespace Files

def empty : Files where
  size _ := .error .missing
  content _ := .error ""

def systemErrors : List (Nat × String) :=
  [(1, "Operation not permitted"), (5, "Input/output error"), (13, "Permission denied"),
   (20, "Not a directory"), (21, "Is a directory"), (36, "File name too long"),
   (40, "Too many levels of symbolic links")]

/-- The reason that goes with the number of a system error, which is described by `otherwise` where the
number is not listed. -/
def systemReason (code : Nat) (otherwise : String) : String :=
  let text := (systemErrors.lookup code).getD otherwise
  s!"{text} (os error {code})"

/-- A path that holds a NUL character leads nowhere. -/
def nulInPath : String :=
  "file name contained an unexpected NUL byte"

def invalidText : String :=
  "stream did not contain valid UTF-8"

def text (files : Files) (path : String) : Except String String := do
  let bytes ← files.content path
  match String.fromUTF8? bytes with
  | some text => .ok text
  | none => .error invalidText

end Files

end Lisp
