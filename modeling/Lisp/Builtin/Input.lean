import Lisp.Action
import Lisp.Files
import Lisp.Reader

/-! Builtins that take in text: the form that a string holds, and the content of a file. -/

namespace Lisp

/-- The largest file that can be read, in bytes. -/
def maxFileSize : Nat := 0x7fffffff

def fileContent (files : Files) (path : String) : Action Value :=
  match files.size path with
  | .error .missing => .fail (.fileNotFound path)
  | .error (.unreadable reason) => .fail (.fileUnreadable path reason)
  | .error .unlisted => .halt (.fileNeeded path)
  | .ok size =>
    if maxFileSize < size then .fail (.fileTooLarge path size)
    else
      match files.text path with
      | .ok text => pure (.str text)
      | .error reason => .fail (.fileUnreadable path reason)

def readSource (source : String) : Action Value :=
  match read source with
  | .ok form => pure form
  | .error e => .fail (.read e.message)

end Lisp
