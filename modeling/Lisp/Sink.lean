/-! Where printed text goes: into a buffer that can be looked at, to standard output, or nowhere. -/

namespace Lisp

inductive Sink
  | buffer (text : String)
  | standard (pending : String)
  | silent
  deriving DecidableEq, Repr

namespace Sink

def write (text : String) : Sink → Sink
  | .buffer written => .buffer (written ++ text)
  | .standard pending => .standard (pending ++ text)
  | .silent => .silent

def writeLine (line : String) (s : Sink) : Sink :=
  (s.write line).write "\n"

/-- The text that was captured. Only a buffer captures any. -/
def captured : Sink → String
  | .buffer text => text
  | .standard _ | .silent => ""

def clear : Sink → Sink
  | .buffer _ => .buffer ""
  | s => s

def pending : Sink → String
  | .standard text => text
  | .buffer _ | .silent => ""

@[simp] theorem write_empty (s : Sink) : s.write "" = s := by
  cases s <;> simp [write]

theorem write_append (s : Sink) (text more : String) :
    s.write (text ++ more) = (s.write text).write more := by
  cases s <;> simp [write, String.append_assoc]

theorem writeLine_eq_write (s : Sink) (line : String) : s.writeLine line = s.write (line ++ "\n") :=
  (s.write_append line "\n").symm

end Sink

end Lisp
