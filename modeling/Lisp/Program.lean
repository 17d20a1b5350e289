import Lisp.Options
import Lisp.Repl

/-! A run of the whole program: from the words of the command line and what stands on standard input to an
exit status and two texts of output. -/

namespace Lisp

structure Report where
  status : UInt32
  stdout : String
  stderr : String
  deriving DecidableEq, Repr

namespace Host

/-- Runs a script, or the interactive loop where there is none. What goes wrong is told in one line. -/
def runOptions (host : Host) (o : Options) (input : List UInt8) : Action (Except String Unit) := do
  match ← (host.start o.argv !o.skipInit).attempt with
  | .error e => pure (.error s!"*** Init failed ({e.message})")
  | .ok () =>
    match o.file with
    | some path =>
      match ← (host.loadFile path).attempt with
      | .ok _ => pure (.ok ())
      | .error e => pure (.error s!"*** {e.message}")
    | none =>
      match ← host.runRepl input with
      | .endOfInput => pure (.ok ())
      | .invalidText => pure (.error s!"error: failed to read input: {Files.invalidText}")

def runProgram (host : Host) (words : List String) (input : List UInt8) : Except Halt Report :=
  match Options.parse words with
  | .error e => .ok ⟨1, Options.usage, s!"error: {e.message}\n"⟩
  | .ok o =>
    if o.help then .ok ⟨0, Options.usage, ""⟩
    else
      match host.runOptions o input (.empty (.standard "")) with
      | .value (.ok ()) σ => .ok ⟨0, σ.output.pending, ""⟩
      | .value (.error complaint) σ => .ok ⟨1, σ.output.pending, s!"{complaint}\n"⟩
      | .failure e σ => .ok ⟨1, σ.output.pending, s!"*** {e.message}\n"⟩
      | .halted why => .error why

end Host

end Lisp
