import Lisp.Program

/-! The program itself: command line, standard streams and files. An evaluation that asks for a file is
given the file and run again from where it began. What it changed is kept only once it has ended. -/

namespace Lisp

namespace Main

/-- A file as it was found: its size, and its bytes unless it is too large. -/
abbrev FoundFile := Except FileFault (Nat × Except String ByteArray)

def hostOf (found : List (String × FoundFile)) : Host where
  files := {
    size := fun path =>
      match found.lookup path with
      | some file => file.map Prod.fst
      | none => .error .unlisted
    content := fun path =>
      match found.lookup path with
      | some (.ok (_, bytes)) => bytes
      | _ => .error "" }
  steps := 0x3fffffffffffffff
  depth := 0x3fffffffffffffff

def systemCode (code : UInt32) : Nat :=
  code.toInt32.toInt.natAbs

def reasonOf : IO.Error → String
  | .inappropriateType _ code details | .invalidArgument _ code details
  | .permissionDenied _ code details | .resourceExhausted _ code details
  | .noFileOrDirectory _ code details | .alreadyExists _ code details
  | .otherError code details =>
    Files.systemReason (systemCode code) details
  | e => toString e

def readBytes (path : String) : IO (Except String ByteArray) := do
  try
    return .ok (← IO.FS.readBinFile path)
  catch e =>
    return .error (reasonOf e)

def findFile (path : String) : IO FoundFile := do
  if path.toList.contains '\x00' then
    return .error (.unreadable Files.nulInPath)
  if path.isEmpty then
    return .error .missing
  try
    let place := (← IO.currentDir) / path
    let size := (← place.metadata).byteSize.toNat
    if maxFileSize < size then
      return .ok (size, .error "")
    return .ok (size, ← readBytes path)
  catch e =>
    match e with
    | .noFileOrDirectory _ _ _ => return .error .missing
    | e => return .error (.unreadable (reasonOf e))

/-- Runs an action, finds the files that it asks for, and sends what it printed to standard output. -/
partial def perform {α : Type} (action : Host → Action α) (σ : Store)
    (found : List (String × FoundFile)) : IO (α × Store) := do
  match action (hostOf found) σ with
  | .halted (.fileNeeded path) => perform action σ ((path, ← findFile path) :: found)
  | .halted _ => throw (IO.userError "evaluation was given up")
  | .failure e σ => do
    flush σ
    throw (IO.userError e.message)
  | .value a σ => do
    flush σ
    return (a, { σ with output := .standard "" })
where
  flush (σ : Store) : IO Unit := do
    let stdout ← IO.getStdout
    stdout.putStr σ.output.pending
    stdout.flush

partial def readLine (input : IO.FS.Stream) (line : List UInt8) : IO (List UInt8) := do
  match (← input.read 1).toList with
  | [] => return line
  | b :: _ => if b = 10 then return b :: line else readLine input (b :: line)

partial def interact (input : IO.FS.Stream) (σ : Store) : IO UInt32 := do
  let ((), σ) ← perform (fun _ => .modify (·.write Repl.prompt)) σ []
  match Repl.lines (← readLine input []).reverse with
  | [] => do
    IO.println ""
    return 0
  | line :: _ =>
    match Repl.decodeLine line with
    | some text => do
      let ((), σ) ← perform (·.answerLine text) σ []
      interact input σ
    | none => do
      IO.eprintln s!"error: failed to read input: {Files.invalidText}"
      return 1

def runScript (o : Options) : IO UInt32 := do
  match ← perform (·.runOptions o []) (.empty (.standard "")) [] with
  | (.ok (), _) => return 0
  | (.error complaint, _) => do
    IO.eprintln complaint
    return 1

def runSession (o : Options) : IO UInt32 := do
  let ((), σ) ← perform (·.start o.argv !o.skipInit) (.empty (.standard "")) []
  interact (← IO.getStdin) σ

end Main

end Lisp

open Lisp in
def main (words : List String) : IO UInt32 := do
  match Options.parse words with
  | .error e => do
    IO.eprintln s!"error: {e.message}"
    IO.print Options.usage
    return 1
  | .ok o =>
    if o.help then do
      IO.print Options.usage
      return 0
    else if o.file.isSome then Main.runScript o
    else Main.runSession o
