/-! The options of the command line. Flags stand in front of the script. All words after the script are its
own, whatever they look like. -/

namespace Lisp

structure Options where
  file : Option String
  argv : List String
  skipInit : Bool
  help : Bool
  deriving DecidableEq, Repr

inductive OptionsError
  | unknownFlag (flag : String)
  deriving DecidableEq, Repr

def OptionsError.message : OptionsError → String
  | .unknownFlag flag => s!"unknown option '{flag}'"

namespace Options

def parseAfter (skipInit help : Bool) : List String → Except OptionsError Options
  | [] => .ok ⟨none, [], skipInit, help⟩
  | word :: words =>
    if word = "--skip-init" || word = "--skipInit" then parseAfter true help words
    else if word = "--help" || word = "-h" then parseAfter skipInit true words
    else if word = "--" then .ok ⟨words.head?, words.tail, skipInit, help⟩
    else if word.toList.head? = some '-' then .error (.unknownFlag word)
    else .ok ⟨some word, words, skipInit, help⟩

def parse (words : List String) : Except OptionsError Options :=
  parseAfter false false words

def usageLines : List String :=
  ["Usage: mal [options] [FILE] [ARGS...]",
   "",
   "Without FILE, starts an interactive session.",
   "With FILE, loads it and exits. ARGS are bound to *ARGV*.",
   "",
   "Options:",
   "  --skip-init    Do not define load-file at startup",
   "  -h, --help     Show this help",
   "",
   "Set RUST_LOG (e.g. RUST_LOG=mal_eval=debug) to enable tracing."]

def usage : String :=
  String.join (usageLines.map (· ++ "\n"))

end Options

end Lisp
