import Lisp.Numeral
import Lisp.Quoted
import Lisp.Value.Equality

/-! The text of a value. Readable text quotes strings, so that a literal can be read back from it. An atom
met again inside its own content is printed as three dots. -/

namespace Lisp

namespace Value

mutual

/-- Adds the text of a value to `out`, where `atom` adds that of an atom. -/
def write (atom : Cell → String → String) (readable : Bool) : Value → String → String
  | .int n, out => out ++ Numeral.ofInteger n
  | .bool true, out => out ++ "true"
  | .bool false, out => out ++ "false"
  | .nil, out => out ++ "nil"
  | .eof, out => out ++ "<EOF>"
  | .symbol name, out => out ++ name
  | .keyword name, out => out ++ ":" ++ name
  | .str text, out => out ++ (if readable then Quoted.encode text else text)
  | .list items, out => writeItems atom readable "" items (out ++ "(") ++ ")"
  | .vector items, out => writeItems atom readable "" items (out ++ "[") ++ "]"
  | .map entries, out => writeEntries atom readable "" entries (out ++ "\x7b") ++ "\x7d"
  | .function b, out => out ++ "#<function " ++ b.name ++ ">"
  | .closure c, out => out ++ (if c.isMacro then "#<macro>" else "#<function>")
  | .atom c, out => atom c out
  | .error message, out => out ++ "*** " ++ message

/-- Adds the texts of elements, the first after `gap` and the others after a space. -/
def writeItems (atom : Cell → String → String) (readable : Bool) (gap : String) :
    List Value → String → String
  | [], out => out
  | v :: vs, out => writeItems atom readable " " vs (write atom readable v (out ++ gap))

def writeEntries (atom : Cell → String → String) (readable : Bool) (gap : String) :
    List (Value × Value) → String → String
  | [], out => out
  | (k, v) :: es, out =>
    writeEntries atom readable " " es
      (write atom readable v (write atom readable k (out ++ gap) ++ " "))

end

/-- Adds the text of an atom inside the contents of the atoms in `opened`, following at most `hops`
atoms inward. -/
def writeAtom (cells : Cells) (readable : Bool) : Nat → List Cell → Cell → String → String
  | 0, _, _, out => out ++ "..."
  | hops + 1, opened, c, out =>
    if c ∈ opened then out ++ "..."
    else write (writeAtom cells readable hops (c :: opened)) readable (cells.content c)
      (out ++ "(atom ") ++ ")"

def Appends (write : String → String) : Prop :=
  ∀ out, write out = out ++ write ""

mutual

theorem write_appends {atom : Cell → String → String} (h : ∀ c, Appends (atom c)) (readable : Bool) :
    ∀ v, Appends (write atom readable v)
  | .int _, _ | .bool true, _ | .bool false, _ | .nil, _ | .eof, _ | .symbol _, _ | .str _, _
  | .closure _, _ => by simp [write]
  | .keyword _, _ | .function _, _ | .error _, _ => by simp [write, String.append_assoc]
  | .list items, out => by
    simp only [write]
    rw [writeItems_appends h readable items "" (out ++ "("),
      writeItems_appends h readable items "" ("" ++ "(")]
    simp [String.append_assoc]
  | .vector items, out => by
    simp only [write]
    rw [writeItems_appends h readable items "" (out ++ "["),
      writeItems_appends h readable items "" ("" ++ "[")]
    simp [String.append_assoc]
  | .map entries, out => by
    simp only [write]
    rw [writeEntries_appends h readable entries "" (out ++ "\x7b"),
      writeEntries_appends h readable entries "" ("" ++ "\x7b")]
    simp [String.append_assoc]
  | .atom c, out => by
    simp only [write]
    exact h c out

theorem writeItems_appends {atom : Cell → String → String} (h : ∀ c, Appends (atom c))
    (readable : Bool) : ∀ vs gap, Appends (writeItems atom readable gap vs)
  | [], gap, out => by simp [writeItems]
  | v :: vs, gap, out => by
    simp only [writeItems]
    rw [writeItems_appends h readable vs " ", write_appends h readable v (out ++ gap),
      writeItems_appends h readable vs " " (write atom readable v ("" ++ gap)),
      write_appends h readable v ("" ++ gap)]
    simp [String.append_assoc]

theorem writeEntries_appends {atom : Cell → String → String} (h : ∀ c, Appends (atom c))
    (readable : Bool) : ∀ es gap, Appends (writeEntries atom readable gap es)
  | [], gap, out => by simp [writeEntries]
  | (k, v) :: es, gap, out => by
    simp only [writeEntries]
    rw [writeEntries_appends h readable es " ", write_appends h readable v,
      write_appends h readable k (out ++ gap),
      writeEntries_appends h readable es " " (write atom readable v _),
      write_appends h readable v (_ ++ " "), write_appends h readable k ("" ++ gap)]
    simp [String.append_assoc]

end

theorem writeItems_eq_intercalate {atom : Cell → String → String} (h : ∀ c, Appends (atom c))
    (readable : Bool) (vs : List Value) :
    writeItems atom readable "" vs "" = " ".intercalate (vs.map (write atom readable · "")) := by
  have spaced (vs : List Value) (v : Value) :
      writeItems atom readable " " vs (write atom readable v "") =
        " ".intercalate ((v :: vs).map (write atom readable · "")) := by
    induction vs generalizing v with
    | nil => simp [writeItems]
    | cons w vs ih =>
      simp only [List.map_cons, String.intercalate_cons_cons] at ih ⊢
      rw [← ih w]
      simp only [writeItems]
      rw [write_appends h readable w, writeItems_appends h readable vs " " (_ ++ _),
        writeItems_appends h readable vs " " (write atom readable w "")]
      simp [String.append_assoc]
  cases vs with
  | nil => simp [writeItems]
  | cons v vs => simpa [writeItems] using spaced vs v

theorem writeAtom_appends (cells : Cells) (readable : Bool) (hops : Nat) (opened : List Cell) (c : Cell) :
    Appends (writeAtom cells readable hops opened c) := by
  induction hops generalizing opened c with
  | zero => intro out; simp [writeAtom]
  | succ hops ih =>
    intro out
    simp only [writeAtom]
    split
    · simp
    · rw [write_appends (fun c => ih _ c) readable _ (out ++ "(atom "),
        write_appends (fun c => ih _ c) readable _ ("" ++ "(atom ")]
      simp [String.append_assoc]

def print (cells : Cells) (readable : Bool) (v : Value) : String :=
  v.write (writeAtom cells readable (cells.size + 1) []) readable ""

def printLiteral (v : Value) : String :=
  v.print #[] true

end Value

end Lisp
