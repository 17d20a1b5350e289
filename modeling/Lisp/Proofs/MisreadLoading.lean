import Lisp.Proofs.Ending
import Lisp.Proofs.Loading
import Lisp.Proofs.Misreading

/-! Loading a file that can not be read to its end. Most such files are refused before any of their forms
is evaluated. But the wrapping of the text in `(do ` and `nil)` hides a round closer that closes nothing,
and marks that the file ends after: such a file runs as far as it was read. -/

namespace Lisp

open SpecialForm (form)

/-- A file that is misread is refused, with one frame more in the store and nothing else, unless the
reading stops at a round closer or at marks that the file ends after. Then the forms before are evaluated,
and after them what the marks make of nil. -/
theorem loadFile_misread {files : Files} {path source : String} {size : Nat} {forms : List Value}
    {rest : List Token} {σ : Store} (found : files.size path = .ok size) (small : size ≤ maxFileSize)
    (text : files.text path = .ok source) (misread : Misreads (tokenize source) forms rest)
    (loads : σ.LoadsFiles) :
    ((∀ t ∈ rest.head?, t.sort ≠ .closing .round) →
      (∀ ms : List Marker, rest.map Token.sort ≠ ms.map .marker) →
      ∃ message, ∀ r τ, Ends files (·.loadFile path) σ r τ ↔
        r = .error (.read message) ∧ τ = (σ.addFrame (loadFileFrame path)).2) ∧
    (∀ t ∈ rest.head?, t.sort = .closing .round → ∀ r τ, Ends files (·.loadFile path) σ r τ ↔
      Ends files (·.eval (form .sequence forms) .global) (σ.addFrame (loadFileFrame path)).2 r τ) ∧
    ∀ ms : List Marker, rest.map Token.sort = ms.map .marker → ∀ r τ,
      Ends files (·.loadFile path) σ r τ ↔
        Ends files (·.eval (form .sequence (forms ++ [ms.foldr Marker.wrap .nil])) .global)
          (σ.addFrame (loadFileFrame path)).2 r τ := by
  refine ⟨fun noCloser noMarks => ?_, fun t ht closes r τ => ?_, fun ms hms r τ => ?_⟩
  · obtain ⟨e, he⟩ := misread.read_fails noCloser noMarks
    exact ⟨e.message, fun r τ => ends_eval.trans (loadFile_refused loads found small text he)⟩
  · have hread := misread.read_closer ht closes
    exact (ends_eval.trans (loadFile_evaluates loads found small text hread)).trans ends_eval.symm
  · have hread := misread.read_marks hms
    exact (ends_eval.trans (loadFile_evaluates loads found small text hread)).trans ends_eval.symm

/-- A definition, and a bracket that is not closed: nothing is bound. -/
theorem loadFile_misread_open :
    let source := "(def! x 7) ["
    let files : Files := ⟨fun _ => .ok 12, fun _ => .ok source.toUTF8⟩
    let forms : List Value := [.list [.symbol "def!", .symbol "x", .int 7]]
    let rest : List Token := [⟨.opening .square, "["⟩]
    let σ := startStore [] .silent
    (files.size "lib" = .ok 12 ∧ 12 ≤ maxFileSize ∧ files.text "lib" = .ok source) ∧
      Misreads (tokenize source) forms rest ∧ σ.LoadsFiles ∧
      (∀ t ∈ rest.head?, t.sort ≠ .closing .round) ∧
      (∀ ms : List Marker, rest.map Token.sort ≠ ms.map .marker) ∧
      ∃ message, Ends files (·.loadFile "lib") σ (.error (.read message))
        (σ.addFrame (loadFileFrame "lib")).2 := by
  intro source files forms rest σ
  have htext : files.text "lib" = .ok source := Files.text_of_content rfl
  have hsource : tokenize source = [⟨.opening .round, "("⟩, ⟨.word, "def!"⟩, ⟨.word, "x"⟩,
      ⟨.word, "7"⟩, ⟨.closing .round, ")"⟩, ⟨.opening .square, "["⟩] := by
    decide +kernel
  have hmisread : Misreads (tokenize source) forms rest := by
    rw [hsource]
    exact ⟨.form rfl rfl .done, .unexpectedEof, rfl⟩
  obtain ⟨steps, depth, hstart⟩ := Host.exists_start files [] .silent
  have hloads : σ.LoadsFiles := ⟨_, _, _, _, hstart, fun _ _ => rfl⟩
  have hcloser : ∀ t ∈ rest.head?, t.sort ≠ .closing .round := by simp [rest]
  have hmarks (ms : List Marker) : rest.map Token.sort ≠ ms.map .marker := by
    intro hms
    have hmem : TokenSort.opening .square ∈ ms.map TokenSort.marker := by simp [← hms, rest]
    simp at hmem
  have hfound : files.size "lib" = .ok 12 := rfl
  obtain ⟨message, hrefused⟩ :=
    (loadFile_misread hfound (by decide) htext hmisread hloads).1 hcloser hmarks
  exact ⟨⟨rfl, by decide, htext⟩, hmisread, hloads, hcloser, hmarks, message,
    (hrefused _ _).mpr ⟨rfl, rfl⟩⟩

/-- A file with one closer too many is not refused. What stands before the closer is evaluated, and
what stands after it is not even read. -/
theorem loadFile_surplus_closer :
    let source := "(def! x 1) )\n(def! y 2)"
    let files : Files := ⟨fun _ => .ok 23, fun _ => .ok source.toUTF8⟩
    let σ := startStore [] .silent
    let τ := (σ.addFrame (loadFileFrame "lib")).2.bind .global "x" (.int 1)
    (∃ forms rest, Misreads (tokenize source) forms rest) ∧ σ.LoadsFiles ∧
      Ends files (·.loadFile "lib") σ (.ok (.int 1)) τ ∧
      τ.find? .global "x" = some (.int 1) ∧ τ.find? .global "y" = none := by
  intro source files σ τ
  let ρ := (σ.addFrame (loadFileFrame "lib")).2
  have htext : files.text "lib" = .ok source := Files.text_of_content rfl
  have hsource : tokenize source = [⟨.opening .round, "("⟩, ⟨.word, "def!"⟩, ⟨.word, "x"⟩,
      ⟨.word, "1"⟩, ⟨.closing .round, ")"⟩, ⟨.closing .round, ")"⟩, ⟨.opening .round, "("⟩,
      ⟨.word, "def!"⟩, ⟨.word, "y"⟩, ⟨.word, "2"⟩, ⟨.closing .round, ")"⟩] := by
    decide +kernel
  have hmisread : Misreads (tokenize source) [form .define [.symbol "x", .int 1]]
      [⟨.closing .round, ")"⟩, ⟨.opening .round, "("⟩, ⟨.word, "def!"⟩, ⟨.word, "y"⟩,
        ⟨.word, "2"⟩, ⟨.closing .round, ")"⟩] := by
    rw [hsource]
    exact ⟨.form rfl rfl .done, .unexpectedDelimiter ')', rfl⟩
  obtain ⟨steps, depth, hstart⟩ := Host.exists_start files [] .silent
  have hloads : σ.LoadsFiles := ⟨_, _, _, _, hstart, fun _ _ => rfl⟩
  have hread := hmisread.read_closer rfl rfl
  have hdefine : Evaluates files (form .define [.symbol "x", .int 1]) .global ρ (.ok (.int 1)) τ :=
    .define (.constant trivial)
  have hsequence : Evaluates files (form .sequence ([] ++ [form .define [.symbol "x", .int 1]]))
      .global ρ (.ok (.int 1)) τ :=
    .sequence .nil hdefine
  have hfound : files.size "lib" = .ok 23 := rfl
  have hload := (loadFile_evaluates hloads hfound (by decide) htext hread).mpr hsequence
  have hglobal : ρ.frame? .global = σ.frame? .global := rfl
  have hfind (name : String) : τ.find? .global name =
      Frame.find? name (((Frame.builtins.bind "*ARGV*" (.list [])).bind "load-file"
        (.closure loadFileClosure)).bind "x" (.int 1)) := by
    rw [Store.find?_global, Store.bound?, Store.frame?_bind, if_pos rfl, hglobal,
      startStore_frame?]
    rfl
  refine ⟨⟨_, _, hmisread⟩, hloads, ends_eval.mpr hload, ?_, ?_⟩
  · rw [hfind]
    rfl
  · rw [hfind]
    rfl

end Lisp
