import Lisp.Proofs.Inversion
import Lisp.Proofs.Scope
import Lisp.Proofs.Wrapping
import Lisp.Session

/-! Loading a file, which is a call of a function that is written in the language itself: what the file
holds is wrapped into one form, read and evaluated. -/

namespace Lisp

open SpecialForm (form)

/-- The body of `load-file`. -/
def loadFileBody : Value :=
  .list [.symbol "eval", .list [.symbol "read-string", .list [.symbol "str", .str "(do ",
    .list [.symbol "slurp", .symbol "f"], .str "\nnil)"]]]

def loadFileLambda : Value :=
  form .lambda [.list [.symbol "f"], loadFileBody]

def loadFileClosure : Closure Value :=
  ⟨0, ⟨["f"], none⟩, loadFileBody, .global, false⟩

/-- The names that loading a file goes through mean what they mean at the start of a session. -/
def Store.LoadsFiles (σ : Store) : Prop :=
  ∃ (host : Host) (argv : List String) (output : Sink) (τ : Store),
    host.start argv true (.empty output) = .value () τ ∧
      ∀ name ∈ ["load-file", "eval", "read-string", "str", "slurp"],
        σ.find? .global name = τ.find? .global name

/-- Forms are evaluated one after the other in the global environment, up to the first that fails. -/
inductive RunsInTurn (files : Files) : List Value → Store → Except EvalError Unit → Store → Prop
  | done {σ} : RunsInTurn files [] σ (.ok ()) σ
  | fails {value forms steps depth σ e τ}
    (head : Host.eval ⟨files, steps, depth⟩ value .global σ = .failure e τ) :
    RunsInTurn files (value :: forms) σ (.error e) τ
  | next {value forms steps depth σ v ρ r τ}
    (head : Host.eval ⟨files, steps, depth⟩ value .global σ = .value v ρ)
    (more : RunsInTurn files forms ρ r τ) : RunsInTurn files (value :: forms) σ r τ

theorem tokenize_loadFileSource : tokenize loadFileSource =
    [⟨.opening .round, "("⟩, ⟨.word, "def!"⟩, ⟨.word, "load-file"⟩,
      ⟨.opening .round, "("⟩, ⟨.word, "fn*"⟩,
      ⟨.opening .round, "("⟩, ⟨.word, "f"⟩, ⟨.closing .round, ")"⟩,
      ⟨.opening .round, "("⟩, ⟨.word, "eval"⟩, ⟨.opening .round, "("⟩, ⟨.word, "read-string"⟩,
      ⟨.opening .round, "("⟩, ⟨.word, "str"⟩, ⟨.quoted, "\"(do \""⟩,
      ⟨.opening .round, "("⟩, ⟨.word, "slurp"⟩, ⟨.word, "f"⟩, ⟨.closing .round, ")"⟩,
      ⟨.quoted, "\"\\nnil)\""⟩, ⟨.closing .round, ")"⟩, ⟨.closing .round, ")"⟩,
      ⟨.closing .round, ")"⟩, ⟨.closing .round, ")"⟩, ⟨.closing .round, ")"⟩] := by
  decide +kernel

theorem read_loadFileSource :
    read loadFileSource = .ok (form .define [.symbol "load-file", loadFileLambda]) := by
  rw [read, tokenize_loadFileSource]
  rfl

theorem Files.text_of_content {files : Files} {path source : String}
    (h : files.content path = .ok source.toUTF8) : files.text path = .ok source := by
  have hdecoded : String.fromUTF8? source.toUTF8 = some source := dif_pos source.isValidUTF8
  unfold Files.text
  rw [h]
  simp only [bind, Except.bind, hdecoded]

theorem EvaluatesAll.one {files : Files} {env : Env} {σ τ : Store} {value v : Value}
    (h : Evaluates files value env σ (.ok v) τ) : EvaluatesAll files [value] env σ (.ok [v]) τ :=
  .cons h .nil

theorem runsInTurn_iff {files : Files} {forms : List Value} {σ τ : Store} {s : Except EvalError Unit} :
    RunsInTurn files forms σ s τ ↔
      ∃ s', EvaluatesAll files forms .global σ s' τ ∧ s = s'.map fun _ => () := by
  constructor
  · intro h
    induction h with
    | done => exact ⟨.ok [], .nil, rfl⟩
    | @fails _ _ _ _ _ e _ head =>
      have hhead := (exists_eval_iff (r := .error e)).mp ⟨_, _, head⟩
      exact ⟨.error e, .fails hhead, rfl⟩
    | @next _ _ _ _ _ v _ _ _ head _ ih =>
      obtain ⟨s', htail, rfl⟩ := ih
      have hhead := (exists_eval_iff (r := .ok v)).mp ⟨_, _, head⟩
      exact ⟨_, .cons hhead htail, by cases s' <;> rfl⟩
  · rintro ⟨s', h, rfl⟩
    induction forms generalizing σ s' with
    | nil =>
      cases h
      exact .done
    | cons value forms ih =>
      cases h with
      | @cons _ _ _ _ v ρ s' _ head tail =>
        obtain ⟨steps, depth, head⟩ := exists_eval_iff.mpr head
        have hmore := RunsInTurn.next head (ih s' tail)
        cases s' <;> exact hmore
      | fails head =>
        obtain ⟨steps, depth, head⟩ := exists_eval_iff.mpr head
        exact .fails head

/-! The start of a session. -/

theorem Frame.builtins_find? (b : Builtin) : Frame.builtins.find? b.name = some (.function b) := by
  cases b <;> rfl

def startStore (argv : List String) (output : Sink) : Store :=
  let σ := ((Store.empty output).addFrame .builtins).2.bind .global "*ARGV*" (.list (argv.map .str))
  (σ.addClosure ⟨["f"], none⟩ loadFileBody .global false).2.bind .global "load-file"
    (.closure loadFileClosure)

theorem evaluates_loadFileForm (files : Files) (argv : List String) (output : Sink) :
    Evaluates files (form .define [.symbol "load-file", loadFileLambda]) .global
      (((Store.empty output).addFrame .builtins).2.bind .global "*ARGV*" (.list (argv.map .str)))
      (.ok (.closure loadFileClosure)) (startStore argv output) :=
  .define (.lambda rfl rfl rfl)

theorem Host.start_apply (host : Host) (argv : List String) (output : Sink) :
    host.start argv true (.empty output) =
      (host.eval (form .define [.symbol "load-file", loadFileLambda]) .global >>= fun _ => pure ())
        (((Store.empty output).addFrame .builtins).2.bind .global "*ARGV*"
          (.list (argv.map .str))) := by
  have hsource : host.evalSource loadFileSource =
      host.eval (form .define [.symbol "load-file", loadFileLambda]) .global := by
    rw [evalSource, readSource, read_loadFileSource]
    rfl
  rw [← hsource]
  rfl

theorem Host.start_eq {host : Host} {argv : List String} {output : Sink} {τ : Store}
    (h : host.start argv true (.empty output) = .value () τ) : τ = startStore argv output := by
  rw [start_apply] at h
  obtain ⟨v, ρ, hv, hρ⟩ := (Action.bind_eq_ok (b := ())).mp h
  obtain ⟨-, rfl⟩ := Action.pure_eq_of.mp hρ
  have hevaluates := (exists_eval_iff (r := .ok v)).mp ⟨_, _, hv⟩
  exact ((evaluates_loadFileForm host.files argv output).unique hevaluates).2

theorem Host.exists_start (files : Files) (argv : List String) (output : Sink) :
    ∃ steps depth, Host.start ⟨files, steps, depth⟩ argv true (.empty output) =
      .value () (startStore argv output) := by
  obtain ⟨steps, depth, h⟩ := exists_eval_iff.mpr (evaluates_loadFileForm files argv output)
  refine ⟨steps, depth, ?_⟩
  rw [start_apply, Action.bind_of_ok h]
  rfl

theorem startStore_frame? (argv : List String) (output : Sink) :
    (startStore argv output).frame? .global =
      some ((Frame.builtins.bind "*ARGV*" (.list (argv.map .str))).bind "load-file"
        (.closure loadFileClosure)) := rfl

theorem startStore_binds (argv : List String) (output : Sink) :
    (startStore argv output).find? .global "load-file" = some (.closure loadFileClosure) ∧
      ∀ b : Builtin, (startStore argv output).find? .global b.name = some (.function b) := by
  have hbound (name : String) : (startStore argv output).find? .global name =
      ((Frame.builtins.bind "*ARGV*" (.list (argv.map .str))).bind "load-file"
        (.closure loadFileClosure)).find? name := by
    rw [Store.find?_global, Store.bound?, startStore_frame?]
    rfl
  refine ⟨by rw [hbound, Frame.find?_bind_self], fun b => ?_⟩
  have hload : b.name ≠ "load-file" := by cases b <;> decide
  have hargv : b.name ≠ "*ARGV*" := by cases b <;> decide
  rw [hbound, Frame.find?_bind_of_ne hload, Frame.find?_bind_of_ne hargv, Frame.builtins_find?]

namespace Store.LoadsFiles

variable {σ : Store}

theorem closure (h : σ.LoadsFiles) :
    σ.find? .global "load-file" = some (.closure loadFileClosure) := by
  obtain ⟨host, argv, output, τ, hstart, hsame⟩ := h
  rw [hsame _ (by simp), Host.start_eq hstart]
  exact (startStore_binds argv output).1

theorem builtin (h : σ.LoadsFiles) {b : Builtin} (hb : b ∈ [.eval, .readString, .str, .slurp]) :
    σ.find? .global b.name = some (.function b) := by
  obtain ⟨host, argv, output, τ, hstart, hsame⟩ := h
  have hname : b.name ∈ ["load-file", "eval", "read-string", "str", "slurp"] := by
    simp only [List.mem_cons, List.not_mem_nil, or_false] at hb
    rcases hb with rfl | rfl | rfl | rfl <;> simp [Builtin.name]
  rw [hsame _ hname, Host.start_eq hstart]
  exact (startStore_binds argv output).2 b

end Store.LoadsFiles

/-- The frame of a call of `load-file`. -/
def loadFileFrame (path : String) : Frame :=
  ⟨[("f", .str path)], some .global⟩

section

variable {files : Files} {path source : String} {size : Nat} {σ τ : Store}

theorem slurp_file (found : files.size path = .ok size) (small : size ≤ maxFileSize)
    (text : files.text path = .ok source) :
    Applies files (.function .slurp) [.str path] σ (.ok (.str source)) σ := by
  have hcontent : fileContent files path = pure (.str source) := by
    simp [fileContent, found, text, Nat.not_lt.mpr small]
  have hcalled : (Evaluator.idle files 0).call .slurp [.str path] σ = .of (.ok (.str source)) σ := by
    change fileContent files path σ = _
    rw [hcontent]
    rfl
  exact .builtin (by simp) (by simp) hcalled

theorem str_wrapInDo :
    Applies files (.function .str) [.str "(do ", .str source, .str "\nnil)"] σ
      (.ok (.str (wrapInDo source))) σ := by
  have htext : "".intercalate (["(do ", source, "\nnil)"].map fun text =>
      Value.print σ.cells false (.str text)) = wrapInDo source := by
    simp [Value.print, Value.write, wrapInDo, String.append_assoc]
  have hcalled : (Evaluator.idle files 0).call .str [.str "(do ", .str source, .str "\nnil)"] σ =
      .of (.ok (.str (wrapInDo source))) σ := by
    rw [← htext]
    rfl
  exact .builtin (by simp) (by simp) hcalled

theorem applies_readString {r : Except EvalError Value}
    (h : (read source).mapError (fun e => .read e.message) = r) :
    Applies files (.function .readString) [.str source] σ r σ := by
  have hcalled : (Evaluator.idle files 0).call .readString [.str source] σ = .of r σ := by
    change readSource source σ = _
    rw [readSource, ← h]
    cases read source <;> rfl
  exact .builtin (by simp) (by simp) hcalled

theorem find?_path (path : String) (σ : Store) :
    (σ.addFrame (loadFileFrame path)).2.find? (σ.addFrame (loadFileFrame path)).1 "f" =
      some (.str path) := by
  refine Store.find?_of_bound? ?_
  simp [Store.bound?, Store.frame?, Store.addFrame, loadFileFrame, Frame.find?]

theorem Store.LoadsFiles.find?_inner (loads : σ.LoadsFiles) (path : String) {b : Builtin}
    (hb : b ∈ [.eval, .readString, .str, .slurp]) :
    (σ.addFrame (loadFileFrame path)).2.find? (σ.addFrame (loadFileFrame path)).1 b.name =
      some (.function b) := by
  refine Store.find?_child rfl ?_ (loads.builtin hb)
  cases b <;> rfl

/-- The file is read and its text is wrapped, without any other effect. -/
theorem loadFile_text (loads : σ.LoadsFiles) (found : files.size path = .ok size)
    (small : size ≤ maxFileSize) (text : files.text path = .ok source) :
    Evaluates files (.list [.symbol "str", .str "(do ", .list [.symbol "slurp", .symbol "f"],
        .str "\nnil)"])
      (σ.addFrame (loadFileFrame path)).1 (σ.addFrame (loadFileFrame path)).2
      (.ok (.str (wrapInDo source))) (σ.addFrame (loadFileFrame path)).2 := by
  have hliteral {text : String} {env : Env} {σ : Store} :
      Evaluates files (.str text) env σ (.ok (.str text)) σ :=
    .constant trivial
  have hslurp := loads.find?_inner path (b := .slurp) (by simp)
  have hstr := loads.find?_inner path (b := .str) (by simp)
  have hcontent := Evaluates.call_builtin hslurp (.one (.symbol (find?_path path σ)))
    (slurp_file found small text)
  exact .call_builtin hstr (.cons hliteral (.cons hcontent (.one hliteral))) str_wrapInDo

theorem loadFile_reads {r : Except EvalError Value} (loads : σ.LoadsFiles)
    (found : files.size path = .ok size) (small : size ≤ maxFileSize)
    (text : files.text path = .ok source)
    (hr : (read (wrapInDo source)).mapError (fun e => .read e.message) = r) :
    Evaluates files (.list [.symbol "read-string", .list [.symbol "str", .str "(do ",
        .list [.symbol "slurp", .symbol "f"], .str "\nnil)"]])
      (σ.addFrame (loadFileFrame path)).1 (σ.addFrame (loadFileFrame path)).2 r
      (σ.addFrame (loadFileFrame path)).2 := by
  have hread := loads.find?_inner path (b := .readString) (by simp)
  exact .call_builtin hread (.one (loadFile_text loads found small text)) (applies_readString hr)

theorem evaluates_loadFile {r : Except EvalError Value} (loads : σ.LoadsFiles) :
    Evaluates files (.list [.symbol "load-file", .str path]) .global σ r τ ↔
      Evaluates files loadFileBody (σ.addFrame (loadFileFrame path)).1
        (σ.addFrame (loadFileFrame path)).2 r τ := by
  have hpath : EvaluatesAll files [.str path] .global σ (.ok [.str path]) σ :=
    .one (.constant trivial)
  have hordinary : ∀ sf forms, .list [.symbol "load-file", .str path] ≠ form sf forms :=
    SpecialForm.ofName?_eq_none.mp rfl
  have hnoMacro : σ.macroCall? .global (.list [.symbol "load-file", .str path]) = none :=
    macroCall?_of_find? loads.closure (by decide)
  have hclosure : Evaluates files (.symbol "load-file") .global σ
      (.ok (.closure loadFileClosure)) σ := .symbol loads.closure
  constructor
  · intro h
    cases h.applies hordinary hnoMacro hclosure hpath with
    | closure bound entered body =>
      cases bound
      cases entered
      exact body
    | closureFails bound => cases bound
    | noFunction _ noClosure => exact absurd rfl (noClosure _)
  · exact fun h => .application hordinary hnoMacro hclosure hpath (.closure rfl rfl h)

/-- Loading a file is evaluating what its wrapped text stands for, in the global environment. -/
theorem loadFile_evaluates {value : Value} {r : Except EvalError Value} (loads : σ.LoadsFiles)
    (found : files.size path = .ok size) (small : size ≤ maxFileSize)
    (text : files.text path = .ok source) (readable : read (wrapInDo source) = .ok value) :
    Evaluates files (.list [.symbol "load-file", .str path]) .global σ r τ ↔
      Evaluates files value .global (σ.addFrame (loadFileFrame path)).2 r τ := by
  have heval := loads.find?_inner path (b := .eval) (by simp)
  have hvalue := EvaluatesAll.one
    (loadFile_reads (r := .ok value) loads found small text (by rw [readable]; rfl))
  rw [evaluates_loadFile loads]
  constructor
  · intro h
    cases h.applies (Builtin.eval.ordinary _) (macroCall?_of_find? heval (by decide))
      (.symbol heval) hvalue with
    | eval evaluated => exact evaluated
    | evalArity number => exact absurd rfl number
    | builtin noEval => exact absurd rfl noEval
    | noFunction noBuiltin => exact absurd rfl (noBuiltin _)
  · exact fun h => .call_builtin heval hvalue (.eval h)

/-- What the wrapped text is refused for is all that comes of loading a file that it is read from. -/
theorem loadFile_refused {e : ReadError} {r : Except EvalError Value} (loads : σ.LoadsFiles)
    (found : files.size path = .ok size) (small : size ≤ maxFileSize)
    (text : files.text path = .ok source) (unreadable : read (wrapInDo source) = .error e) :
    Evaluates files (.list [.symbol "load-file", .str path]) .global σ r τ ↔
      r = .error (.read e.message) ∧ τ = (σ.addFrame (loadFileFrame path)).2 := by
  have heval := loads.find?_inner path (b := .eval) (by simp)
  have hvalue := loadFile_reads (r := .error (.read e.message)) loads found small text
    (by rw [unreadable]; rfl)
  have hfails : Evaluates files loadFileBody (σ.addFrame (loadFileFrame path)).1
      (σ.addFrame (loadFileFrame path)).2 (.error (.read e.message))
      (σ.addFrame (loadFileFrame path)).2 :=
    (evaluates_builtin heval).mpr (.inl ⟨_, rfl, .fails hvalue⟩)
  rw [evaluates_loadFile loads]
  constructor
  · exact fun h => hfails.unique h
  · rintro ⟨rfl, rfl⟩
    exact hfails

end

/-- A file that exists, is small enough and is read to its end is loaded by evaluating its forms in
turn, each once, up to the first that fails. Nothing comes of its comments, and its tokens are not changed
by those put around them. A call adds one frame, which nothing else sees. -/
theorem loadFile_runs_forms {files : Files} {path source : String} {size : Nat} {forms : List Value}
    {σ : Store} (found : files.size path = .ok size) (small : size ≤ maxFileSize)
    (text : files.text path = .ok source) (readable : ReadsForms (tokenize source) forms)
    (loads : σ.LoadsFiles) :
    tokenize ("(do " ++ source ++ "\nnil)") = ⟨.opening .round, "("⟩ :: ⟨.word, "do"⟩ ::
        (tokenize source ++ [⟨.word, "nil"⟩, ⟨.closing .round, ")"⟩]) ∧
      ∀ r τ, (∃ steps depth, Host.loadFile ⟨files, steps, depth⟩ path σ = .of r τ) ↔
        ∃ s, RunsInTurn files forms (σ.addFrame (loadFileFrame path)).2 s τ ∧
          r = s.map fun _ => .nil := by
  refine ⟨tokenize_wrapInDo readable.closed, fun r τ => ?_⟩
  have hload := loadFile_evaluates (r := r) (τ := τ) loads found small text (read_wrapInDo readable)
  refine exists_eval_iff.trans (hload.trans ?_)
  constructor
  · intro h
    obtain ⟨e, rfl, hforms⟩ | ⟨values, ρ, hforms, hlast⟩ := Evaluates.of_sequence h
    · exact ⟨.error e, runsInTurn_iff.mpr ⟨_, hforms, rfl⟩, rfl⟩
    · have hnil : Evaluates files .nil .global ρ (.ok .nil) ρ := .constant trivial
      obtain ⟨rfl, rfl⟩ := hnil.unique hlast
      exact ⟨.ok (), runsInTurn_iff.mpr ⟨_, hforms, rfl⟩, rfl⟩
  · rintro ⟨s, hruns, rfl⟩
    obtain ⟨s', hforms, rfl⟩ := runsInTurn_iff.mp hruns
    cases s' with
    | error e => exact .sequenceFails hforms
    | ok values => exact .sequence hforms (.constant trivial)

theorem loadFile_runs_forms_define :
    let source := "(def! x 7) ; seven\nx"
    let files : Files := ⟨fun _ => .ok 20, fun _ => .ok source.toUTF8⟩
    let forms : List Value := [.list [.symbol "def!", .symbol "x", .int 7], .symbol "x"]
    let σ := startStore [] .silent
    (files.size "lib" = .ok 20 ∧ 20 ≤ maxFileSize ∧ files.text "lib" = .ok source) ∧
      ReadsForms (tokenize source) forms ∧ σ.LoadsFiles ∧
      ∃ steps depth τ, Host.loadFile ⟨files, steps, depth⟩ "lib" σ = .value .nil τ ∧
        τ.find? .global "x" = some (.int 7) := by
  intro source files forms σ
  let ρ := (σ.addFrame (loadFileFrame "lib")).2
  have htext : files.text "lib" = .ok source := Files.text_of_content rfl
  have hsource : tokenize source = [⟨.opening .round, "("⟩, ⟨.word, "def!"⟩, ⟨.word, "x"⟩,
      ⟨.word, "7"⟩, ⟨.closing .round, ")"⟩, ⟨.comment, "; seven"⟩, ⟨.word, "x"⟩] := by
    decide +kernel
  have hforms : ReadsForms (tokenize source) forms := by
    rw [hsource]
    exact .form rfl rfl (.comment rfl rfl (.form rfl rfl .done))
  obtain ⟨steps, depth, hstart⟩ := Host.exists_start files [] .silent
  have hloads : σ.LoadsFiles := ⟨_, _, _, _, hstart, fun _ _ => rfl⟩
  have hfound : files.size "lib" = .ok 20 := rfl
  obtain ⟨-, hruns⟩ := loadFile_runs_forms hfound (by decide) htext hforms hloads
  have hdefine : Evaluates files (form .define [.symbol "x", .int 7]) .global ρ (.ok (.int 7))
      (ρ.bind .global "x" (.int 7)) :=
    .define (.constant trivial)
  have hglobal : ρ.frame? .global = σ.frame? .global := rfl
  have hx : (ρ.bind .global "x" (.int 7)).find? .global "x" = some (.int 7) := by
    rw [Store.find?_global, Store.bound?, Store.frame?_bind, if_pos rfl, hglobal,
      startStore_frame?]
    rfl
  have hvalues := EvaluatesAll.cons hdefine (.one (.symbol hx))
  obtain ⟨steps, depth, h⟩ := (hruns (.ok .nil) _).mpr ⟨.ok (), runsInTurn_iff.mpr ⟨_, hvalues, rfl⟩, rfl⟩
  exact ⟨⟨rfl, by decide, htext⟩, hforms, hloads, steps, depth, _, h, hx⟩

end Lisp
