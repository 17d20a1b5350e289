import Lisp.Proofs.Ending
import Lisp.Proofs.Lifting

/-! The calls of `prn` and `println` that a session makes. They are handed to a handler, which does with the
output what it likes. Whatever that is, a session gives the same answers, leaves the same frames and atoms
and hands over the same calls. -/

namespace Lisp

/-- A call of `prn` or of `println`, with what atoms hold when it is made. -/
structure PrintCall where
  readable : Bool
  args : List Value
  cells : Cells

def PrintCall.line (call : PrintCall) : String :=
  " ".intercalate (call.args.map (Value.print call.cells call.readable))

/-- What is done to the output at a call. -/
abbrev Handler := PrintCall → Sink → Sink

namespace Handler

def writeLine : Handler := fun call s =>
  s.writeLine call.line

def print (h : Handler) : PrintAction := fun readable args => do
  .modify fun σ => σ.withOutput (h ⟨readable, args, σ.cells⟩ σ.output)
  pure .nil

/-- What a handler makes of the output in the course of these calls. -/
def after (h : Handler) (calls : List PrintCall) (s : Sink) : Sink :=
  calls.foldl (fun s call => h call s) s

theorem print_writeLine : writeLine.print = printLine := rfl

theorem after_append (h : Handler) (calls more : List PrintCall) (s : Sink) :
    h.after (calls ++ more) s = h.after more (h.after calls s) :=
  List.foldl_append

theorem writeLine_after (calls : List PrintCall) (text : String) :
    writeLine.after calls (.buffer text) =
      .buffer (text ++ String.join (calls.map fun call => call.line ++ "\n")) := by
  induction calls generalizing text with
  | nil => simp [after]
  | cons call calls ih =>
    have hfirst : writeLine call (.buffer text) = .buffer (text ++ (call.line ++ "\n")) :=
      Sink.writeLine_eq_write _ _
    have hrest := ih (text ++ (call.line ++ "\n"))
    rw [after, List.foldl_cons, hfirst]
    refine hrest.trans ?_
    simp [String.append_assoc]

theorem writeLine_after_silent (calls : List PrintCall) : writeLine.after calls .silent = .silent := by
  induction calls with
  | nil => rfl
  | cons call calls ih => exact ih

open Classical in
/-- Whether a call is this one. -/
noncomputable def mark (c call : PrintCall) : Char :=
  if call = c then '!' else '.'

/-- A handler that only tells which of the calls are this one. -/
noncomputable def marking (c : PrintCall) : Handler := fun call s =>
  s.write (.ofList [mark c call])

theorem mark_eq_iff {c call : PrintCall} : mark c call = mark c c ↔ call = c := by
  unfold mark
  split <;> simp_all

theorem marking_after (c : PrintCall) (calls : List PrintCall) (cs : List Char) :
    (marking c).after calls (.buffer (.ofList cs)) =
      .buffer (.ofList (cs ++ calls.map (mark c))) := by
  induction calls generalizing cs with
  | nil => simp [after]
  | cons call calls ih =>
    have hfirst : marking c call (.buffer (.ofList cs)) = .buffer (.ofList (cs ++ [mark c call])) := by
      simp [marking, Sink.write]
    rw [after, List.foldl_cons, hfirst]
    refine (ih (cs ++ [mark c call])).trans ?_
    simp

theorem eq_of_map_mark {calls calls' : List PrintCall}
    (h : ∀ c, calls.map (mark c) = calls'.map (mark c)) : calls = calls' := by
  induction calls generalizing calls' with
  | nil =>
    cases calls' with
    | nil => rfl
    | cons call' calls' => exact nomatch h call'
  | cons call calls ih =>
    cases calls' with
    | nil => exact nomatch h call
    | cons call' calls' =>
      obtain rfl := mark_eq_iff.mp (List.cons.inj (h call)).1.symm
      exact congrArg (call' :: ·) (ih fun c => (List.cons.inj (h c)).2)

/-- Calls are told apart by what some handler makes of them. -/
theorem after_injective {calls calls' : List PrintCall}
    (h : ∀ (h : Handler) s, h.after calls s = h.after calls' s) : calls = calls' := by
  refine eq_of_map_mark fun c => ?_
  have hmarks := h (marking c) (.buffer (.ofList []))
  rw [marking_after, marking_after] at hmarks
  exact String.ofList_inj.mp (Sink.buffer.inj hmarks)

end Handler

/-- A handler, with how many more steps and how many more levels there are for it. -/
structure Version where
  moreSteps : Nat
  deeper : Nat
  handler : Handler

/-- Where an action ends with the handler `h`, it ends with all handlers, and has the same result and leaves
the same store but for the output. This is what the handler makes of the same calls. -/
def HandsOver (h : Handler) (α : Type) (x : Version → Action α) : Prop :=
  ∀ ⦃σ : Store⦄ ⦃r : Except EvalError α⦄ ⦃τ : Store⦄, x ⟨0, 0, h⟩ σ = .of r τ →
    ∃ calls, ∀ i s, x i (σ.withOutput s) = .of r (τ.withOutput (i.handler.after calls s))

namespace HandsOver

variable {h : Handler} {α : Type}

theorem lifts (h : Handler) : Lifts ⟨0, 0, h⟩ (HandsOver h) where
  blind hx σ r τ hσ := by
    refine ⟨[], fun i s => (hx σ s).trans ?_⟩
    refine (congrArg (Outcome.withOutput s) hσ).trans ?_
    cases r <;> rfl
  same hle a b σ r τ hσ := by
    simp only [Evaluator.same_apply, Outcome.ofOption_eq_of] at hσ ⊢
    obtain ⟨answer, hanswer, rfl, rfl⟩ := hσ
    refine ⟨[], fun i s => ⟨answer, ?_, rfl, rfl⟩⟩
    exact Evaluator.equal?_refines τ.cells (hle i) a b answer hanswer
  halted hx σ r τ hσ := by
    rw [hx] at hσ
    exact absurd hσ Action.halt_ne_of
  bind hx hf σ r τ hσ := by
    obtain ⟨e, rfl, he⟩ | ⟨a, ρ, ha, hσ⟩ := Action.bind_eq_of.mp hσ
    · obtain ⟨calls, hcalls⟩ := hx he
      exact ⟨calls, fun i s => Action.bind_of_error _ (hcalls i s)⟩
    · obtain ⟨calls, hcalls⟩ := hx ha
      obtain ⟨more, hmore⟩ := hf a hσ
      refine ⟨calls ++ more, fun i s => (Action.bind_of_ok (hcalls i s)).trans ?_⟩
      rw [Handler.after_append]
      exact hmore i (i.handler.after calls s)

theorem print (readable : Bool) (args : List Value) :
    HandsOver h Value fun i => i.handler.print readable args := by
  intro σ r τ hσ
  obtain ⟨rfl, rfl⟩ := Outcome.value_eq_of.mp hσ
  exact ⟨[⟨readable, args, σ.cells⟩], fun i s => rfl⟩

theorem attempt {x : Version → Action α} (hx : HandsOver h α x) :
    HandsOver h (Except EvalError α) fun i => (x i).attempt := by
  intro σ r τ hσ
  obtain ⟨s, hs, rfl⟩ := Action.attempt_eq_of.mp hσ
  obtain ⟨calls, hcalls⟩ := hx hs
  exact ⟨calls, fun i t => Action.attempt_eq_of.mpr ⟨s, hcalls i t, rfl⟩⟩

end HandsOver

/-- An action that does not fail. -/
def Action.Succeeds {α : Type} (x : Action α) : Prop :=
  ∀ ⦃σ : Store⦄ ⦃r : Except EvalError α⦄ ⦃τ : Store⦄, x σ = .of r τ → ∃ a, r = .ok a

namespace Action.Succeeds

variable {α β : Type}

theorem pure (a : α) : Succeeds (pure a : Action α) :=
  fun _ _ _ h => ⟨a, (pure_eq_of.mp h).1⟩

theorem query (f : Store → α) : Succeeds (.query f) :=
  fun σ _ _ h => ⟨f σ, (query_eq_of.mp h).1⟩

theorem attempt (x : Action α) : Succeeds x.attempt := by
  intro σ r τ h
  obtain ⟨s, -, rfl⟩ := attempt_eq_of.mp h
  exact ⟨s, rfl⟩

theorem bind {x : Action α} {f : α → Action β} (hx : x.Succeeds) (hf : ∀ a, (f a).Succeeds) :
    Succeeds (x >>= f) := by
  intro σ r τ h
  obtain ⟨e, rfl, he⟩ | ⟨a, ρ, -, h⟩ := bind_eq_of.mp h
  · exact nomatch (hx he).choose_spec
  · exact hf a h

end Action.Succeeds

/-- What a session can be asked to do. -/
inductive Command
  | rep (source : String)
  | readEval (source : String)
  | eval (form : Value) (env : Env)
  | apply (f : Value) (args : List Value)
  | loadFile (path : String)

inductive Answer
  | text (text : String)
  | result (r : Except EvalError Value)

namespace Command

def perform (c : Command) (host : Host) : Action Answer :=
  match c with
  | rep source => do
    let text ← host.rep source
    pure (.text text)
  | readEval source => do
    let v ← host.evalToValue source
    pure (.result (.ok v))
  | eval form env => do
    let r ← (host.eval form env).attempt
    pure (.result r)
  | apply f args => do
    let r ← (host.apply f args).attempt
    pure (.result r)
  | loadFile path => do
    let r ← (host.loadFile path).attempt
    pure (.result r)

/-- An answer can tell of a failure, and no command fails itself. -/
theorem perform_succeeds (c : Command) (host : Host) : (c.perform host).Succeeds := by
  have hvalue (source : String) : (host.evalToValue source).Succeeds := by
    refine .bind (.attempt _) fun s => ?_
    cases s <;> exact .pure _
  cases c with
  | rep source => exact ((hvalue source).bind fun v => .query _).bind fun text => .pure _
  | readEval source => exact (hvalue source).bind fun v => .pure _
  | eval | apply | loadFile => exact .bind (.attempt _) fun r => .pure _

/-- The value of a text, when this evaluates forms. -/
def valueBy (eval : Value → Env → Action Value) (source : String) : Action Value := do
  let form : Action Value := do
    let form ← readSource source
    eval form .global
  match ← form.attempt with
  | .ok v => pure v
  | .error e => pure e.toValue

/-- What a command does when this evaluates forms and applies functions. -/
def performBy (eval : Value → Env → Action Value) (apply : Value → List Value → Action Value) :
    Command → Action Answer
  | .rep source => do
    let v ← valueBy eval source
    let text ← .query fun σ => v.print σ.cells true
    pure (.text text)
  | .readEval source => do
    let v ← valueBy eval source
    pure (.result (.ok v))
  | .eval form env => do
    let r ← (eval form env).attempt
    pure (.result r)
  | .apply f args => do
    let r ← (apply f args).attempt
    pure (.result r)
  | .loadFile path => do
    let r ← (eval (.list [.symbol "load-file", .str path]) .global).attempt
    pure (.result r)

/-- What a command does when each call of `prn` and `println` is handed to a handler. -/
def performWith (c : Command) (h : Handler) (host : Host) : Action Answer :=
  c.performBy (host.printing h.print).eval ((host.printing h.print).applyPrinting h.print)

theorem performWith_writeLine (c : Command) (host : Host) :
    c.performWith .writeLine host = c.perform host := by
  have happly : (host.printing printLine).applyPrinting printLine = host.apply := by
    funext f args
    rw [Evaluator.applyPrinting_printLine, Host.printing_printLine]
    rfl
  rw [performWith, Handler.print_writeLine, happly, Host.printing_printLine]
  cases c with
  | rep source => exact (bind_assoc _ _ _).symm
  | _ => rfl

variable {c : Command} {files : Files} {steps depth : Nat} {h : Handler} {σ τ : Store}
  {r : Except EvalError Answer}

theorem handsOver (c : Command) (h : Handler) (files : Files) (steps depth : Nat) :
    HandsOver h Answer fun i =>
      c.performWith i.handler ⟨files, steps + i.moreSteps, depth + i.deeper⟩ := by
  have hR := HandsOver.lifts h
  have halike : Alike ⟨0, 0, h⟩ (HandsOver h) files (fun i => i.handler.print) fun i =>
      Host.printing ⟨files, steps + i.moreSteps, depth + i.deeper⟩ i.handler.print :=
    hR.alike HandsOver.print files (fun i => Nat.le_add_right steps i.moreSteps)
      fun i => Nat.le_add_right depth i.deeper
  have hvalue (source : String) : HandsOver h Value fun i => valueBy
      (Host.printing ⟨files, steps + i.moreSteps, depth + i.deeper⟩ i.handler.print).eval source := by
    refine hR.bind (HandsOver.attempt ?_) fun s => ?_
    · exact hR.bind (hR.blind (.readSource source)) fun form => halike.eval form .global
    · cases s <;> exact hR.pure _
  cases c with
  | rep source =>
    exact hR.bind (hvalue source) fun v => hR.map (hR.blind (.query fun _ _ => rfl)) _
  | readEval source => exact hR.map (hvalue source) _
  | eval form env => exact hR.map (HandsOver.attempt (halike.eval form env)) _
  | apply f args => exact hR.map (HandsOver.attempt (halike.applyPrinting hR f args)) _
  | loadFile path => exact hR.map (HandsOver.attempt (halike.eval _ .global)) _

/-- Where a command ends with one handler, it ends with all, and does so with any greater budget. -/
theorem performWith_of (hends : c.performWith h ⟨files, steps, depth⟩ σ = .of r τ) :
    ∃ calls, ∀ more deeper h s, steps ≤ more → depth ≤ deeper →
      c.performWith h ⟨files, more, deeper⟩ (σ.withOutput s) =
        .of r (τ.withOutput (h.after calls s)) := by
  obtain ⟨calls, hcalls⟩ := c.handsOver h files steps depth hends
  refine ⟨calls, fun more deeper h s hsteps hdepth => ?_⟩
  obtain ⟨k, rfl⟩ := Nat.exists_eq_add_of_le hsteps
  obtain ⟨l, rfl⟩ := Nat.exists_eq_add_of_le hdepth
  exact hcalls ⟨k, l, h⟩ s

theorem steady (c : Command) (h : Handler) (files : Files) : Steady files (c.performWith h) := by
  rintro σ r τ ⟨steps, depth, hends⟩
  obtain ⟨calls, hcalls⟩ := performWith_of hends
  refine ⟨max steps depth, fun more deeper hsteps hdepth => ?_⟩
  have hself := hcalls steps depth h σ.output le_rfl le_rfl
  have hmore := hcalls more deeper h σ.output (by omega) (by omega)
  exact hmore.trans (hself.symm.trans hends)

/-- A command, begun in this store, makes these calls: whatever the output is, and whatever handler takes the
place of the one that prints, it is given them one after the other. -/
def Calls (files : Files) (c : Command) (σ : Store) (calls : List PrintCall) : Prop :=
  ∀ (h : Handler) s, ∃ r τ, Ends files (c.performWith h) (σ.withOutput s) r τ ∧
    τ.output = h.after calls s

theorem Calls.unique {calls calls' : List PrintCall} (hcalls : c.Calls files σ calls)
    (hcalls' : c.Calls files σ calls') : calls = calls' := by
  -- For each handler there are two runs, which may have different budgets but end in the same way.
  refine Handler.after_injective fun h s => ?_
  obtain ⟨r, τ, hends, hout⟩ := hcalls h s
  obtain ⟨r', τ', hends', hout'⟩ := hcalls' h s
  rw [← hout, ← hout', (hends.unique (c.steady h files) hends').2]

theorem steady_perform (c : Command) (files : Files) : Steady files c.perform := by
  have hsame : c.performWith .writeLine = c.perform := funext c.performWith_writeLine
  rw [← hsame]
  exact c.steady .writeLine files

/-- A command that ends does so whatever the output is. It makes the same calls and ends with the same
answer and store, but for the output, which a line is added to at each call. -/
theorem exists_calls (hends : Ends files c.perform σ r τ) :
    ∃ calls, c.Calls files σ calls ∧ τ.output = Handler.writeLine.after calls σ.output ∧
      ∀ s, Ends files c.perform (σ.withOutput s) r (τ.withOutput (Handler.writeLine.after calls s)) := by
  have hends' := hends
  obtain ⟨steps, depth, hrun⟩ := hends'
  rw [← performWith_writeLine] at hrun
  obtain ⟨calls, hcalls⟩ := performWith_of hrun
  have hall (s : Sink) :
      Ends files c.perform (σ.withOutput s) r (τ.withOutput (Handler.writeLine.after calls s)) := by
    refine ⟨steps, depth, ?_⟩
    rw [← performWith_writeLine]
    exact hcalls steps depth .writeLine s le_rfl le_rfl
  have hself := (hends.unique (c.steady_perform files) (hall σ.output)).2
  refine ⟨calls, fun h s => ?_, congrArg Store.output hself.symm, hall⟩
  exact ⟨r, _, ⟨steps, depth, hcalls steps depth h s le_rfl le_rfl⟩, rfl⟩

end Command

/-- A session: commands, each with what it is answered, from one store to another. -/
inductive Conversation (files : Files) : Store → List (Command × Answer) → Store → Prop
  | finished {σ} : Conversation files σ [] σ
  | next {σ c a ρ rest τ} (answered : Ends files (Command.perform c) σ (.ok a) ρ)
    (later : Conversation files ρ rest τ) : Conversation files σ ((c, a) :: rest) τ

namespace Conversation

variable {files : Files} {σ τ : Store} {exchanges : List (Command × Answer)}

theorem withOutput (h : Conversation files σ exchanges τ) (s : Sink) :
    ∃ s', Conversation files (σ.withOutput s) exchanges (τ.withOutput s') := by
  induction h generalizing s with
  | finished => exact ⟨s, .finished⟩
  | next answered _ ih =>
    obtain ⟨calls, -, -, hall⟩ := Command.exists_calls answered
    obtain ⟨s', later⟩ := ih (Handler.writeLine.after calls s)
    exact ⟨s', .next (hall s) later⟩

theorem silent (h : Conversation files σ exchanges τ) (hσ : σ.output = .silent) :
    τ.output = .silent := by
  induction h with
  | finished => exact hσ
  | next answered _ ih =>
    obtain ⟨calls, -, hout, -⟩ := Command.exists_calls answered
    rw [hσ, Handler.writeLine_after_silent] at hout
    exact ih hout

theorem silent_iff {text : String} :
    Conversation files (σ.withOutput .silent) exchanges τ ↔
      ∃ τ', Conversation files (σ.withOutput (.buffer text)) exchanges τ' ∧
        τ = τ'.withOutput .silent := by
  constructor
  · intro h
    obtain ⟨s, h'⟩ := h.withOutput (.buffer text)
    refine ⟨_, h', ?_⟩
    rw [Store.withOutput_withOutput, ← h.silent rfl, Store.withOutput_self]
  · rintro ⟨τ', h, rfl⟩
    obtain ⟨s, h'⟩ := h.withOutput .silent
    obtain rfl : s = .silent := h'.silent rfl
    exact h'

end Conversation

/-- A session goes the same way with a buffer as with silence for its output: with the same answers, and to
the same store but for the output. What a command adds to a buffer are the lines of the calls that it makes,
and nothing else. -/
theorem output_only_written (files : Files) :
    (∀ (c : Command) host, c.performWith .writeLine host = c.perform host) ∧
    (∀ (σ : Store) text exchanges τ,
      Conversation files (σ.withOutput .silent) exchanges τ ↔
        ∃ τ', Conversation files (σ.withOutput (.buffer text)) exchanges τ' ∧
          τ = τ'.withOutput .silent) ∧
    (∀ (c : Command) host, (c.perform host).Succeeds) ∧
    ∀ (c : Command) (σ : Store) text r τ, σ.output = .buffer text → Ends files c.perform σ r τ →
      ∃ calls, (∀ calls', c.Calls files σ calls' ↔ calls' = calls) ∧
        τ.output = .buffer (text ++ String.join (calls.map fun call => call.line ++ "\n")) := by
  refine ⟨Command.performWith_writeLine, fun _ _ _ _ => Conversation.silent_iff,
    Command.perform_succeeds, ?_⟩
  intro c σ text r τ hσ hends
  obtain ⟨calls, hcalls, hout, -⟩ := Command.exists_calls hends
  refine ⟨calls, fun calls' => ⟨fun h => h.unique hcalls, fun h => h ▸ hcalls⟩, ?_⟩
  rw [hout, hσ, Handler.writeLine_after]

/-- A command that prints a string and then fails. -/
theorem output_only_written_failing :
    let c : Command := .eval (SpecialForm.form .sequence [.list [.symbol "prn", .str "a"],
      .list [.symbol "throw", .str "x"]]) .global
    let a : Answer := .result (.error (.thrown "x"))
    let σ : Store := ((Store.empty (.buffer "; ")).addFrame .builtins).2
    let τ : Store := σ.withOutput (.buffer "; \"a\"\n")
    (Conversation .empty (σ.withOutput (.buffer "; ")) [(c, a)] τ ∧
      Conversation .empty (σ.withOutput .silent) [(c, a)] (τ.withOutput .silent)) ∧
    σ.output = .buffer "; " ∧ Ends .empty c.perform σ (.ok a) τ ∧
      ∃ calls, (∀ calls', c.Calls .empty σ calls' ↔ calls' = calls) ∧
        τ.output = .buffer ("; " ++ String.join (calls.map fun call => call.line ++ "\n")) := by
  intro c a σ τ
  obtain ⟨-, hsilent, -, hcalls⟩ := output_only_written .empty
  have hends : Ends .empty c.perform σ (.ok a) τ := ⟨8, 8, rfl⟩
  have hbuffer : Conversation .empty (σ.withOutput (.buffer "; ")) [(c, a)] τ := .next hends .finished
  refine ⟨⟨hbuffer, ?_⟩, rfl, hends, hcalls c σ "; " (.ok a) τ rfl hends⟩
  exact (hsilent σ "; " [(c, a)] (τ.withOutput .silent)).mpr ⟨τ, hbuffer, rfl⟩

end Lisp
