import Lisp.Proofs.Ending
import Lisp.Proofs.Scope
import Lisp.Proofs.Writes

/-! Forms that write, when they fail: nothing is bound and no atom gets a new content, whatever was
evaluated on the way to the failure. So an atom holds what the calls that did not fail made of its
content, one after the other. -/

namespace Lisp

open SpecialForm (form)

/-- Why a form that binds a name does not bind it, by what its operand came to. -/
inductive Refused : SpecialForm → Except EvalError Value → EvalError → Prop
  | fails {sf e} : Refused sf (.error e) e
  | noClosure {v} (noClosure : ∀ c, v ≠ .closure c) :
    Refused .defineMacro (.ok v) (.invalidForm "defmacro!" s!"expected a function, got {v.kind.name}")

/-- What such a form binds: the value of its operand, or the macro that is made of it. -/
inductive Made : SpecialForm → Value → Store → Value → Store → Prop
  | define {v σ} : Made .define v σ v σ
  | defineMacro {c σ m τ} (made : σ.addClosure c.params c.body c.env true = (m, τ)) :
    Made .defineMacro (.closure c) σ (.closure m) τ

/-- Why `swap!` does not apply a function. -/
inductive NoSwap : List Value → EvalError → Prop
  | number {args} (number : args.length < 2) : NoSwap args (.tooFewArguments 2 args.length)
  | noAtom {a f extra} (noAtom : ∀ c, a ≠ .atom c) :
    NoSwap (a :: f :: extra) (.wrongArgType "atom" a.kind)

section

variable {files : Files} {env : Env} {σ τ : Store} {r : Except EvalError Value}

theorem evaluates_binding {sf : SpecialForm} (binds : sf = .define ∨ sf = .defineMacro)
    {operands : List Value} :
    Evaluates files (form sf operands) env σ r τ ↔
      (∃ e, Malformed sf operands e ∧ r = .error e ∧ τ = σ) ∨
      ∃ name value s ρ, operands = [.symbol name, value] ∧ Evaluates files value env σ s ρ ∧
        ((∃ e, Refused sf s e ∧ r = .error e ∧ τ = ρ) ∨
          ∃ w v ρ', s = .ok w ∧ Made sf w ρ v ρ' ∧ r = .ok v ∧ τ = ρ'.bind env name v) := by
  constructor
  · intro h
    generalize hcall : form sf operands = call at h
    cases h with
    | constant isConstant => subst hcall; cases isConstant
    | symbol | unbound | thrown | vector | map | mapFails => cases hcall
    | macroCall ordinary | macroCallFails ordinary => exact absurd hcall.symm (ordinary _ _)
    | application ordinary | headFails ordinary | argumentFails ordinary =>
      exact absurd hcall.symm (ordinary _ _)
    | malformed bad =>
      obtain ⟨rfl, rfl⟩ := SpecialForm.form_inj hcall
      exact .inl ⟨_, bad, rfl, rfl⟩
    | define evaluated =>
      obtain ⟨rfl, rfl⟩ := SpecialForm.form_inj hcall
      exact .inr ⟨_, _, _, _, rfl, evaluated, .inr ⟨_, _, _, rfl, .define, rfl, rfl⟩⟩
    | defineFails fails | defineMacroFails fails =>
      obtain ⟨rfl, rfl⟩ := SpecialForm.form_inj hcall
      exact .inr ⟨_, _, _, _, rfl, fails, .inl ⟨_, .fails, rfl, rfl⟩⟩
    | defineMacro evaluated made =>
      obtain ⟨rfl, rfl⟩ := SpecialForm.form_inj hcall
      exact .inr ⟨_, _, _, _, rfl, evaluated, .inr ⟨_, _, _, rfl, .defineMacro made, rfl, rfl⟩⟩
    | macroNoClosure evaluated noClosure =>
      obtain ⟨rfl, rfl⟩ := SpecialForm.form_inj hcall
      exact .inr ⟨_, _, _, _, rfl, evaluated, .inl ⟨_, .noClosure noClosure, rfl, rfl⟩⟩
    | _ =>
      obtain ⟨rfl, -⟩ := SpecialForm.form_inj hcall
      rcases binds with binds | binds <;> cases binds
  · rintro (⟨e, bad, rfl, rfl⟩ | ⟨name, value, s, ρ, rfl, evaluated, hnext⟩)
    · exact .malformed bad
    · rcases hnext with ⟨e, refused, rfl, rfl⟩ | ⟨w, v, ρ', rfl, made, rfl, rfl⟩
      · cases refused with
        | fails =>
          rcases binds with rfl | rfl
          · exact .defineFails evaluated
          · exact .defineMacroFails evaluated
        | noClosure noClosure => exact .macroNoClosure evaluated noClosure
      · cases made with
        | define => exact .define evaluated
        | defineMacro made => exact .defineMacro evaluated made

theorem applies_swap {args : List Value} :
    Applies files (.function .swap) args σ r τ ↔
      (∃ e, NoSwap args e ∧ r = .error e ∧ τ = σ) ∨
      ∃ c f extra ρ, args = .atom c :: f :: extra ∧
        Applies files f (σ.cells.content c :: extra) σ r ρ ∧
          τ = r.toOption.elim ρ (ρ.setContent c) := by
  constructor
  · intro h
    cases h with
    | swap applied | swapFails applied => exact .inr ⟨_, _, _, _, rfl, applied, rfl⟩
    | swapNoAtom noAtom => exact .inl ⟨_, .noAtom noAtom, rfl, rfl⟩
    | swapArity number => exact .inl ⟨_, .number number, rfl, rfl⟩
    | builtin _ noSwap => exact absurd rfl noSwap
    | noFunction noBuiltin => exact absurd rfl (noBuiltin _)
  · rintro (⟨e, noSwap, rfl, rfl⟩ | ⟨c, f, extra, ρ, rfl, applied, rfl⟩)
    · cases noSwap with
      | number number => exact .swapArity number
      | noAtom noAtom => exact .swapNoAtom noAtom
    · cases r with
      | ok v => exact .swap applied
      | error e => exact .swapFails applied

theorem applies_reset {c : Cell} {rest : List Value} :
    Applies files (.function .reset) (.atom c :: rest) σ r τ ↔
      (∃ v, rest = [v] ∧ r = .ok v ∧ τ = σ.setContent c v) ∨
        rest.length ≠ 1 ∧ r = .error (.arityMismatch 2 (rest.length + 1)) ∧ τ = σ := by
  have hcall (ev : Evaluator) : ev.call .reset (.atom c :: rest) σ = .of r τ ↔
      (∃ v, rest = [v] ∧ r = .ok v ∧ τ = σ.setContent c v) ∨
        rest.length ≠ 1 ∧ r = .error (.arityMismatch 2 (rest.length + 1)) ∧ τ = σ := by
    match rest with
    | [v] =>
      have hset : ev.call .reset [.atom c, v] σ = .of (.ok v) (σ.setContent c v) := rfl
      rw [hset, Outcome.of_inj]
      simp [eq_comm]
    | [] | _ :: _ :: rest =>
      refine Outcome.failure_eq_of.trans ?_
      simp
  constructor
  · intro h
    cases h with
    | builtin _ _ called => exact (hcall _).mp called
    | noFunction noBuiltin => exact absurd rfl (noBuiltin _)
  · exact fun h => .builtin (by simp) (by simp) ((hcall (.idle files 0)).mpr h)

theorem content_setContent {c : Cell} (h : c.slot < σ.cells.size) (v : Value) :
    (σ.setContent c v).cells[c.slot]? = some v := by
  simp [Store.setContent, h]

theorem Cells.content_of_getElem? {cells : Cells} {c : Cell} {v : Value}
    (h : cells[c.slot]? = some v) : cells.content c = v := by
  simp [Cells.content, h]

end

/-- A call that may give an atom a new content, with the arguments after the atom. -/
inductive AtomCall
  | reset (rest : List Value)
  | swap (rest : List Value)

namespace AtomCall

def function : AtomCall → Builtin
  | .reset _ => .reset
  | .swap _ => .swap

def rest : AtomCall → List Value
  | .reset rest | .swap rest => rest

/-- The function that is applied, if one is, does not write the atom. -/
def Keeps (files : Files) (a : Cell) (σ : Store) : AtomCall → Prop
  | .swap (f :: extra) => ∀ r τ,
    Ends files (·.apply f (σ.cells.content a :: extra)) σ r τ → τ.cells.content a = σ.cells.content a
  | _ => True

/-- What a call comes to when this is the content of its atom. -/
inductive Gives (files : Files) (content : Value) : AtomCall → Except EvalError Value → Prop
  | reset {v} : Gives files content (.reset [v]) (.ok v)
  | resetArity {rest} (number : rest.length ≠ 1) :
    Gives files content (.reset rest) (.error (.arityMismatch 2 (rest.length + 1)))
  | swap {f extra σ r τ} (applied : Ends files (·.apply f (content :: extra)) σ r τ) :
    Gives files content (.swap (f :: extra)) r
  | swapArity : Gives files content (.swap []) (.error (.tooFewArguments 2 1))

/-- The content of an atom after a call: what was returned, and what it held before if nothing was. -/
def contentAfter (content : Value) (call : AtomCall × Except EvalError Value) : Value :=
  call.2.toOption.getD content

/-- Each call comes to its result on the content that the calls before it left. -/
def Folds (files : Files) : Value → List (AtomCall × Except EvalError Value) → Prop
  | _, [] => True
  | content, call :: calls =>
    call.1.Gives files content call.2 ∧ Folds files (contentAfter content call) calls

end AtomCall

/-- Calls on an atom in turn, with what they came to. The next is made whether or not one fails, and
only calls write the atom. -/
inductive AtomRun (files : Files) (a : Cell) :
    Store → List (AtomCall × Except EvalError Value) → Store → Prop
  | done {σ} : AtomRun files a σ [] σ
  | call {c : AtomCall} {r calls σ ρ τ} (keeps : c.Keeps files a σ)
    (ends : Ends files (·.apply (.function c.function) (.atom a :: c.rest)) σ r ρ)
    (more : AtomRun files a ρ calls τ) : AtomRun files a σ ((c, r) :: calls) τ
  | between {calls σ ρ τ} (keeps : ρ.cells[a.slot]? = σ.cells[a.slot]?)
    (more : AtomRun files a ρ calls τ) : AtomRun files a σ calls τ

section

variable {files : Files} {env : Env} {σ τ : Store}

/-- One call takes the content of its atom to what it returns, or leaves it. -/
theorem AtomCall.contentAfter_of_ends {a : Cell} {c : AtomCall} {content : Value}
    {r : Except EvalError Value} (holds : σ.cells[a.slot]? = some content)
    (keeps : c.Keeps files a σ)
    (ends : Ends files (·.apply (.function c.function) (.atom a :: c.rest)) σ r τ) :
    c.Gives files content r ∧ τ.cells[a.slot]? = some (contentAfter content (c, r)) := by
  have hslot : a.slot < σ.cells.size := (Array.getElem?_eq_some_iff.mp holds).1
  have hcontent := Cells.content_of_getElem? holds
  have ends := ends_apply.mp ends
  cases c with
  | reset rest =>
    obtain ⟨v, rfl, rfl, rfl⟩ | ⟨number, rfl, rfl⟩ := applies_reset.mp ends
    · exact ⟨.reset, content_setContent hslot v⟩
    · exact ⟨.resetArity number, holds⟩
  | swap rest =>
    obtain ⟨e, noSwap, rfl, rfl⟩ | ⟨c, f, extra, ρ, hargs, applied, rfl⟩ := applies_swap.mp ends
    · refine ⟨?_, holds⟩
      generalize hargs : Value.atom a :: (AtomCall.swap rest).rest = args at noSwap
      cases noSwap with
      | number number =>
        subst hargs
        match rest with
        | [] => exact .swapArity
        | _ :: _ => exact absurd number (by simp [AtomCall.rest])
      | noAtom noAtom => exact absurd (List.cons.inj hargs).1.symm (noAtom a)
    · obtain ⟨ha, hrest⟩ := List.cons.inj hargs
      obtain rfl := Value.atom.inj ha
      obtain rfl : rest = f :: extra := hrest
      have happly := ends_apply.mpr applied
      have hkept : ρ.cells.content a = σ.cells.content a := keeps _ _ happly
      rw [hcontent] at happly
      refine ⟨.swap happly, ?_⟩
      have hslot : a.slot < ρ.cells.size := hslot.trans_le applied.writes.cells_size
      cases r with
      | ok v => exact content_setContent hslot v
      | error e =>
        rw [hcontent] at hkept
        obtain ⟨w, hw⟩ : ∃ w, ρ.cells[a.slot]? = some w := ⟨_, Array.getElem?_eq_getElem hslot⟩
        rw [← hkept, Cells.content_of_getElem? hw]
        exact hw

/-- The content of an atom after calls in turn is the fold of those that did not fail. -/
theorem AtomRun.folds {a : Cell} {calls : List (AtomCall × Except EvalError Value)}
    (h : AtomRun files a σ calls τ) {content : Value} (holds : σ.cells[a.slot]? = some content) :
    AtomCall.Folds files content calls ∧
      τ.cells[a.slot]? = some (calls.foldl AtomCall.contentAfter content) := by
  induction h generalizing content with
  | done => exact ⟨trivial, holds⟩
  | call keeps ends _ ih =>
    obtain ⟨hgives, hholds⟩ := AtomCall.contentAfter_of_ends holds keeps ends
    obtain ⟨hfolds, hlast⟩ := ih hholds
    exact ⟨⟨hgives, hfolds⟩, hlast⟩
  | between keeps _ ih => exact ih (keeps.trans holds)

theorem ends_binding_fails {sf : SpecialForm} (binds : sf = .define ∨ sf = .defineMacro)
    {operands : List Value} {e : EvalError} :
    Ends files (·.eval (form sf operands) env) σ (.error e) τ ↔
      (Malformed sf operands e ∧ τ = σ) ∨
      ∃ name value s, operands = [.symbol name, value] ∧
        Ends files (·.eval value env) σ s τ ∧ Refused sf s e := by
  simp only [ends_eval, evaluates_binding binds]
  constructor
  · rintro (⟨e, bad, ⟨⟩, rfl⟩ | ⟨name, value, s, ρ, rfl, evaluated, hnext⟩)
    · exact .inl ⟨bad, rfl⟩
    · rcases hnext with ⟨e, refused, ⟨⟩, rfl⟩ | ⟨_, _, _, _, _, ⟨⟩, _⟩
      exact .inr ⟨name, value, s, rfl, evaluated, refused⟩
  · rintro (⟨bad, rfl⟩ | ⟨name, value, s, rfl, evaluated, refused⟩)
    · exact .inl ⟨e, bad, rfl, rfl⟩
    · exact .inr ⟨name, value, s, τ, rfl, evaluated, .inl ⟨e, refused, rfl, rfl⟩⟩

theorem ends_binding_succeeds {sf : SpecialForm} (binds : sf = .define ∨ sf = .defineMacro)
    {operands : List Value} {v : Value} :
    Ends files (·.eval (form sf operands) env) σ (.ok v) τ ↔
      ∃ name value w ρ ρ', operands = [.symbol name, value] ∧
        Ends files (·.eval value env) σ (.ok w) ρ ∧ Made sf w ρ v ρ' ∧ τ = ρ'.bind env name v := by
  simp only [ends_eval, evaluates_binding binds]
  constructor
  · rintro (⟨e, -, ⟨⟩, -⟩ | ⟨name, value, s, ρ, rfl, evaluated, hnext⟩)
    rcases hnext with ⟨e, -, ⟨⟩, -⟩ | ⟨w, v, ρ', rfl, made, ⟨⟩, rfl⟩
    exact ⟨name, value, w, ρ, ρ', rfl, evaluated, made, rfl⟩
  · rintro ⟨name, value, w, ρ, ρ', rfl, evaluated, made, rfl⟩
    exact .inr ⟨name, value, _, ρ, rfl, evaluated, .inr ⟨w, v, ρ', rfl, made, rfl, rfl⟩⟩

/-- What was bound last is what the name means, since frames do not go away. -/
theorem find?_of_made {sf : SpecialForm} {value v w : Value} {ρ ρ' : Store} (name : String)
    (hframe : (σ.frame? env).isSome) (evaluated : Ends files (·.eval value env) σ (.ok w) ρ)
    (made : Made sf w ρ v ρ') : (ρ'.bind env name v).find? env name = some v := by
  have hframes : ρ'.frames = ρ.frames := by
    cases made with
    | define => rfl
    | defineMacro made =>
      cases made
      rfl
  have hsize : σ.frames.size ≤ ρ'.frames.size := by
    rw [hframes]
    exact (ends_eval.mp evaluated).writes.frames_size
  have hlt : env.frame < σ.frames.size := by simpa [Store.frame?] using hframe
  have hframe' : (ρ'.frame? env).isSome := by
    simpa [Store.frame?] using hlt.trans_le hsize
  exact Store.find?_bind_self hframe' name v

theorem evaluates_swap {operands : List Value} {r : Except EvalError Value}
    (found : σ.find? env "swap!" = some (.function .swap)) :
    Evaluates files (.list (.symbol "swap!" :: operands)) env σ r τ ↔
      (∃ e, r = .error e ∧ EvaluatesAll files operands env σ (.error e) τ) ∨
      ∃ args ρ, EvaluatesAll files operands env σ (.ok args) ρ ∧
        ((∃ e, NoSwap args e ∧ r = .error e ∧ τ = ρ) ∨
          ∃ c f extra ρ', args = .atom c :: f :: extra ∧
            Applies files f (ρ.cells.content c :: extra) ρ r ρ' ∧
              τ = r.toOption.elim ρ' (ρ'.setContent c)) := by
  simp only [← applies_swap]
  exact evaluates_builtin (b := .swap) found

theorem ends_swap_fails {operands : List Value} {e : EvalError}
    (found : σ.find? env "swap!" = some (.function .swap)) :
    Ends files (·.eval (.list (.symbol "swap!" :: operands)) env) σ (.error e) τ ↔
      Ends files (·.evaluator.evalAll operands env) σ (.error e) τ ∨
      ∃ args ρ, Ends files (·.evaluator.evalAll operands env) σ (.ok args) ρ ∧
        ((NoSwap args e ∧ τ = ρ) ∨ ∃ c f extra, args = .atom c :: f :: extra ∧
          Ends files (·.apply f (ρ.cells.content c :: extra)) ρ (.error e) τ) := by
  simp only [ends_eval, ends_evalAll, ends_apply, evaluates_swap found]
  constructor
  · rintro (⟨e, ⟨⟩, fails⟩ | ⟨args, ρ, arguments, hcall⟩)
    · exact .inl fails
    · rcases hcall with ⟨e, noSwap, ⟨⟩, rfl⟩ | ⟨c, f, extra, ρ', rfl, applied, rfl⟩
      · exact .inr ⟨args, _, arguments, .inl ⟨noSwap, rfl⟩⟩
      · exact .inr ⟨_, ρ, arguments, .inr ⟨c, f, extra, rfl, applied⟩⟩
  · rintro (fails | ⟨args, ρ, arguments, ⟨noSwap, rfl⟩ | ⟨c, f, extra, rfl, applied⟩⟩)
    · exact .inl ⟨e, rfl, fails⟩
    · exact .inr ⟨args, τ, arguments, .inl ⟨e, noSwap, rfl, rfl⟩⟩
    · exact .inr ⟨_, ρ, arguments, .inr ⟨c, f, extra, τ, rfl, applied, rfl⟩⟩

theorem ends_swap_succeeds {operands : List Value} {v : Value}
    (found : σ.find? env "swap!" = some (.function .swap)) :
    Ends files (·.eval (.list (.symbol "swap!" :: operands)) env) σ (.ok v) τ ↔
      ∃ c f extra ρ ρ', Ends files (·.evaluator.evalAll operands env) σ (.ok (.atom c :: f :: extra)) ρ ∧
        Ends files (·.apply f (ρ.cells.content c :: extra)) ρ (.ok v) ρ' ∧ τ = ρ'.setContent c v := by
  simp only [ends_eval, ends_evalAll, ends_apply, evaluates_swap found]
  constructor
  · rintro (⟨e, ⟨⟩, -⟩ | ⟨args, ρ, arguments, hcall⟩)
    rcases hcall with ⟨e, -, ⟨⟩, -⟩ | ⟨c, f, extra, ρ', rfl, applied, rfl⟩
    exact ⟨c, f, extra, ρ, ρ', arguments, applied, rfl⟩
  · rintro ⟨c, f, extra, ρ, ρ', arguments, applied, rfl⟩
    exact .inr ⟨_, ρ, arguments, .inr ⟨c, f, extra, ρ', rfl, applied, rfl⟩⟩

end

/-- Forms that write do so as a whole or not at all. When `def!` and `defmacro!` fail, the store is the
one that their operand left, and when `swap!` fails, it is the one that the function left. When they
succeed, what they return is what is bound or held then. So an atom holds the fold of all calls that
did not fail. -/
theorem writes_nothing_on_failure (files : Files) :
    (∀ sf, sf = .define ∨ sf = .defineMacro → ∀ operands env σ τ,
      (∀ e, Ends files (·.eval (form sf operands) env) σ (.error e) τ ↔
        (Malformed sf operands e ∧ τ = σ) ∨
        ∃ name value s, operands = [.symbol name, value] ∧
          Ends files (·.eval value env) σ s τ ∧ Refused sf s e) ∧
      ∀ v, Ends files (·.eval (form sf operands) env) σ (.ok v) τ ↔
        ∃ name value w ρ ρ', operands = [.symbol name, value] ∧
          Ends files (·.eval value env) σ (.ok w) ρ ∧ Made sf w ρ v ρ' ∧ τ = ρ'.bind env name v ∧
          ((σ.frame? env).isSome → τ.find? env name = some v)) ∧
    (∀ operands env σ τ, σ.find? env "swap!" = some (.function .swap) →
      (∀ e, Ends files (·.eval (.list (.symbol "swap!" :: operands)) env) σ (.error e) τ ↔
        Ends files (·.evaluator.evalAll operands env) σ (.error e) τ ∨
        ∃ args ρ, Ends files (·.evaluator.evalAll operands env) σ (.ok args) ρ ∧
          ((NoSwap args e ∧ τ = ρ) ∨ ∃ c f extra, args = .atom c :: f :: extra ∧
            Ends files (·.apply f (ρ.cells.content c :: extra)) ρ (.error e) τ)) ∧
      ∀ v, Ends files (·.eval (.list (.symbol "swap!" :: operands)) env) σ (.ok v) τ ↔
        ∃ c f extra ρ ρ',
          Ends files (·.evaluator.evalAll operands env) σ (.ok (.atom c :: f :: extra)) ρ ∧
          Ends files (·.apply f (ρ.cells.content c :: extra)) ρ (.ok v) ρ' ∧
          τ = ρ'.setContent c v ∧ (c.slot < ρ.cells.size → τ.cells[c.slot]? = some v)) ∧
    ∀ a calls σ τ content, AtomRun files a σ calls τ → σ.cells[a.slot]? = some content →
      AtomCall.Folds files content calls ∧
        τ.cells[a.slot]? = some (calls.foldl AtomCall.contentAfter content) := by
  refine ⟨fun sf binds operands env σ τ => ⟨fun e => ends_binding_fails binds, fun v => ?_⟩,
    fun operands env σ τ found => ⟨fun e => ends_swap_fails found, fun v => ?_⟩,
    fun _ _ _ _ _ run holds => run.folds holds⟩
  · rw [ends_binding_succeeds binds]
    constructor
    · rintro ⟨name, value, w, ρ, ρ', hoperands, evaluated, made, rfl⟩
      exact ⟨name, value, w, ρ, ρ', hoperands, evaluated, made, rfl,
        fun hframe => find?_of_made name hframe evaluated made⟩
    · rintro ⟨name, value, w, ρ, ρ', hoperands, evaluated, made, hτ, -⟩
      exact ⟨name, value, w, ρ, ρ', hoperands, evaluated, made, hτ⟩
  · rw [ends_swap_succeeds found]
    constructor
    · rintro ⟨c, f, extra, ρ, ρ', arguments, applied, rfl⟩
      have hcells := (ends_apply.mp applied).writes.cells_size
      exact ⟨c, f, extra, ρ, ρ', arguments, applied, rfl,
        fun hslot => content_setContent (hslot.trans_le hcells) v⟩
    · rintro ⟨c, f, extra, ρ, ρ', arguments, applied, hτ, -⟩
      exact ⟨c, f, extra, ρ, ρ', arguments, applied, hτ⟩

/-- A division by zero between two calls that do not fail, and a name that is not bound. -/
theorem writes_nothing_on_failure_division :
    let a : Cell := ⟨0⟩
    let σ : Store := ⟨#[⟨[("swap!", .function .swap), ("/", .function .divide), ("a", .atom a)],
      none⟩], #[.int 6], 0, .silent⟩
    let calls : List (AtomCall × Except EvalError Value) := [(.reset [.int 8], .ok (.int 8)),
      (.swap [.function .divide, .int 0], .error .divisionByZero),
      (.swap [.function .divide, .int 2], .ok (.int 4))]
    let τ := (σ.setContent a (.int 8)).setContent a (.int 4)
    Ends .empty (·.eval (form .define [.symbol "x", .symbol "y"]) .global) σ
        (.error (.symbolNotFound "y")) σ ∧
      Ends .empty (·.eval (.list [.symbol "swap!", .symbol "a", .symbol "/", .int 0]) .global) σ
        (.error .divisionByZero) σ ∧
      AtomRun .empty a σ calls τ ∧ τ.cells[a.slot]? = some (.int 4) := by
  intro a σ calls τ
  obtain ⟨hbinding, hswap, hrun⟩ := writes_nothing_on_failure .empty
  have hdefine := ((hbinding .define (.inl rfl) [.symbol "x", .symbol "y"] .global σ σ).1
    (.symbolNotFound "y")).mpr (.inr ⟨"x", .symbol "y", _, rfl, ⟨2, 2, rfl⟩, .fails⟩)
  have hdivide : Ends .empty (·.apply (.function .divide) [.int 6, .int 0]) σ
      (.error .divisionByZero) σ := ⟨0, 0, rfl⟩
  have hfails := ((hswap [.symbol "a", .symbol "/", .int 0] .global σ σ rfl).1 .divisionByZero).mpr
    (.inr ⟨_, σ, ⟨3, 3, rfl⟩, .inr ⟨a, .function .divide, [.int 0], rfl, hdivide⟩⟩)
  let ρ := σ.setContent a (.int 8)
  have hkeeps (divisor : Int64) {r : Except EvalError Value}
      (h : Ends .empty (·.apply (.function .divide) [.int 8, .int divisor]) ρ r ρ) :
      (AtomCall.swap [.function .divide, .int divisor]).Keeps .empty a ρ := by
    intro r' τ' h'
    obtain ⟨-, rfl⟩ := h.unique (Steady.apply _ _) h'
    rfl
  have hzero : Ends .empty (·.apply (.function .divide) [.int 8, .int 0]) ρ
      (.error .divisionByZero) ρ := ⟨0, 0, rfl⟩
  have htwo : Ends .empty (·.apply (.function .divide) [.int 8, .int 2]) ρ (.ok (.int 4)) ρ :=
    ⟨0, 0, rfl⟩
  have hcalls : AtomRun .empty a σ calls τ :=
    .call trivial ⟨0, 0, rfl⟩ <| .call (hkeeps 0 hzero) ⟨0, 0, rfl⟩ <|
      .call (hkeeps 2 htwo) ⟨0, 0, rfl⟩ .done
  exact ⟨hdefine, hfails, hcalls, (hrun a calls σ τ (.int 6) hcalls rfl).2⟩

end Lisp
