import Lisp.Proofs.Blindness
import Lisp.Proofs.PrintHook

/-! Evaluation in several versions at once. What relates the versions of each single action, and passes
from two actions to one after the other, relates the versions of evaluation. -/

namespace Lisp

variable {ι : Type} {source : ι} {R : (α : Type) → (ι → Action α) → Prop}

/-- A property of actions in several versions that actions have that are the same in all of them, if the
output makes no difference to them. It says nothing of actions whose version `source` is halted. -/
structure Lifts (source : ι) (R : (α : Type) → (ι → Action α) → Prop) : Prop where
  blind {α : Type} {x : Action α} (hx : x.Blind) : R α fun _ => x
  same {ev : ι → Evaluator} (hle : ∀ i, (ev source).patience ≤ (ev i).patience) (a b : Value) :
    R Bool fun i => (ev i).same a b
  halted {α : Type} {x : ι → Action α} {why : Halt} (hx : x source = .halt why) : R α x
  bind {α β : Type} {x : ι → Action α} {f : ι → α → Action β} (hx : R α x)
    (hf : ∀ a, R β fun i => f i a) : R β fun i => x i >>= f i

/-- Evaluators, one for each version, whose evaluations have such a property, and what is done to print
has it. -/
structure Alike (source : ι) (R : (α : Type) → (ι → Action α) → Prop) (files : Files)
    (print : ι → PrintAction) (ev : ι → Evaluator) : Prop where
  files i : (ev i).files = files
  patience i : (ev source).patience ≤ (ev i).patience
  eval value env : R Value fun i => (ev i).eval value env
  print readable args : R Value fun i => print i readable args

theorem exists_pred {n : ι → Nat} {k : Nat} (hn : ∀ i, n source ≤ n i) (hk : n source = k + 1) :
    ∃ m : ι → Nat, (∀ i, m source ≤ m i) ∧ n = fun i => m i + 1 := by
  refine ⟨fun i => n i - 1, fun i => Nat.sub_le_sub_right (hn i) 1, ?_⟩
  refine funext fun i => (Nat.sub_add_cancel ?_).symm
  have hle := hn i
  omega

namespace Lifts

open Lisp.Action (Blind)

variable (hR : Lifts source R) {α : Type}

include hR

theorem pure (a : α) : R α fun _ => pure a :=
  hR.blind (Blind.pure a)

theorem fail (e : EvalError) : R α fun _ => .fail e :=
  hR.blind (Blind.fail e)

theorem ofExcept (r : Except EvalError α) : R α fun _ => .ofExcept r :=
  hR.blind (Blind.ofExcept r)

theorem map {β : Type} {x : ι → Action α} (hx : R α x) (f : α → β) :
    R β fun i => x i >>= fun a => Pure.pure (f a) :=
  hR.bind hx fun a => hR.pure (f a)

theorem boundName (sf : SpecialForm) (v : Value) : R String fun _ => sf.boundName v := by
  unfold SpecialForm.boundName
  split
  · exact hR.pure _
  · exact hR.fail _

theorem macroNamed? (head : Value) (env : Env) :
    R (Option (Closure Value)) fun _ => Evaluator.macroNamed? head env := by
  unfold Evaluator.macroNamed?
  split
  · refine hR.bind (hR.blind (Blind.get? env _)) fun found => ?_
    split
    · exact hR.pure _
    · exact hR.pure _
  · exact hR.pure _

theorem lookup (env : Env) (name : String) : R Value fun _ => env.lookup name := by
  refine hR.bind (hR.blind (Blind.get? env name)) fun found => ?_
  cases found with
  | some v => exact hR.pure v
  | none => exact hR.fail _

theorem makeClosure (operands : List Value) (env : Env) :
    R Step fun _ => Evaluator.makeClosure operands env := by
  unfold Evaluator.makeClosure
  split
  · split
    · exact hR.bind (hR.ofExcept _) fun params =>
        hR.map (hR.blind (Blind.addClosure params _ env false)) _
    · exact hR.fail _
  · exact hR.fail _

theorem swapContent {apply : ι → Value → List Value → Action Value}
    (happly : ∀ f args, R Value fun i => apply i f args) (args : List Value) :
    R Value fun i => Builtin.swapContent (apply i) args := by
  unfold Builtin.swapContent
  split
  · next a f extra =>
    refine hR.bind (hR.ofExcept _) fun c => ?_
    split
    all_goals first
      | exact hR.fail _
      | exact hR.bind (hR.blind (Blind.getContent c)) fun content =>
          hR.bind (happly _ (content :: extra)) fun v =>
          hR.map (hR.blind (Blind.setContent c v)) _
  · exact hR.fail _

end Lifts

namespace Alike

open Lisp.Action (Blind)

variable {files : Files} {print : ι → PrintAction} {ev : ι → Evaluator}
  (h : Alike source R files print ev) (hR : Lifts source R)

include h hR

theorem evalAll (forms : List Value) (env : Env) :
    R (List Value) fun i => (ev i).evalAll forms env := by
  induction forms with
  | nil => exact hR.pure []
  | cons form forms ih =>
    simp only [Evaluator.evalAll_cons]
    exact hR.bind (h.eval form env) fun v => hR.map ih _

theorem insert (k v : Value) (es : Entries) :
    R Entries fun i => Entries.insert (ev i).same k v es := by
  induction es with
  | nil => exact hR.pure _
  | cons e es ih =>
    unfold Entries.insert
    refine hR.bind (hR.same h.patience e.1 k) fun answer => ?_
    cases answer with
    | true => exact hR.pure _
    | false => exact hR.map ih _

theorem mapOf (pairs : List (Value × Value)) : R Value fun i => (ev i).mapOf pairs := by
  refine hR.map ?_ _
  unfold Entries.ofList
  generalize ([] : Entries) = done
  induction pairs generalizing done with
  | nil => exact hR.pure done
  | cons pair pairs ih =>
    simp only [List.foldlM_cons]
    exact hR.bind (h.insert hR pair.1 pair.2 done) ih

theorem applyClosure (c : Closure Value) (args : List Value) :
    R Value fun i => (ev i).applyClosure c args :=
  hR.bind (hR.blind (Blind.enter c.env c.params args)) fun inner => h.eval c.body inner

theorem splice (env : Env) (form : Value) : R (List Value) fun i => (ev i).splice env form := by
  refine hR.bind (h.eval form env) fun v => ?_
  cases v.items? with
  | some items => exact hR.pure items
  | none => exact hR.fail _

mutual

theorem fill (env : Env) (template : Value) : R Value fun i => (ev i).fill env template := by
  unfold Evaluator.fill
  cases Marker.unquote.body? template with
  | some form => exact h.eval form env
  | none =>
    cases template with
    | list items => exact hR.map (fillItems env [] items) _
    | vector items => exact hR.map (fillItems env [] items) _
    | _ => exact hR.pure _

theorem fillItems (env : Env) (done items : List Value) :
    R (List Value) fun i => (ev i).fillItems env done items := by
  match items with
  | [] => exact hR.pure _
  | item :: items =>
    unfold Evaluator.fillItems
    cases Marker.spliceUnquote.body? item with
    | some form => exact hR.bind (h.splice hR env form) fun spliced => fillItems env _ items
    | none => exact hR.bind (fill env item) fun v => fillItems env _ items

end

/-- Each version may go on for longer with a chain of expansions than `source` does. -/
theorem expandUpTo (env : Env) (n : ι → Nat) (hn : ∀ i, n source ≤ n i) (form : Value) :
    R Value fun i => (ev i).expandUpTo env (n i) form := by
  induction hk : n source generalizing n form with
  | zero =>
    have hhalt : (ev source).expandUpTo env (n source) form = .halt .outOfSteps := by
      rw [hk, Evaluator.expandUpTo]
    exact hR.halted hhalt
  | succ k ih =>
    obtain ⟨m, hm, rfl⟩ := exists_pred hn hk
    unfold Evaluator.expandUpTo
    split
    · next head operands =>
      refine hR.bind (hR.macroNamed? head env) fun found => ?_
      cases found with
      | some c =>
        refine hR.bind (h.applyClosure hR c operands) fun expansion => ?_
        exact ih m hm expansion (Nat.succ.inj hk)
      | none => exact hR.pure _
    · exact hR.pure _

theorem define (operands : List Value) (env : Env) : R Step fun i => (ev i).define operands env := by
  unfold Evaluator.define
  split
  · next name form =>
    exact hR.bind (hR.boundName _ name) fun name => hR.bind (h.eval form env) fun v =>
      hR.map (hR.blind (Blind.set env name v)) _
  · exact hR.fail _

theorem defineMacro (operands : List Value) (env : Env) :
    R Step fun i => (ev i).defineMacro operands env := by
  unfold Evaluator.defineMacro
  split
  · next name form =>
    refine hR.bind (hR.boundName _ name) fun name => hR.bind (h.eval form env) fun v => ?_
    cases v with
    | closure c =>
      exact hR.bind (hR.blind (Blind.addClosure c.params c.body c.env true)) fun m =>
        hR.map (hR.blind (Blind.set env name (.closure m))) _
    | _ => exact hR.fail _
  · exact hR.fail _

theorem bindAll (inner : Env) : (items : List Value) → R Unit fun i => (ev i).bindAll inner items
  | [] => hR.pure ()
  | [_] => hR.pure ()
  | name :: form :: items => by
    unfold Evaluator.bindAll
    exact hR.bind (hR.boundName _ name) fun name => hR.bind (h.eval form inner) fun v =>
      hR.bind (hR.blind (Blind.set inner name v)) fun _ => bindAll inner items

theorem letIn (operands : List Value) (env : Env) : R Step fun i => (ev i).letIn operands env := by
  unfold Evaluator.letIn
  split
  · split
    · next items _ =>
      split
      · exact hR.fail _
      · exact hR.bind (hR.blind (Blind.addFrame _)) fun inner => hR.map (h.bindAll hR inner items) _
    · exact hR.fail _
  · exact hR.fail _

theorem sequence (env : Env) (operands : List Value) :
    R Step fun i => (ev i).sequence env operands := by
  obtain rfl | ⟨forms, last, rfl⟩ := List.eq_nil_or_concat' operands
  · exact hR.pure _
  · simp only [Evaluator.sequence_append]
    exact hR.map (h.evalAll hR forms env) _

theorem conditional (operands : List Value) (env : Env) :
    R Step fun i => (ev i).conditional operands env := by
  unfold Evaluator.conditional
  split
  · exact hR.map (h.eval _ env) _
  · exact hR.map (h.eval _ env) _
  · exact hR.fail _

theorem evalSpecial (sf : SpecialForm) (operands : List Value) (env : Env) :
    R Step fun i => (ev i).evalSpecial sf operands env := by
  unfold Evaluator.evalSpecial
  split
  · exact h.define hR operands env
  · exact h.letIn hR operands env
  · exact h.sequence hR env operands
  · exact h.conditional hR operands env
  · exact hR.makeClosure operands env
  · split
    · exact hR.pure _
    · exact hR.fail _
  · split
    · exact hR.map (h.fill hR env _) _
    · exact hR.fail _
  · exact h.defineMacro hR operands env
  · split
    · exact hR.map (h.expandUpTo hR env _ h.patience _) _
    · exact hR.fail _

/-- A call of a builtin that neither prints nor applies a function. -/
theorem call {b : Builtin} (noPrint : b ≠ .prn ∧ b ≠ .println) (noSwap : b ≠ .swap)
    (args : List Value) : R Value fun i => (ev i).call b args := by
  have text (readable : Bool) (separator : String) :
      R String fun _ => joinTexts readable separator args :=
    hR.blind (Blind.joinTexts readable separator args)
  cases b
  case prn => exact absurd rfl noPrint.1
  case println => exact absurd rfl noPrint.2
  case swap => exact absurd rfl noSwap
  all_goals simp only [Evaluator.call, Evaluator.callWithin, h.files]
  case equal => exact hR.bind (hR.ofExcept _) fun pair => hR.map (hR.same h.patience pair.1 pair.2) _
  case eval => exact hR.bind (hR.ofExcept _) fun form => h.eval form .global
  case not | isAtom => exact hR.map (hR.ofExcept _) _
  case throw =>
    unfold throwTexts
    split
    · exact hR.fail _
    · exact hR.bind (text false " ") fun _ => hR.fail _
  case str | prStr => exact hR.map (text _ _) _
  case list => exact hR.pure _
  case atom => exact hR.bind (hR.ofExcept _) fun v => hR.map (hR.blind (Blind.makeCell v)) _
  case deref =>
    exact hR.bind (hR.ofExcept _) fun v => hR.bind (hR.ofExcept _) fun c =>
      hR.blind (Blind.getContent c)
  case reset =>
    exact hR.bind (hR.ofExcept _) fun pair => hR.bind (hR.ofExcept _) fun c =>
      hR.map (hR.blind (Blind.setContent c pair.2)) _
  case readString =>
    exact hR.bind (hR.ofExcept _) fun v => hR.bind (hR.ofExcept _) fun source =>
      hR.blind (Blind.readSource source)
  case slurp =>
    exact hR.bind (hR.ofExcept _) fun v => hR.bind (hR.ofExcept _) fun path =>
      hR.blind (Blind.fileContent files path)
  all_goals exact hR.ofExcept _

theorem applyBy {call : ι → Builtin → List Value → Action Value}
    (hcall : ∀ b args, R Value fun i => call i b args) (f : Value) (args : List Value) :
    R Value fun i => (ev i).applyBy (call i) f args := by
  cases f with
  | function b => exact hcall b args
  | closure c => exact h.applyClosure hR c args
  | _ => exact hR.fail _

theorem callPrinting (depth : Nat) (b : Builtin) (args : List Value) :
    R Value fun i => (ev i).callPrinting (print i) depth b args := by
  induction depth generalizing b args with
  | zero =>
    unfold Evaluator.callPrinting
    split
    · exact h.print true args
    · exact h.print false args
    · exact hR.fail _
    · next noPrn noPrintln noSwap => exact h.call hR ⟨noPrn, noPrintln⟩ noSwap args
  | succ depth ih =>
    unfold Evaluator.callPrinting
    split
    · exact h.print true args
    · exact h.print false args
    · exact hR.swapContent (h.applyBy hR ih) args
    · next noPrn noPrintln noSwap => exact h.call hR ⟨noPrn, noPrintln⟩ noSwap args

theorem applyPrinting (f : Value) (args : List Value) :
    R Value fun i => (ev i).applyPrinting (print i) f args :=
  h.applyBy hR (h.callPrinting hR args.length) f args

theorem enterCallPrinting (f : Value) (args : List Value) :
    R Step fun i => (ev i).enterCallPrinting (print i) f args := by
  cases f with
  | function b => exact hR.map (h.callPrinting hR args.length b args) _
  | closure c => exact hR.map (hR.blind (Blind.enter c.env c.params args)) _
  | _ => exact hR.fail _

theorem stepListPrinting (head : Value) (operands : List Value) (env : Env) :
    R Step fun i => (ev i).stepListPrinting (print i) head operands env := by
  unfold Evaluator.stepListPrinting
  split
  · next sf _ => exact h.evalSpecial hR sf operands env
  · refine hR.bind (hR.macroNamed? head env) fun found => ?_
    cases found with
    | some c => exact hR.map (h.applyClosure hR c operands) _
    | none =>
      exact hR.bind (h.eval head env) fun f => hR.bind (h.evalAll hR operands env) fun args =>
        h.enterCallPrinting hR f args

theorem stepPrinting (value : Value) (env : Env) :
    R Step fun i => (ev i).stepPrinting (print i) value env := by
  match value with
  | .list (head :: operands) => exact h.stepListPrinting hR head operands env
  | .symbol name => exact hR.map (hR.lookup env name) _
  | .vector items => exact hR.map (h.evalAll hR items env) _
  | .map entries =>
    simp only [Evaluator.stepPrinting, Evaluator.step_map]
    exact hR.bind (h.evalAll hR _ env) fun values => hR.map (h.mapOf hR _) _
  | .error message => exact hR.fail _
  | .list [] | .int _ | .bool _ | .nil | .eof | .keyword _ | .str _ | .function _ | .closure _
  | .atom _ => exact hR.pure _

theorem finish (s : Step) : R Value fun i => (ev i).finish s := by
  cases s with
  | done v => exact hR.pure v
  | next value env => exact h.eval value env

end Alike

/-- Evaluation in versions that print differently, take at least as many steps as `source` does and go at
least as deep. -/
theorem Lifts.alike (hR : Lifts source R) {print : ι → PrintAction}
    (hprint : ∀ readable args, R Value fun i => print i readable args) (files : Files)
    {steps depth : ι → Nat} (hsteps : ∀ i, steps source ≤ steps i)
    (hdepth : ∀ i, depth source ≤ depth i) :
    Alike source R files print fun i => Host.printing ⟨files, steps i, depth i⟩ (print i) := by
  refine ⟨fun _ => rfl, hsteps, fun value env => ?_, hprint⟩
  -- Where `source` has a step left, so do all versions, and they take it together.
  induction hk : steps source generalizing steps depth value env with
  | zero =>
    have hhalt : evalPrinting (print source) files (steps source) (depth source) value env =
        .halt .outOfSteps := by
      rw [hk, evalPrinting]
    exact hR.halted hhalt
  | succ k ih =>
    obtain ⟨m, hm, rfl⟩ := exists_pred hsteps hk
    have halike {depth : ι → Nat} (hdepth : ∀ i, depth source ≤ depth i) :
        Alike source R files print fun i => Host.printing ⟨files, m i, depth i⟩ (print i) :=
      ⟨fun _ => rfl, hm, fun value env => ih hm hdepth value env (Nat.succ.inj hk), hprint⟩
    cases hd : depth source with
    | zero =>
      have hhalt : evalPrinting (print source) files (m source + 1) (depth source) value env =
          .halt .tooDeep := by
        rw [hd, evalPrinting]
      exact hR.halted hhalt
    | succ d =>
      obtain ⟨l, hl, rfl⟩ := exists_pred hdepth hd
      exact hR.bind ((halike hl).stepPrinting hR value env) fun s => (halike hdepth).finish hR s

end Lisp
