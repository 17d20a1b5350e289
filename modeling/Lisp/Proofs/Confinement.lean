import Lisp.Proofs.Effect
import Lisp.Proofs.Isolation
import Lisp.Proofs.Rules

/-! Which frames each rule of evaluation writes. The rules are run by an evaluator whose
evaluations write no frame but that of their own environment and the global one, and neither of
these without a definition. -/

namespace Lisp

namespace Keeps

variable {writable : Env → Prop}

theorem boundName (sf : SpecialForm) (v : Value) : Keeps writable (sf.boundName v) := by
  unfold SpecialForm.boundName
  split
  · exact pure _
  · exact fail _

theorem set {env : Env} (h : writable env) (name : String) (v : Value) :
    Keeps writable (env.set name v) :=
  modify fun σ => .bind h σ name v

theorem macroNamed? (head : Value) (env : Env) :
    Keeps writable (Evaluator.macroNamed? head env) := by
  intro σ r τ h
  rw [Evaluator.macroNamed?_apply head []] at h
  obtain ⟨-, rfl⟩ := Outcome.value_eq_of.mp h
  exact .refl _

theorem lookup (env : Env) (name : String) : Keeps writable (env.lookup name) := by
  refine bind (query _) fun found => ?_
  cases found with
  | some v => exact pure v
  | none => exact fail _

theorem setContent (c : Cell) (v : Value) : Keeps writable (c.set v) :=
  modify fun _ => .of_frames rfl

/-- What is done in the environment that arguments are bound in may write its frame. -/
theorem enter {β : Type} {f : Env → Action β} (parent : Env) (params : Params) (args : List Value)
    (hf : ∀ inner, Keeps (fun e => e = inner ∨ writable e) (f inner)) :
    Keeps writable (parent.enter params args >>= f) := by
  unfold Env.enter
  cases params.frame parent args with
  | error e => exact fail e
  | ok frame => exact addFrame hf

variable (ev : Evaluator)

theorem mapOf (pairs : List (Value × Value)) : Keeps writable (ev.mapOf pairs) := by
  intro σ r τ h
  obtain ⟨_, _, _, rfl⟩ := Evaluator.mapOf_eq_of.mp h
  exact .refl _

theorem call {b : Builtin} (noEval : b ≠ .eval) (noSwap : b ≠ .swap) (args : List Value) :
    Keeps writable (ev.call b args) :=
  fun _ _ _ h => .of_frames (Store.frames_of_effects (Makes.call ev noEval noSwap args h))

end Keeps

def Value.isDefinition : Value → Bool
  | .list (.symbol name :: _) =>
    name = SpecialForm.define.name || name = SpecialForm.defineMacro.name
  | _ => false

theorem SpecialForm.isDefinition_form {sf : SpecialForm} (h : sf = .define ∨ sf = .defineMacro)
    (operands : List Value) : (form sf operands).isDefinition = true := by
  obtain rfl | rfl := h <;> simp [form, Value.isDefinition]

/-- An evaluator whose evaluations write no frame but that of their environment and the global
one, of those that it evaluates definitions in. -/
structure Evaluator.Confined (defining : Env → Prop) (ev : Evaluator) : Prop where
  eval (value : Value) (env : Env) :
    Keeps (fun e => (e = env ∨ e = .global) ∧ defining e) (ev.eval value env)

/-- A step that writes the frames of no environments but these, together with what it goes on
with. -/
def Tail (defining writable : Env → Prop) (x : Action Step) : Prop :=
  ∀ ev : Evaluator, ev.Confined defining → Keeps writable (x >>= ev.finish)

variable {defining : Env → Prop} {ev : Evaluator}

theorem Keeps.of_global {α : Type} {env : Env} {x : Action α}
    (h : Keeps (fun e => e = .global ∧ defining e) x) :
    Keeps (fun e => (e = env ∨ e = .global) ∧ defining e) x :=
  h.mono fun _ he => he.imp_left .inr

theorem Evaluator.Confined.eval_inner (hev : ev.Confined defining) (value : Value) (inner : Env) :
    Keeps (fun e => e = inner ∨ e = .global ∧ defining e) (ev.eval value inner) := by
  refine (hev.eval value inner).mono ?_
  rintro e ⟨he, hd⟩
  exact he.imp_right fun hg => ⟨hg, hd⟩

namespace Tail

variable {α : Type} {writable : Env → Prop}

theorem bind {x : Action α} {f : α → Action Step} (hx : Keeps writable x)
    (hf : ∀ a, Tail defining writable (f a)) :
    Tail defining writable (x >>= f) := by
  intro ev hev
  rw [bind_assoc]
  exact hx.bind fun a => hf a ev hev

theorem fail (e : EvalError) : Tail defining writable (.fail e) :=
  fun _ _ => Keeps.fail e

theorem done (v : Value) : Tail defining writable (pure (.done v)) := by
  intro ev hev
  rw [pure_bind]
  exact Keeps.pure v

theorem next {env : Env} (value : Value)
    (hw : ∀ e, (e = env ∨ e = .global) ∧ defining e → writable e) :
    Tail defining writable (pure (.next value env)) := by
  intro ev hev
  rw [pure_bind]
  exact (hev.eval value env).mono hw

theorem next_inner (value : Value) (inner : Env) :
    Tail defining (fun e => e = inner ∨ e = .global ∧ defining e) (pure (.next value inner)) := by
  intro ev hev
  rw [pure_bind]
  exact hev.eval_inner value inner

theorem addFrame {new : Frame} {f : Env → Action Step}
    (hf : ∀ inner, Tail defining (fun e => e = inner ∨ writable e) (f inner)) :
    Tail defining writable (.update (·.addFrame new) >>= f) := by
  intro ev hev
  rw [bind_assoc]
  exact Keeps.addFrame fun inner => hf inner ev hev

theorem of_keeps {x : Action Value} (hx : Keeps writable x) :
    Tail defining writable (x >>= fun v => pure (.done v)) :=
  bind hx fun v => done v

theorem mono {writable' : Env → Prop} {x : Action Step} (h : Tail defining writable' x)
    (hw : ∀ e, writable' e → writable e) : Tail defining writable x :=
  fun ev hev => (h ev hev).mono hw

theorem of_global {env : Env} {x : Action Step}
    (h : Tail defining (fun e => e = .global ∧ defining e) x) :
    Tail defining (fun e => (e = env ∨ e = .global) ∧ defining e) x :=
  h.mono fun _ he => he.imp_left .inr

end Tail

namespace Evaluator.Confined

variable {env : Env}

theorem evalAll (hev : ev.Confined defining) (forms : List Value) (env : Env) :
    Keeps (fun e => (e = env ∨ e = .global) ∧ defining e) (ev.evalAll forms env) := by
  induction forms with
  | nil => exact Keeps.pure []
  | cons form forms ih =>
    rw [evalAll_cons]
    exact (hev.eval form env).bind fun v => ih.bind fun vs => Keeps.pure (v :: vs)

theorem applyClosure (hev : ev.Confined defining) (c : Closure Value) (args : List Value) :
    Keeps (fun e => e = .global ∧ defining e) (ev.applyClosure c args) := by
  exact Keeps.enter c.env c.params args fun inner => hev.eval_inner c.body inner

theorem call (hev : ev.Confined defining) (b : Builtin) {args : List Value}
    (happly : ∀ f content rest, rest.length + 2 = args.length →
      Keeps (fun e => e = .global ∧ defining e) (ev.apply f (content :: rest))) :
    Keeps (fun e => e = .global ∧ defining e) (ev.call b args) := by
  by_cases noEval : b = .eval
  · subst noEval
    simp only [Evaluator.call, Evaluator.callWithin]
    refine Keeps.bind (Keeps.ofExcept _) fun form => ?_
    have heval := hev.eval form .global
    exact heval.mono fun e he => ⟨or_self_iff.mp he.1, he.2⟩
  · by_cases noSwap : b = .swap
    · subst noSwap
      rw [call_swap]
      unfold Builtin.swapContent
      split
      · next a f extra =>
        refine Keeps.bind (Keeps.ofExcept _) fun c => ?_
        split
        all_goals first
          | exact Keeps.fail _
          | exact Keeps.bind (Keeps.query _) fun content =>
              (happly _ content extra rfl).bind fun v =>
              (Keeps.setContent c v).bind fun _ => Keeps.pure v
      · exact Keeps.fail _
    · exact Keeps.call ev noEval noSwap args

theorem apply (hev : ev.Confined defining) (f : Value) (args : List Value) :
    Keeps (fun e => e = .global ∧ defining e) (ev.apply f args) := by
  induction hn : args.length using Nat.strong_induction_on generalizing f args with
  | _ n ih =>
    cases f with
    | function b =>
      refine hev.call b fun f content rest hlen => ?_
      have hlt : (content :: rest).length < n := by
        rw [List.length_cons]
        omega
      exact ih _ hlt f _ rfl
    | closure c => exact hev.applyClosure c args
    | _ => exact Keeps.fail _

theorem splice (hev : ev.Confined defining) (env : Env) (form : Value) :
    Keeps (fun e => (e = env ∨ e = .global) ∧ defining e) (ev.splice env form) := by
  refine (hev.eval form env).bind fun v => ?_
  cases v.items? with
  | some items => exact Keeps.pure items
  | none => exact Keeps.fail _

mutual

theorem fill (hev : ev.Confined defining) (env : Env) (template : Value) :
    Keeps (fun e => (e = env ∨ e = .global) ∧ defining e) (ev.fill env template) := by
  unfold Evaluator.fill
  cases Marker.unquote.body? template with
  | some form => exact hev.eval form env
  | none =>
    cases template with
    | list items => exact (hev.fillItems env [] items).bind fun _ => Keeps.pure _
    | vector items => exact (hev.fillItems env [] items).bind fun _ => Keeps.pure _
    | _ => exact Keeps.pure _

theorem fillItems (hev : ev.Confined defining) (env : Env) (done items : List Value) :
    Keeps (fun e => (e = env ∨ e = .global) ∧ defining e) (ev.fillItems env done items) := by
  match items with
  | [] => exact Keeps.pure _
  | item :: items =>
    unfold Evaluator.fillItems
    cases Marker.spliceUnquote.body? item with
    | some form => exact (hev.splice env form).bind fun spliced => hev.fillItems env _ items
    | none => exact (hev.fill env item).bind fun v => hev.fillItems env _ items

end

theorem expandUpTo (hev : ev.Confined defining) (env : Env) (n : Nat) (form : Value) :
    Keeps (fun e => e = .global ∧ defining e) (ev.expandUpTo env n form) := by
  induction n generalizing form with
  | zero => exact Keeps.halt _
  | succ n ih =>
    unfold Evaluator.expandUpTo
    split
    · next head operands =>
      refine (Keeps.macroNamed? head env).bind fun found => ?_
      cases found with
      | some c => exact (hev.applyClosure c operands).bind fun expansion => ih expansion
      | none => exact Keeps.pure _
    · exact Keeps.pure _

/-! The special forms. Only a definition writes the frame that it stands in. -/

theorem define (hev : ev.Confined defining) (henv : defining env) (operands : List Value) :
    Tail defining (fun e => (e = env ∨ e = .global) ∧ defining e) (ev.define operands env) := by
  unfold Evaluator.define
  split
  · next name form =>
    refine Tail.bind (Keeps.boundName _ name) fun name => Tail.bind (hev.eval form env) fun v => ?_
    exact Tail.bind (Keeps.set ⟨.inl rfl, henv⟩ name v) fun _ => Tail.done v
  · exact Tail.fail _

theorem defineMacro (hev : ev.Confined defining) (henv : defining env) (operands : List Value) :
    Tail defining (fun e => (e = env ∨ e = .global) ∧ defining e)
      (ev.defineMacro operands env) := by
  unfold Evaluator.defineMacro
  split
  · next name form =>
    refine Tail.bind (Keeps.boundName _ name) fun name => Tail.bind (hev.eval form env) fun v => ?_
    cases v with
    | closure c =>
      refine Tail.bind (Keeps.update fun _ => .of_frames rfl) fun m => ?_
      exact Tail.bind (Keeps.set ⟨.inl rfl, henv⟩ name (.closure m)) fun _ => Tail.done _
    | _ => exact Tail.fail _
  · exact Tail.fail _

theorem bindAll (hev : ev.Confined defining) (inner : Env) : (items : List Value) →
    Keeps (fun e => e = inner ∨ e = .global ∧ defining e) (ev.bindAll inner items)
  | [] => Keeps.pure ()
  | [_] => Keeps.pure ()
  | name :: form :: items => by
    unfold Evaluator.bindAll
    refine (Keeps.boundName _ name).bind fun name => ?_
    refine (hev.eval_inner form inner).bind fun v => ?_
    exact (Keeps.set (.inl rfl) name v).bind fun _ => hev.bindAll inner items

theorem letIn (hev : ev.Confined defining) (operands : List Value) (env : Env) :
    Tail defining (fun e => e = .global ∧ defining e) (ev.letIn operands env) := by
  unfold Evaluator.letIn
  split
  · next bindings body =>
    split
    · next items _ =>
      split
      · exact Tail.fail _
      · refine Tail.addFrame fun inner => ?_
        exact Tail.bind (hev.bindAll inner items) fun _ => Tail.next_inner body inner
    · exact Tail.fail _
  · exact Tail.fail _

theorem sequence (hev : ev.Confined defining) (env : Env) (operands : List Value) :
    Tail defining (fun e => (e = env ∨ e = .global) ∧ defining e) (ev.sequence env operands) := by
  obtain rfl | ⟨forms, last, rfl⟩ := List.eq_nil_or_concat' operands
  · exact Tail.done .nil
  · rw [sequence_append]
    exact Tail.bind (hev.evalAll forms env) fun _ => Tail.next last fun _ he => he

theorem conditional (hev : ev.Confined defining) (operands : List Value) (env : Env) :
    Tail defining (fun e => (e = env ∨ e = .global) ∧ defining e)
      (ev.conditional operands env) := by
  unfold Evaluator.conditional
  split
  · next condition thenForm =>
    refine Tail.bind (hev.eval condition env) fun v => ?_
    split
    · exact Tail.next thenForm fun _ he => he
    · exact Tail.done .nil
  · next condition thenForm elseForm =>
    exact Tail.bind (hev.eval condition env) fun v => Tail.next _ fun _ he => he
  · exact Tail.fail _

theorem makeClosure {writable : Env → Prop} (operands : List Value) (env : Env) :
    Tail defining writable (makeClosure operands env) := by
  unfold Evaluator.makeClosure
  split
  · split
    · exact Tail.bind (Keeps.ofExcept _) fun params =>
        Tail.bind (Keeps.update fun _ => .of_frames rfl) fun c => Tail.done (.closure c)
    · exact Tail.fail _
  · exact Tail.fail _

theorem evalSpecial (hev : ev.Confined defining) {sf : SpecialForm}
    (henv : sf = .define ∨ sf = .defineMacro → defining env) (operands : List Value) :
    Tail defining (fun e => (e = env ∨ e = .global) ∧ defining e)
      (ev.evalSpecial sf operands env) := by
  unfold Evaluator.evalSpecial
  split
  · exact hev.define (henv (.inl rfl)) operands
  · exact (hev.letIn operands env).of_global
  · exact hev.sequence env operands
  · exact hev.conditional operands env
  · exact makeClosure operands env
  · split
    · exact Tail.done _
    · exact Tail.fail _
  · split
    · exact Tail.of_keeps (hev.fill env _)
    · exact Tail.fail _
  · exact hev.defineMacro (henv (.inr rfl)) operands
  · split
    · exact Tail.of_keeps (hev.expandUpTo env _ _).of_global
    · exact Tail.fail _

theorem enterCall (hev : ev.Confined defining) (f : Value) (args : List Value) :
    Tail defining (fun e => e = .global ∧ defining e) (ev.enterCall f args) := by
  cases f with
  | closure c =>
    intro next hnext
    unfold Evaluator.enterCall
    rw [bind_assoc]
    exact Keeps.enter c.env c.params args fun inner => Tail.next_inner c.body inner next hnext
  | function b => exact Tail.of_keeps (hev.apply (.function b) args)
  | _ => exact Tail.fail _

theorem stepList (hev : ev.Confined defining) {head : Value} {operands : List Value}
    (henv : (Value.list (head :: operands)).isDefinition → defining env) :
    Tail defining (fun e => (e = env ∨ e = .global) ∧ defining e)
      (ev.stepList head operands env) := by
  unfold Evaluator.stepList
  split
  · next sf hsf =>
    obtain ⟨name, hname, hsf⟩ := Option.bind_eq_some_iff.mp hsf
    obtain rfl := Value.symbolName?_eq_some.mp hname
    obtain rfl := SpecialForm.ofName?_eq_some.mp hsf
    exact hev.evalSpecial (fun hdef => henv (SpecialForm.isDefinition_form hdef operands)) operands
  · refine Tail.bind (Keeps.macroNamed? head env) fun found => ?_
    cases found with
    | some c =>
      have hmacro := hev.applyClosure c operands
      exact Tail.bind hmacro.of_global fun expansion => Tail.next expansion fun _ he => he
    | none =>
      refine Tail.bind (hev.eval head env) fun f =>
        Tail.bind (hev.evalAll operands env) fun args => ?_
      exact (hev.enterCall f args).of_global

theorem step (hev : ev.Confined defining) {value : Value}
    (henv : value.isDefinition → defining env) :
    Tail defining (fun e => (e = env ∨ e = .global) ∧ defining e) (ev.step value env) := by
  match value with
  | .list [] => exact Tail.done _
  | .list (head :: operands) => exact hev.stepList henv
  | .symbol name => exact Tail.of_keeps (Keeps.lookup env name)
  | .vector items =>
    exact Tail.bind (hev.evalAll items env) fun values => Tail.done (.vector values)
  | .map entries =>
    rw [step_map]
    exact Tail.bind (hev.evalAll _ env) fun values => Tail.of_keeps (Keeps.mapOf ev _)
  | .error message => exact Tail.fail _
  | .int _ | .bool _ | .nil | .eof | .keyword _ | .str _ | .function _ | .closure _ | .atom _ =>
    exact Tail.done _

end Evaluator.Confined

end Lisp
