import Lisp.Proofs.Rules
import Lisp.Proofs.Sourced

/-! What calls make of sourced arguments in a sourced store. The builtins take values apart and put them
into lists and cells, and make no symbol, keyword or map. -/

namespace Lisp

/-- What comes of this, unless it fails, satisfies `P`. -/
def Ensures {α : Type} (P : α → Prop) (x : Except EvalError α) : Prop :=
  ∀ a, x = .ok a → P a

/-- An action that leaves a sourced store sourced, however it ends, and gives what satisfies `P`. -/
def Yields {α : Type} (P : α → Prop) (x : Action α) : Prop :=
  ∀ ⦃σ : Store⦄ ⦃r : Except EvalError α⦄ ⦃τ : Store⦄, x σ = .of r τ → σ.Sourced →
    τ.Sourced ∧ Ensures P r

abbrev AllSourced (vs : List Value) : Prop :=
  ∀ v ∈ vs, v.Sourced

namespace Ensures

variable {α β : Type} {P : α → Prop} {Q : β → Prop}

theorem ok {a : α} (h : P a) : Ensures P (.ok a) := by
  intro b hb
  obtain rfl := Except.ok.inj hb
  exact h

theorem error (e : EvalError) : Ensures P (.error e) :=
  fun _ h => nomatch h

theorem any (x : Except EvalError α) : Ensures (fun _ => True) x :=
  fun _ _ => trivial

theorem bind {x : Except EvalError α} {f : α → Except EvalError β} (hx : Ensures P x)
    (hf : ∀ a, P a → Ensures Q (f a)) : Ensures Q (x >>= f) := by
  cases x with
  | ok a => exact hf a (hx a rfl)
  | error e => exact error e

/-- What comes of one thing after another, where all that matters of the first is that it comes. -/
theorem after {x : Except EvalError α} {f : α → Except EvalError β} (hf : ∀ a, Ensures Q (f a)) :
    Ensures Q (x >>= f) :=
  bind (any x) fun a _ => hf a

theorem oneArgument {args : List Value} (h : AllSourced args) :
    Ensures Value.Sourced (oneArgument args) := by
  unfold Lisp.oneArgument
  split
  · exact ok (h _ (by simp))
  · exact error _

theorem twoArguments {args : List Value} (h : AllSourced args) :
    Ensures (fun pair => pair.1.Sourced ∧ pair.2.Sourced) (twoArguments args) := by
  unfold Lisp.twoArguments
  split
  · exact ok ⟨h _ (by simp), h _ (by simp)⟩
  · exact error _

theorem requireItems {v : Value} (h : v.Sourced) : Ensures AllSourced v.requireItems := by
  unfold Value.requireItems
  split
  · next items hitems => exact ok (h.items hitems)
  · exact error _

theorem requireItemsOrNil {v : Value} (h : v.Sourced) : Ensures AllSourced v.requireItemsOrNil := by
  unfold Value.requireItemsOrNil
  split
  · exact ok (List.forall_mem_nil _)
  · exact requireItems h

theorem fold (unit : Option Int64) (op : Int64 → Int64 → Except EvalError Int64) (args : List Value) :
    Ensures Value.Sourced (Arithmetic.fold unit op args) := by
  cases args with
  | nil =>
    cases unit with
    | some n => exact ok (.int n)
    | none => exact error _
  | cons v vs => exact after fun a => after fun n => ok (.int n)

theorem compare (holds : Int64 → Int64 → Bool) (args : List Value) :
    Ensures Value.Sourced (Arithmetic.compare holds args) :=
  after fun _ => after fun _ => after fun _ => ok (.bool _)

/-! The elements of a list that a builtin makes are elements of its arguments, or arguments. -/

variable {args : List Value}

theorem first (h : AllSourced args) : Ensures Value.Sourced (Sequence.first args) := by
  refine (oneArgument h).bind fun v hv => (requireItemsOrNil hv).bind fun items hitems => ok ?_
  cases items with
  | nil => exact .nil
  | cons item items => exact hitems item List.mem_cons_self

theorem rest (h : AllSourced args) : Ensures Value.Sourced (Sequence.rest args) := by
  refine (oneArgument h).bind fun v hv => (requireItemsOrNil hv).bind fun items hitems => ok ?_
  exact .list fun item hitem => hitems item (List.mem_of_mem_tail hitem)

theorem nth (h : AllSourced args) : Ensures Value.Sourced (Sequence.nth args) := by
  refine (twoArguments h).bind fun pair hpair => (requireItems hpair.1).bind fun items hitems => ?_
  refine after fun index => ?_
  split
  · next item hitem =>
    unfold Sequence.element? at hitem
    split at hitem
    · cases hitem
    · exact ok (hitems item (List.mem_of_getElem? hitem))
  · exact error _

theorem cons (h : AllSourced args) : Ensures Value.Sourced (Sequence.cons args) := by
  refine (twoArguments h).bind fun pair hpair => (requireItems hpair.2).bind fun items hitems => ok ?_
  exact .list (List.forall_mem_cons.mpr ⟨hpair.1, hitems⟩)

theorem mapM_requireItems (h : AllSourced args) :
    Ensures (fun parts => ∀ part ∈ parts, AllSourced part) (args.mapM Value.requireItems) := by
  induction args with
  | nil => exact ok (List.forall_mem_nil _)
  | cons arg args ih =>
    obtain ⟨harg, hargs⟩ := List.forall_mem_cons.mp h
    rw [List.mapM_cons]
    refine (requireItems harg).bind fun items hitems => (ih hargs).bind fun parts hparts => ok ?_
    exact List.forall_mem_cons.mpr ⟨hitems, hparts⟩

theorem concat (h : AllSourced args) : Ensures Value.Sourced (Sequence.concat args) := by
  refine (mapM_requireItems h).bind fun parts hparts => ok (.list fun v hv => ?_)
  obtain ⟨part, hpart, hv⟩ := List.mem_flatten.mp hv
  exact hparts part hpart v hv

theorem vec (h : AllSourced args) : Ensures Value.Sourced (Sequence.vec args) :=
  (oneArgument h).bind fun _ hv => (requireItems hv).bind fun _ hitems => ok (.vector hitems)

theorem frame {params : Params} {parent : Env} (h : AllSourced args) :
    Ensures Frame.Sourced (params.frame parent args) := by
  have hpairs : ∀ b ∈ params.pairs args, b.2.Sourced := by
    intro b hb
    obtain hb | hb := List.mem_append.mp hb
    · exact h _ (List.of_mem_zip hb).2
    · split at hb
      · obtain rfl := List.mem_singleton.mp hb
        exact .list fun v hv => h v (List.mem_of_mem_drop hv)
      · cases hb
  have hfold (pairs : List (String × Value)) (hpairs : ∀ b ∈ pairs, b.2.Sourced) (f : Frame)
      (hf : f.Sourced) : (pairs.foldl (fun f b => f.bind b.1 b.2) f).Sourced := by
    induction pairs generalizing f with
    | nil => exact hf
    | cons b pairs ih =>
      obtain ⟨hb, hpairs⟩ := List.forall_mem_cons.mp hpairs
      exact ih hpairs _ (hf.bind hb b.1)
  unfold Params.frame
  cases params.check args.length with
  | ok _ => exact ok (hfold _ hpairs _ (List.forall_mem_nil _))
  | error e => exact error e

end Ensures

namespace Yields

variable {α β : Type} {P : α → Prop} {Q : β → Prop}

theorem pure {a : α} (h : P a) : Yields P (pure a : Action α) := by
  intro σ r τ hx hσ
  obtain ⟨rfl, rfl⟩ := Action.pure_eq_of.mp hx
  exact ⟨hσ, .ok h⟩

theorem fail (e : EvalError) : Yields P (.fail e : Action α) := by
  intro σ r τ hx hσ
  obtain ⟨rfl, rfl⟩ := Action.fail_eq_of.mp hx
  exact ⟨hσ, .error e⟩

theorem attempt {x : Action α} (h : Yields P x) : Yields (Ensures P) x.attempt := by
  intro σ r τ hx hσ
  obtain ⟨s, hs, rfl⟩ := Action.attempt_eq_of.mp hx
  exact ⟨(h hs hσ).1, .ok (h hs hσ).2⟩

theorem halt (why : Halt) : Yields P (.halt why : Action α) :=
  fun _ _ _ hx => absurd hx Action.halt_ne_of

theorem ofExcept {x : Except EvalError α} (h : Ensures P x) : Yields P (.ofExcept x : Action α) := by
  intro σ r τ hx hσ
  obtain ⟨rfl, rfl⟩ := Action.ofExcept_eq_of.mp hx
  exact ⟨hσ, h⟩

theorem query {f : Store → α} (h : ∀ σ, σ.Sourced → P (f σ)) : Yields P (.query f) := by
  intro σ r τ hx hσ
  obtain ⟨rfl, rfl⟩ := Action.query_eq_of.mp hx
  exact ⟨hσ, .ok (h _ hσ)⟩

theorem modify {f : Store → Store} (h : ∀ σ, σ.Sourced → (f σ).Sourced) :
    Yields (fun _ => True) (.modify f) := by
  intro σ r τ hx hσ
  obtain ⟨rfl, rfl⟩ := Action.modify_eq_of.mp hx
  exact ⟨h _ hσ, .any _⟩

theorem update {f : Store → α × Store} (h : ∀ σ, σ.Sourced → P (f σ).1 ∧ (f σ).2.Sourced) :
    Yields P (.update f) := by
  intro σ r τ hx hσ
  obtain ⟨rfl, rfl⟩ := Action.update_eq_of.mp hx
  exact ⟨(h _ hσ).2, .ok (h _ hσ).1⟩

theorem bind {x : Action α} {f : α → Action β} (hx : Yields P x) (hf : ∀ a, P a → Yields Q (f a)) :
    Yields Q (x >>= f) := by
  intro σ r τ h hσ
  obtain ⟨e, rfl, he⟩ | ⟨a, ρ, ha, h⟩ := Action.bind_eq_of.mp h
  · exact ⟨(hx he hσ).1, .error e⟩
  · obtain ⟨hρ, ha⟩ := hx ha hσ
    exact hf a (ha a rfl) h hρ

theorem mono {P' : α → Prop} {x : Action α} (h : Yields P' x) (hP : ∀ a, P' a → P a) : Yields P x :=
  fun _ _ _ hx hσ => ⟨(h hx hσ).1, fun a ha => hP a ((h hx hσ).2 a ha)⟩

theorem boundName (sf : SpecialForm) (v : Value) : Yields (fun _ => True) (sf.boundName v) := by
  unfold SpecialForm.boundName
  split
  · exact pure trivial
  · exact fail _

theorem set {v : Value} (h : v.Sourced) (env : Env) (name : String) :
    Yields (fun _ => True) (env.set name v) :=
  modify fun _ hσ => hσ.bind h env name

theorem get? (env : Env) (name : String) :
    Yields (fun found => ∀ v, found = some v → v.Sourced) (env.get? name) :=
  query fun _ hσ _ hv => hσ.find? hv

theorem lookup (env : Env) (name : String) : Yields Value.Sourced (env.lookup name) := by
  refine (get? env name).bind fun found hfound => ?_
  cases found with
  | some v => exact pure (hfound v rfl)
  | none => exact fail _

theorem macroNamed? (head : Value) (env : Env) :
    Yields (fun found => ∀ c, found = some c → c.body.Sourced) (Evaluator.macroNamed? head env) := by
  cases head with
  | symbol name =>
    refine (get? env name).bind fun found hfound => ?_
    split
    · next c =>
      refine pure fun d hd => ?_
      split at hd
      · obtain rfl := Option.some.inj hd
        cases hfound _ rfl with
        | closure body => exact body
      · cases hd
    · exact pure fun _ h => nomatch h
  | _ => exact pure fun _ h => nomatch h

theorem addFrame {f : Frame} (h : f.Sourced) : Yields (fun _ => True) (.update (·.addFrame f)) :=
  update fun _ hσ => ⟨trivial, hσ.addFrame h⟩

theorem child (parent : Env) : Yields (fun _ => True) parent.child :=
  addFrame (List.forall_mem_nil _)

theorem enter {args : List Value} (h : AllSourced args) (parent : Env) (params : Params) :
    Yields (fun _ => True) (parent.enter params args) := by
  have hframe : Ensures Frame.Sourced (params.frame parent args) := .frame h
  unfold Env.enter
  cases hf : params.frame parent args with
  | ok f => exact addFrame (hframe f hf)
  | error e => exact fail e

theorem addClosure {body : Value} (h : body.Sourced) (params : Params) (env : Env) (isMacro : Bool) :
    Yields (fun c => c.body.Sourced) (.update (·.addClosure params body env isMacro)) :=
  update fun _ hσ => ⟨h, hσ.of_same rfl rfl⟩

theorem makeCell {v : Value} (h : v.Sourced) : Yields (fun _ => True) (Cell.make v) :=
  update fun _ hσ => ⟨trivial, hσ.addCell h⟩

theorem setContent {v : Value} (h : v.Sourced) (c : Cell) : Yields (fun _ => True) (c.set v) :=
  modify fun _ hσ => hσ.setContent h c

theorem fileContent (files : Files) (path : String) :
    Yields Value.Sourced (fileContent files path) := by
  unfold Lisp.fileContent
  repeat' split
  all_goals first
    | exact pure (.str _)
    | exact fail _
    | exact halt _

theorem readSource (source : String) : Yields Value.Sourced (readSource source) := by
  unfold Lisp.readSource
  split
  · next form hform => exact pure (read_sourced hform)
  · exact fail _

theorem joinTexts (readable : Bool) (separator : String) (args : List Value) :
    Yields (fun _ => True) (joinTexts readable separator args) :=
  query fun _ _ => trivial

theorem throwTexts (args : List Value) : Yields Value.Sourced (throwTexts args) := by
  unfold Lisp.throwTexts
  split
  · exact fail _
  · exact (joinTexts false " " args).bind fun _ _ => fail _

theorem writeLine (line : String) : Yields (fun _ => True) (.modify (·.writeLine line)) :=
  modify fun _ hσ => hσ.of_same rfl rfl

theorem printLine (readable : Bool) (args : List Value) :
    Yields Value.Sourced (printLine readable args) := by
  refine (joinTexts readable " " args).bind fun line _ => ?_
  exact (writeLine line).bind fun _ _ => pure .nil

variable (ev : Evaluator)

theorem same (a b : Value) : Yields (fun _ => True) (ev.same a b) := by
  intro σ r τ h hσ
  rw [Evaluator.same_apply] at h
  obtain ⟨_, _, _, rfl⟩ := Outcome.ofOption_eq_of.mp h
  exact ⟨hσ, .any _⟩

/-- Where the keys of a map are those of a sourced one, no two of them become one. -/
theorem mapOf {pairs : Entries} (h : Value.Sourced (.map pairs)) :
    Yields (fun v => v = .map pairs) (ev.mapOf pairs) := by
  intro σ r τ hx hσ
  obtain ⟨es, hes, rfl, rfl⟩ := Evaluator.mapOf_eq_of.mp hx
  -- The keys are compared after the values were evaluated, in whatever store that led to.
  have hdistinct := (h.keys_ne τ.cells).imp fun hne heq => hne ⟨ev.patience, heq⟩
  rw [Entries.ofList_of_distinct hdistinct hes]
  exact ⟨hσ, .ok rfl⟩

theorem call {b : Builtin} (noEval : b ≠ .eval) (noSwap : b ≠ .swap) {args : List Value}
    (h : AllSourced args) : Yields Value.Sourced (ev.call b args) := by
  have hone := ofExcept (Ensures.oneArgument h)
  have htwo := ofExcept (Ensures.twoArguments h)
  cases b
  case eval => exact absurd rfl noEval
  case swap => exact absurd rfl noSwap
  all_goals simp only [Evaluator.call, Evaluator.callWithin]
  case equal =>
    exact htwo.bind fun pair _ => (same ev pair.1 pair.2).bind fun _ _ => pure (.bool _)
  case not | isAtom => exact hone.bind fun _ _ => pure (.bool _)
  case throw => exact throwTexts args
  case str | prStr => exact (joinTexts _ _ args).bind fun _ _ => pure (.str _)
  case prn | println => exact printLine _ args
  case list => exact pure (.list h)
  case atom =>
    exact hone.bind fun v hv => (makeCell hv).bind fun c _ => pure (.atom c)
  case deref =>
    exact hone.bind fun v _ => (ofExcept (.any _)).bind fun c _ => query fun σ hσ => hσ.content c
  case reset =>
    refine htwo.bind fun pair hpair => (ofExcept (.any _)).bind fun c _ => ?_
    exact (setContent hpair.2 c).bind fun _ _ => pure hpair.2
  case readString =>
    exact hone.bind fun v _ => (ofExcept (.any _)).bind fun source _ => readSource source
  case slurp =>
    exact hone.bind fun v _ => (ofExcept (.any _)).bind fun path _ => fileContent _ path
  case add | subtract | multiply | divide | remainder => exact ofExcept (.fold _ _ args)
  case greater | atLeast | less | atMost => exact ofExcept (.compare _ args)
  case isList => exact ofExcept (.after fun _ => .ok (.bool _))
  case isEmpty => exact ofExcept (.after fun _ => .after fun _ => .ok (.bool _))
  case count => exact ofExcept (.after fun _ => .after fun _ => .ok (.int _))
  case first => exact ofExcept (.first h)
  case rest => exact ofExcept (.rest h)
  case nth => exact ofExcept (.nth h)
  case cons => exact ofExcept (.cons h)
  case concat => exact ofExcept (.concat h)
  case vec => exact ofExcept (.vec h)

end Yields

end Lisp
