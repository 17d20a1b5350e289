import Lisp.Proofs.Quasiquote

/-! Forms that evaluate other forms one after the other, and what becomes of them when one of those fails. The
failure ends the whole form, with the store as it is then, and nothing that stands after it is looked at. -/

namespace Lisp

open SpecialForm (form)

/-- One stage on the way to what a form comes to: another form is evaluated, and its value is kept, is bound to
a name before the next stage, or has to have elements. -/
inductive Stage
  | keep (form : Value)
  | bind (name form : Value)
  | splice (form : Value)

namespace Stage

def form : Stage → Value
  | .keep form | .bind _ form | .splice form => form

/-- The form of a stage is evaluated unless its value is for something that is no name. -/
def Named : Stage → Prop
  | .bind name _ => ∃ s, name = .symbol s
  | .keep _ | .splice _ => True

/-- A stage that has been gone through, where forms are evaluated in `env`. -/
inductive Passed (E : Evaluation) (env : Env) : Stage → Store → Store → Prop
  | keep {form v σ τ} (evaluated : E form σ (.ok v) τ) : Passed E env (.keep form) σ τ
  | bind {name form v σ τ} (evaluated : E form σ (.ok v) τ) :
    Passed E env (.bind (.symbol name) form) σ (τ.bind env name v)
  | splice {form v items σ τ} (evaluated : E form σ (.ok v) τ) (isItems : v.items? = some items) :
    Passed E env (.splice form) σ τ

/-- Stages that have been gone through one after the other. -/
inductive AllPassed (E : Evaluation) (env : Env) : List Stage → Store → Store → Prop
  | nil {σ} : AllPassed E env [] σ σ
  | cons {stage stages σ ρ τ} (head : Passed E env stage σ ρ) (tail : AllPassed E env stages ρ τ) :
    AllPassed E env (stage :: stages) σ τ

end Stage

def Slot.stage : Slot → Stage
  | .unquote form => .keep form
  | .splice form => .splice form

/-- The items of a binding list, with the names and forms in turn. -/
def bindingItems (pairs : List (Value × Value)) : List Value :=
  pairs.flatMap fun pair => [pair.1, pair.2]

def bindingStages (pairs : List (Value × Value)) : List Stage :=
  pairs.map fun pair => .bind pair.1 pair.2

/-- The stages that a form goes through in an environment and a store, after the environment and the store
that they begin with. -/
inductive Course (env : Env) (σ : Store) : Value → Env → Store → List Stage → Prop
  | application {head operands} (ordinary : ∀ sf : SpecialForm, head ≠ .symbol sf.name)
    (noMacro : ∀ name c, head = .symbol name → σ.find? env name = some (.closure c) → c.isMacro = false) :
    Course env σ (.list (head :: operands)) env σ ((head :: operands).map .keep)
  | vector {items} : Course env σ (.vector items) env σ (items.map .keep)
  | map {entries} : Course env σ (.map entries) env σ ((entries.map Prod.snd).map .keep)
  | sequence {forms} : Course env σ (form .sequence forms) env σ (forms.map .keep)
  | letIn {bindings body inner σ'} (pairs : List (Value × Value))
    (isItems : bindings.items? = some (bindingItems pairs))
    (child : σ.addFrame ⟨[], some env⟩ = (inner, σ')) :
    Course env σ (form .letIn [bindings, body]) inner σ' (bindingStages pairs ++ [.keep body])
  | quasiquote {template} :
    Course env σ (form .quasiquote [template]) env σ (template.slots.map Slot.stage)

section

variable {files : Files} {env : Env} {σ ρ τ : Store} {stage : Stage} {earlier later : List Stage}
  {e : EvalError}

open Stage (AllPassed)

theorem evaluatesAll_of_passed {forms : List Value}
    (passed : AllPassed (EndsIn files env) env (forms.map .keep) σ τ) :
    ∃ values, EvaluatesAll files forms env σ (.ok values) τ := by
  induction forms generalizing σ with
  | nil =>
    cases passed
    exact ⟨[], .nil⟩
  | cons form forms ih =>
    cases passed with
    | cons head tail =>
      cases head with
      | keep evaluated =>
        obtain ⟨values, hvalues⟩ := ih tail
        exact ⟨_, .cons (ends_eval.mp evaluated) hvalues⟩

theorem evaluatesAll_of_stopped {forms : List Value} (stages : forms.map .keep = earlier ++ stage :: later)
    (passed : AllPassed (EndsIn files env) env earlier σ ρ)
    (fails : Evaluates files stage.form env ρ (.error e) τ) :
    EvaluatesAll files forms env σ (.error e) τ := by
  induction passed generalizing forms with
  | nil =>
    obtain ⟨form, forms, rfl, rfl, rfl⟩ := List.map_eq_cons_iff.mp stages
    exact .fails fails
  | cons head tail ih =>
    obtain ⟨form, forms, rfl, rfl, hrest⟩ := List.map_eq_cons_iff.mp stages
    cases head with
    | keep evaluated => exact .cons (ends_eval.mp evaluated) (ih hrest fails)

theorem EvaluatesAll.fails_of_cons {form : Value} {forms : List Value}
    (h : EvaluatesAll files (form :: forms) env σ (.error e) τ) :
    Evaluates files form env σ (.error e) τ ∨
      ∃ v ρ, Evaluates files form env σ (.ok v) ρ ∧ EvaluatesAll files forms env ρ (.error e) τ := by
  generalize hr : Except.error e = r at h
  cases h with
  | @cons _ _ _ _ v ρ r _ head tail =>
    cases r with
    | error e' =>
      cases hr
      exact .inr ⟨v, ρ, head, tail⟩
    | ok values => cases hr
  | fails head =>
    cases hr
    exact .inl head

theorem bindsAll_of_passed {pairs : List (Value × Value)}
    (passed : AllPassed (EndsIn files env) env (bindingStages pairs) σ τ) :
    BindsAll files env (bindingItems pairs) σ (.ok ()) τ := by
  induction pairs generalizing σ with
  | nil =>
    cases passed
    exact .nil
  | cons pair pairs ih =>
    obtain ⟨name, form⟩ := pair
    cases passed with
    | cons head tail =>
      cases head with
      | bind evaluated => exact .cons (ends_eval.mp evaluated) (ih tail)

theorem bindsAll_of_stopped {pairs : List (Value × Value)}
    (stages : bindingStages pairs = earlier ++ stage :: later)
    (passed : AllPassed (EndsIn files env) env earlier σ ρ) (named : stage.Named)
    (fails : Evaluates files stage.form env ρ (.error e) τ) :
    BindsAll files env (bindingItems pairs) σ (.error e) τ := by
  induction passed generalizing pairs with
  | nil =>
    obtain ⟨⟨name, form⟩, pairs, rfl, rfl, rfl⟩ := List.map_eq_cons_iff.mp stages
    obtain ⟨s, rfl⟩ := named
    exact .fails fails
  | cons head tail ih =>
    obtain ⟨⟨name, form⟩, pairs, rfl, rfl, hrest⟩ := List.map_eq_cons_iff.mp stages
    cases head with
    | bind evaluated => exact .cons (ends_eval.mp evaluated) (ih hrest fails)

theorem inTurn_of_stopped {slots : List Slot} (stages : slots.map Slot.stage = earlier ++ stage :: later)
    (passed : AllPassed (EndsIn files env) env earlier σ ρ)
    (fails : EndsIn files env stage.form ρ (.error e) τ) :
    InTurn (EndsIn files env) slots σ (.error e) τ := by
  induction passed generalizing slots with
  | nil =>
    obtain ⟨slot, slots, rfl, rfl, rfl⟩ := List.map_eq_cons_iff.mp stages
    cases slot <;> exact .fails (.fails fails)
  | cons head tail ih =>
    obtain ⟨slot, slots, rfl, hslot, hrest⟩ := List.map_eq_cons_iff.mp stages
    have hlater := ih hrest fails
    cases slot <;> subst hslot
    · cases head with
      | keep evaluated => exact .later (.filler evaluated rfl) hlater
    · cases head with
      | splice evaluated isItems => exact .later (.filler evaluated isItems) hlater

/-- The last stage is the failing one, or comes after it. -/
theorem stopped_at_last_or_before {stages : List Stage} {last : Stage}
    (h : stages ++ [last] = earlier ++ stage :: later) :
    (earlier = stages ∧ stage = last) ∨ ∃ others, stages = earlier ++ stage :: others := by
  obtain rfl | ⟨others, x, rfl⟩ := List.eq_nil_or_concat' later
  · obtain ⟨rfl, hlast⟩ := List.append_inj' h rfl
    exact .inl ⟨rfl, (List.cons.inj hlast).1.symm⟩
  · rw [← List.cons_append, ← List.append_assoc] at h
    exact .inr ⟨others, (List.append_inj' h rfl).1⟩

theorem ordinary_of_head {head : Value} {operands : List Value}
    (h : ∀ sf : SpecialForm, head ≠ .symbol sf.name) :
    ∀ sf forms, .list (head :: operands) ≠ form sf forms :=
  fun sf _ heq => h sf (List.cons.inj (Value.list.inj heq)).1

theorem macroCall?_of_head {head : Value} {operands : List Value}
    (h : ∀ name c, head = .symbol name → σ.find? env name = some (.closure c) → c.isMacro = false) :
    σ.macroCall? env (.list (head :: operands)) = none := by
  rw [Option.eq_none_iff_forall_ne_some]
  rintro ⟨c, forms⟩ calls
  obtain ⟨name, hlist, found, isMacro⟩ := Store.macroCall?_eq_some.mp calls
  exact nomatch isMacro.symm.trans (h name c (List.cons.inj (Value.list.inj hlist)).1 found)

theorem bindingItems_even (pairs : List (Value × Value)) : (bindingItems pairs).length % 2 = 0 := by
  have hlength : (bindingItems pairs).length = 2 * pairs.length := by
    induction pairs with
    | nil => rfl
    | cons pair pairs ih =>
      have hcons : (bindingItems (pair :: pairs)).length = (bindingItems pairs).length + 2 := by
        simp [bindingItems]
      rw [hcons, ih, List.length_cons]
      omega
  omega

/-- A form whose course has come to a form that fails does not go on. -/
theorem Course.stops {value : Value} {inner : Env} {σ' : Store}
    (course : Course env σ value inner σ' (earlier ++ stage :: later))
    (passed : AllPassed (EndsIn files inner) inner earlier σ' ρ) (named : stage.Named)
    (fails : EndsIn files inner stage.form ρ (.error e) τ) : Ends files (·.eval value env) σ (.error e) τ := by
  have hfails := ends_eval.mp fails
  generalize hstages : earlier ++ stage :: later = stages at course
  cases course with
  | application ordinary noMacro =>
    refine ends_eval.mpr ?_
    have hall := evaluatesAll_of_stopped hstages.symm passed hfails
    obtain head | ⟨f, ρ', head, operands⟩ := hall.fails_of_cons
    · exact .headFails (ordinary_of_head ordinary) (macroCall?_of_head noMacro) head
    · exact .argumentFails (ordinary_of_head ordinary) (macroCall?_of_head noMacro) head operands
  | vector =>
    exact ends_eval.mpr (.vector (evaluatesAll_of_stopped hstages.symm passed hfails))
  | map => exact ends_eval.mpr (.mapFails (evaluatesAll_of_stopped hstages.symm passed hfails))
  | @sequence forms =>
    refine ends_eval.mpr ?_
    obtain rfl | ⟨forms, last, rfl⟩ := List.eq_nil_or_concat' forms
    · simp at hstages
    · rw [List.map_append] at hstages
      obtain ⟨rfl, rfl⟩ | ⟨others, hothers⟩ := stopped_at_last_or_before hstages.symm
      · obtain ⟨values, hvalues⟩ := evaluatesAll_of_passed passed
        exact .sequence hvalues hfails
      · exact .sequenceFails (evaluatesAll_of_stopped hothers passed hfails)
  | @letIn bindings body inner σ' pairs isItems child =>
    refine ends_eval.mpr ?_
    have even := bindingItems_even pairs
    obtain ⟨rfl, rfl⟩ | ⟨others, hothers⟩ := stopped_at_last_or_before hstages.symm
    · exact .letIn isItems even child (bindsAll_of_passed passed) hfails
    · exact .letInFails isItems even child (bindsAll_of_stopped hothers passed named hfails)
  | quasiquote =>
    exact ends_quasiquote.mpr (ends_fill.mpr ⟨_, inTurn_of_stopped hstages.symm passed fails, .fails⟩)

end

/-- When a form goes through stages up to one whose form fails, the whole form fails with that failure and leaves
the store as it was then. So it makes no difference what the later stages are: any form that goes through the
same stages up to there ends in the same way. -/
theorem first_failure_ends {files : Files} {env inner : Env} {σ σ' ρ τ : Store} {value : Value}
    {earlier later : List Stage} {stage : Stage} {e : EvalError}
    (course : Course env σ value inner σ' (earlier ++ stage :: later))
    (passed : Stage.AllPassed (EndsIn files inner) inner earlier σ' ρ) (named : stage.Named)
    (fails : Ends files (·.eval stage.form inner) ρ (.error e) τ) :
    (∀ r τ', Ends files (·.eval value env) σ r τ' ↔ r = .error e ∧ τ' = τ) ∧
      ∀ value' later', Course env σ value' inner σ' (earlier ++ stage :: later') →
        ∀ r τ', Ends files (·.eval value' env) σ r τ' ↔ Ends files (·.eval value env) σ r τ' := by
  have hends {value : Value} {later : List Stage}
      (course : Course env σ value inner σ' (earlier ++ stage :: later)) (r : Except EvalError Value)
      (τ' : Store) : Ends files (·.eval value env) σ r τ' ↔ r = .error e ∧ τ' = τ := by
    have hstops := course.stops passed named fails
    constructor
    · exact hstops.unique (Steady.eval _ _)
    · rintro ⟨rfl, rfl⟩
      exact hstops
  refine ⟨hends course, fun value' later' course' r τ' => ?_⟩
  rw [hends course', hends course]

/-- A binding list whose second value is that of an unbound name, and what else might stand after it. -/
theorem first_failure_ends_binding :
    let σ : Store := ⟨#[⟨[], none⟩], #[], 0, .silent⟩
    let inner : Env := ⟨1⟩
    let σ' : Store := ⟨#[⟨[], none⟩, ⟨[], some .global⟩], #[], 0, .silent⟩
    let τ : Store := ⟨#[⟨[], none⟩, ⟨[("x", .int 1)], some .global⟩], #[], 0, .silent⟩
    let value := form .letIn [.list [.symbol "x", .int 1, .symbol "y", .symbol "z"], .symbol "x"]
    let value' := form .letIn [.vector [.symbol "x", .int 1, .symbol "y", .symbol "z", .int 7, .nil], .nil]
    let earlier : List Stage := [.bind (.symbol "x") (.int 1)]
    let stage : Stage := .bind (.symbol "y") (.symbol "z")
    Course .global σ value inner σ' (earlier ++ stage :: [.keep (.symbol "x")]) ∧
      Course .global σ value' inner σ' (earlier ++ stage :: [.bind (.int 7) .nil, .keep .nil]) ∧
      Stage.AllPassed (EndsIn .empty inner) inner earlier σ' τ ∧ stage.Named ∧
      Ends .empty (·.eval stage.form inner) τ (.error (.symbolNotFound "z")) τ ∧
      Ends .empty (·.eval value .global) σ (.error (.symbolNotFound "z")) τ ∧
      Ends .empty (·.eval value' .global) σ (.error (.symbolNotFound "z")) τ := by
  intro σ inner σ' τ value value' earlier stage
  have course : Course .global σ value inner σ' (earlier ++ stage :: [.keep (.symbol "x")]) :=
    .letIn [(.symbol "x", .int 1), (.symbol "y", .symbol "z")] rfl rfl
  have course' : Course .global σ value' inner σ' (earlier ++ stage :: [.bind (.int 7) .nil, .keep .nil]) :=
    .letIn [(.symbol "x", .int 1), (.symbol "y", .symbol "z"), (.int 7, .nil)] rfl rfl
  have hone : EndsIn .empty inner (.int 1) σ' (.ok (.int 1)) σ' := ⟨1, 1, rfl⟩
  have passed : Stage.AllPassed (EndsIn .empty inner) inner earlier σ' τ := .cons (.bind hone) .nil
  have named : stage.Named := ⟨"y", rfl⟩
  have fails : Ends .empty (·.eval stage.form inner) τ (.error (.symbolNotFound "z")) τ := ⟨1, 1, rfl⟩
  obtain ⟨hvalue, hsame⟩ := first_failure_ends course passed named fails
  have hends := (hvalue (.error (.symbolNotFound "z")) τ).mpr ⟨rfl, rfl⟩
  exact ⟨course, course', passed, named, fails, hends, (hsame value' _ course' _ _).mpr hends⟩

end Lisp
