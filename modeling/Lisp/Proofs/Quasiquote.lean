import Lisp.Proofs.Ending
import Lisp.Proofs.Template

/-! Quasiquotation evaluates the forms in the slots of its template, in turn, and fills in what they come
to. -/

namespace Lisp

open SpecialForm (form)

/-- A failure stays what it is, and a value becomes one that is related to it. -/
inductive Carried {α β : Type} (R : α → β → Prop) : Except EvalError α → Except EvalError β → Prop
  | fails {e} : Carried R (.error e) (.error e)
  | ok {a b} (h : R a b) : Carried R (.ok a) (.ok b)

namespace Carried

variable {α α' β β' : Type} {R : α → β → Prop} {s : Except EvalError α} {r : Except EvalError β}

theorem map {R' : α' → β' → Prop} {f : α → α'} {g : β → β'} (h : Carried R s r)
    (hfg : ∀ a b, R a b → R' (f a) (g b)) : Carried R' (s.map f) (r.map g) := by
  cases h with
  | fails => exact .fails
  | ok h => exact .ok (hfg _ _ h)

theorem map_right {R' : α → β' → Prop} {g : β → β'} (h : Carried R s r)
    (hg : ∀ a b, R a b → R' a (g b)) : Carried R' s (r.map g) := by
  cases h with
  | fails => exact .fails
  | ok h => exact .ok (hg _ _ h)

end Carried

/-- What a template comes to, by what its slots come to. -/
def Filled (template : Value) : Except EvalError (List (List Value)) → Except EvalError Value → Prop :=
  Carried (Filling template)

def FilledAll (items : List Value) :
    Except EvalError (List (List Value)) → Except EvalError (List Value) → Prop :=
  Carried fun fillers values => ∃ parts, FillingAll items fillers parts ∧ values = parts.flatten

namespace FilledAll

variable {items : List Value} {s : Except EvalError (List (List Value))}
  {r : Except EvalError (List Value)}

theorem list (plain : ∀ form, .list items ≠ Marker.unquote.wrap form) (h : FilledAll items s r) :
    Filled (.list items) s (r.map .list) := by
  refine h.map_right ?_
  rintro fillers _ ⟨parts, all, rfl⟩
  exact .list plain all

theorem vector (h : FilledAll items s r) : Filled (.vector items) s (r.map .vector) := by
  refine h.map_right ?_
  rintro fillers _ ⟨parts, all, rfl⟩
  exact .vector all

theorem splice (h : FilledAll items s r) (form : Value) (spliced : List Value) :
    FilledAll (Marker.spliceUnquote.wrap form :: items) (s.map (spliced :: ·)) (r.map (spliced ++ ·)) := by
  refine h.map ?_
  rintro fillers _ ⟨parts, all, rfl⟩
  exact ⟨_, .splice all, rfl⟩

theorem item {item v : Value} {used : List (List Value)}
    (plain : ∀ form, item ≠ Marker.spliceUnquote.wrap form) (head : Filling item used v)
    (h : FilledAll items s r) :
    FilledAll (item :: items) (s.map (used ++ ·)) (r.map (v :: ·)) := by
  refine h.map ?_
  rintro fillers _ ⟨parts, all, rfl⟩
  exact ⟨_, .item plain head all, rfl⟩

end FilledAll

namespace Evaluator

variable {ev : Evaluator} {env : Env} {σ τ : Store}

/-- What forms come to in an environment, when this evaluator evaluates them. -/
abbrev Gives (ev : Evaluator) (env : Env) : Evaluation :=
  fun form σ r τ => ev.eval form env σ = .of r τ

theorem splice_iff_comes {form : Value} {s : Except EvalError (List Value)} :
    ev.splice env form σ = .of s τ ↔ (Slot.splice form).Comes (ev.Gives env) σ s τ := by
  rw [splice_eq_of]
  constructor
  · rintro (⟨e, rfl, fails⟩ | ⟨v, evaluated, ⟨items, isItems, rfl⟩ | ⟨noItems, rfl⟩⟩)
    · exact .fails fails
    · exact .filler evaluated isItems
    · exact .noFiller evaluated noItems
  · intro h
    cases h with
    | filler evaluated isFiller => exact .inr ⟨_, evaluated, .inl ⟨_, isFiller, rfl⟩⟩
    | fails fails => exact .inl ⟨_, rfl, fails⟩
    | noFiller evaluated noFiller => exact .inr ⟨_, evaluated, .inr ⟨noFiller, rfl⟩⟩

/-- What is filled in has been evaluated in turn. -/
theorem inTurn_of_fill {template : Value} {r : Except EvalError Value}
    (h : ev.fill env template σ = .of r τ) :
    ∃ s, InTurn (ev.Gives env) template.slots σ s τ ∧ Filled template s r := by
  have found : (∀ template σ r τ, ev.fill env template σ = .of r τ →
        ∃ s, InTurn (ev.Gives env) template.slots σ s τ ∧ Filled template s r) ∧
      ∀ items σ r τ, ev.fillItems env [] items σ = .of r τ →
        ∃ s, InTurn (ev.Gives env) (itemsSlots items) σ s τ ∧ FilledAll items s r := by
    refine template_induction ?unquote ?list ?vector ?quoted ?nil ?splice ?item
    case unquote =>
      intro form σ r τ h
      rw [fill_unquote] at h
      rw [slots_unquote]
      cases r with
      | ok v => exact ⟨_, .next (.filler h rfl) .nil, .ok .unquote⟩
      | error e => exact ⟨_, .fails (.fails h), .fails⟩
    case list =>
      intro items plain ih σ r τ h
      rw [fill_list plain] at h
      obtain ⟨r, hr, rfl⟩ := Action.map_eq_of.mp h
      obtain ⟨s, hs, hfilled⟩ := ih σ r τ hr
      rw [slots_list plain]
      exact ⟨s, hs, hfilled.list plain⟩
    case vector =>
      intro items ih σ r τ h
      rw [fill_vector] at h
      obtain ⟨r, hr, rfl⟩ := Action.map_eq_of.mp h
      obtain ⟨s, hs, hfilled⟩ := ih σ r τ hr
      rw [slots_vector]
      exact ⟨s, hs, hfilled.vector⟩
    case quoted =>
      intro v noItems σ r τ h
      rw [fill_quoted noItems] at h
      obtain ⟨rfl, rfl⟩ := Action.pure_eq_of.mp h
      rw [slots_of_noItems noItems]
      exact ⟨_, .nil, .ok (.quoted noItems)⟩
    case nil =>
      intro σ r τ h
      obtain ⟨rfl, rfl⟩ := Action.pure_eq_of.mp h
      exact ⟨_, .nil, .ok ⟨[], .nil, rfl⟩⟩
    case splice =>
      intro form items ih σ r τ h
      rw [fillItems_splice] at h
      rw [itemsSlots_splice]
      obtain ⟨e, rfl, he⟩ | ⟨spliced, ρ, hspliced, h⟩ := Action.bind_eq_of.mp h
      · exact ⟨_, .fails (splice_iff_comes.mp he), .fails⟩
      · obtain ⟨r, hr, rfl⟩ := Action.map_eq_of.mp h
        obtain ⟨s, hs, hfilled⟩ := ih ρ r τ hr
        exact ⟨_, .cons (splice_iff_comes.mp hspliced) hs, hfilled.splice form spliced⟩
    case item =>
      intro item items plain hitem hitems σ r τ h
      rw [fillItems_cons plain] at h
      rw [itemsSlots_cons plain]
      obtain ⟨e, rfl, he⟩ | ⟨v, ρ, hv, h⟩ := Action.bind_eq_of.mp h
      · obtain ⟨s, hs, hfilled⟩ := hitem σ _ τ he
        cases hfilled
        exact ⟨_, hs.append_error _, .fails⟩
      · obtain ⟨s, hs, hfilled⟩ := hitem σ _ ρ hv
        cases hfilled with
        | ok head =>
          obtain ⟨r, hr, rfl⟩ := Action.map_eq_of.mp h
          obtain ⟨s', hs', hrest⟩ := hitems ρ r τ hr
          exact ⟨_, hs.append hs', hrest.item plain head⟩
  exact found.1 template σ r τ h

/-- What has been evaluated in turn can be filled in. -/
theorem fill_of_inTurn {template : Value} {s : Except EvalError (List (List Value))}
    (h : InTurn (ev.Gives env) template.slots σ s τ) :
    ∃ r, Filled template s r ∧ ev.fill env template σ = .of r τ := by
  have found : (∀ template σ s τ, InTurn (ev.Gives env) template.slots σ s τ →
        ∃ r, Filled template s r ∧ ev.fill env template σ = .of r τ) ∧
      ∀ items σ s τ, InTurn (ev.Gives env) (itemsSlots items) σ s τ →
        ∃ r, FilledAll items s r ∧ ev.fillItems env [] items σ = .of r τ := by
    refine template_induction ?unquote ?list ?vector ?quoted ?nil ?splice ?item
    case unquote =>
      intro form σ s τ h
      rw [slots_unquote] at h
      rw [fill_unquote]
      cases h with
      | next head rest =>
        cases rest
        cases head with
        | filler evaluated isFiller =>
          cases isFiller
          exact ⟨_, .ok .unquote, evaluated⟩
      | fails head =>
        cases head with
        | fails fails => exact ⟨_, .fails, fails⟩
        | noFiller _ noFiller => cases noFiller
      | later _ rest => cases rest
    case list =>
      intro items plain ih σ s τ h
      rw [slots_list plain] at h
      rw [fill_list plain]
      obtain ⟨r, hfilled, hr⟩ := ih σ s τ h
      exact ⟨_, hfilled.list plain, Action.map_eq_of.mpr ⟨r, hr, rfl⟩⟩
    case vector =>
      intro items ih σ s τ h
      rw [slots_vector] at h
      rw [fill_vector]
      obtain ⟨r, hfilled, hr⟩ := ih σ s τ h
      exact ⟨_, hfilled.vector, Action.map_eq_of.mpr ⟨r, hr, rfl⟩⟩
    case quoted =>
      intro v noItems σ s τ h
      rw [slots_of_noItems noItems] at h
      cases h
      rw [fill_quoted noItems]
      exact ⟨_, .ok (.quoted noItems), rfl⟩
    case nil =>
      intro σ s τ h
      cases h
      exact ⟨_, .ok ⟨[], .nil, rfl⟩, rfl⟩
    case splice =>
      intro form items ih σ s τ h
      rw [itemsSlots_splice] at h
      rw [fillItems_splice]
      obtain ⟨e, rfl, head⟩ | ⟨spliced, ρ, s, head, rest, rfl⟩ := h.of_cons
      · exact ⟨_, .fails, Action.bind_of_error _ (splice_iff_comes.mpr head)⟩
      · obtain ⟨r, hfilled, hr⟩ := ih ρ s τ rest
        refine ⟨_, hfilled.splice form spliced, ?_⟩
        exact (Action.bind_of_ok (splice_iff_comes.mpr head)).trans (Action.map_eq_of.mpr ⟨r, hr, rfl⟩)
    case item =>
      intro item items plain hitem hitems σ s τ h
      rw [itemsSlots_cons plain] at h
      rw [fillItems_cons plain]
      obtain ⟨e, rfl, hfails⟩ | ⟨used, ρ, s, hused, hrest, rfl⟩ := h.of_append
      · obtain ⟨r, hfilled, hr⟩ := hitem σ _ τ hfails
        cases hfilled
        exact ⟨_, .fails, Action.bind_of_error _ hr⟩
      · obtain ⟨r, hfilled, hr⟩ := hitem σ _ ρ hused
        cases hfilled with
        | ok head =>
          obtain ⟨r', hfilled', hr'⟩ := hitems ρ s τ hrest
          refine ⟨_, hfilled'.item plain head, ?_⟩
          exact (Action.bind_of_ok hr).trans (Action.map_eq_of.mpr ⟨r', hr', rfl⟩)
  exact found.1 template σ s τ h

mutual

theorem fill_of_filling {template v : Value} {σ τ : Store} {fillers : List (List Value)}
    (h : Filling template fillers v)
    (evaluated : InTurn (ev.Gives env) template.slots σ (.ok fillers) τ) :
    ev.fill env template σ = .of (.ok v) τ := by
  match h with
  | .unquote =>
    rw [slots_unquote] at evaluated
    rw [fill_unquote]
    cases evaluated with
    | next head rest =>
      cases rest
      cases head with
      | filler evaluated isFiller =>
        cases isFiller
        exact evaluated
  | .list plain all =>
    rw [slots_list plain] at evaluated
    rw [fill_list plain]
    exact Action.map_eq_of.mpr ⟨_, fillItems_of_fillingAll all evaluated, rfl⟩
  | .vector all =>
    rw [slots_vector] at evaluated
    rw [fill_vector]
    exact Action.map_eq_of.mpr ⟨_, fillItems_of_fillingAll all evaluated, rfl⟩
  | .quoted noItems =>
    rw [slots_of_noItems noItems] at evaluated
    cases evaluated
    rw [fill_quoted noItems]
    rfl
termination_by structural h

theorem fillItems_of_fillingAll {items : List Value} {σ τ : Store} {fillers parts : List (List Value)}
    (h : FillingAll items fillers parts)
    (evaluated : InTurn (ev.Gives env) (itemsSlots items) σ (.ok fillers) τ) :
    ev.fillItems env [] items σ = .of (.ok parts.flatten) τ := by
  match h with
  | .nil =>
    cases evaluated
    rfl
  | .splice rest =>
    rw [itemsSlots_splice] at evaluated
    rw [fillItems_splice]
    cases evaluated with
    | next head evaluated =>
      have hrest := fillItems_of_fillingAll rest evaluated
      exact (Action.bind_of_ok (splice_iff_comes.mpr head)).trans (Action.map_eq_of.mpr ⟨_, hrest, rfl⟩)
  | .item plain head rest =>
    rw [itemsSlots_cons plain] at evaluated
    rw [fillItems_cons plain]
    obtain ⟨e, hs, -⟩ | ⟨used, ρ, s, hused, hrest, hs⟩ := evaluated.of_append
    · cases hs
    · cases s with
      | error e => cases hs
      | ok fillers =>
        have hlength := head.length_fillers.trans hused.length_fillers.symm
        obtain ⟨rfl, rfl⟩ := List.append_inj (Except.ok.inj hs) hlength
        have hitem := fill_of_filling head hused
        have hitems := fillItems_of_fillingAll rest hrest
        exact (Action.bind_of_ok hitem).trans (Action.map_eq_of.mpr ⟨_, hitems, rfl⟩)
termination_by structural h

end

theorem fill_eq_of {template : Value} {r : Except EvalError Value} :
    ev.fill env template σ = .of r τ ↔
      ∃ s, InTurn (ev.Gives env) template.slots σ s τ ∧ Filled template s r := by
  refine ⟨inTurn_of_fill, ?_⟩
  rintro ⟨s, evaluated, filled⟩
  cases filled with
  | ok filling => exact fill_of_filling filling evaluated
  | fails =>
    obtain ⟨r, hfilled, hr⟩ := fill_of_inTurn evaluated
    cases hfilled
    exact hr

theorem fill_of_noSlots {template : Value} (noSlots : template.slots = []) :
    ev.fill env template = pure template := by
  funext σ
  have evaluated : InTurn (ev.Gives env) template.slots σ (.ok []) σ := noSlots ▸ .nil
  exact fill_of_filling (filling_of_noSlots noSlots) evaluated

end Evaluator

variable {files : Files} {env : Env} {σ τ : Store}

theorem ends_quasiquote {template : Value} {r : Except EvalError Value} :
    Ends files (·.eval (form .quasiquote [template]) env) σ r τ ↔
      Ends files (·.evaluator.fill env template) σ r τ := by
  have hsucc (steps depth : Nat) :
      Host.eval ⟨files, steps + 1, depth + 1⟩ (form .quasiquote [template]) env =
        (Host.evaluator ⟨files, steps, depth⟩).fill env template := by
    change evalWithin files (steps + 1) (depth + 1) _ env = _
    rw [evalWithin_succ, Evaluator.step_form]
    change ((Host.evaluator _).fill env template >>= fun v => pure (Step.done v)) >>= _ = _
    simp only [bind_assoc, pure_bind, Evaluator.finish, bind_pure]
  constructor
  · rintro ⟨steps, depth, h⟩
    match steps, depth with
    | 0, _ | _ + 1, 0 => exact absurd h (Outcome.halted_ne_of _)
    | steps + 1, depth + 1 => exact ⟨steps, depth, (congrFun (hsucc steps depth) σ).symm.trans h⟩
  · rintro ⟨steps, depth, h⟩
    exact ⟨steps + 1, depth + 1, (congrFun (hsucc steps depth) σ).trans h⟩

/-- What forms come to in an environment, with some budget. -/
abbrev EndsIn (files : Files) (env : Env) : Evaluation :=
  fun value => Ends files (·.eval value env)

theorem Slot.Comes.eventually {slot : Slot} {s : Except EvalError (List Value)}
    (h : slot.Comes (EndsIn files env) σ s τ) :
    ∃ k, ∀ steps depth, k ≤ steps → k ≤ depth →
      slot.Comes ((Host.evaluator ⟨files, steps, depth⟩).Gives env) σ s τ := by
  cases h with
  | filler evaluated isFiller =>
    obtain ⟨k, hk⟩ := Steady.eval _ env evaluated
    exact ⟨k, fun steps depth hs hd => .filler (hk steps depth hs hd) isFiller⟩
  | fails fails =>
    obtain ⟨k, hk⟩ := Steady.eval _ env fails
    exact ⟨k, fun steps depth hs hd => .fails (hk steps depth hs hd)⟩
  | noFiller evaluated noFiller =>
    obtain ⟨k, hk⟩ := Steady.eval _ env evaluated
    exact ⟨k, fun steps depth hs hd => .noFiller (hk steps depth hs hd) noFiller⟩

/-- One budget that is large enough will do for all slots. -/
theorem InTurn.eventually {slots : List Slot} {s : Except EvalError (List (List Value))}
    (h : InTurn (EndsIn files env) slots σ s τ) :
    ∃ k, ∀ steps depth, k ≤ steps → k ≤ depth →
      InTurn ((Host.evaluator ⟨files, steps, depth⟩).Gives env) slots σ s τ := by
  induction h with
  | nil => exact ⟨0, fun _ _ _ _ => .nil⟩
  | next head _ ih =>
    obtain ⟨k, hk⟩ := head.eventually
    obtain ⟨l, hl⟩ := ih
    refine ⟨max k l, fun steps depth hs hd => ?_⟩
    have hhead := hk steps depth (by omega) (by omega)
    exact .next hhead (hl steps depth (by omega) (by omega))
  | fails head =>
    obtain ⟨k, hk⟩ := head.eventually
    exact ⟨k, fun steps depth hs hd => .fails (hk steps depth hs hd)⟩
  | later head _ ih =>
    obtain ⟨k, hk⟩ := head.eventually
    obtain ⟨l, hl⟩ := ih
    refine ⟨max k l, fun steps depth hs hd => ?_⟩
    have hhead := hk steps depth (by omega) (by omega)
    exact .later hhead (hl steps depth (by omega) (by omega))

theorem ends_fill {template : Value} {r : Except EvalError Value} :
    Ends files (·.evaluator.fill env template) σ r τ ↔
      ∃ s, InTurn (EndsIn files env) template.slots σ s τ ∧ Filled template s r := by
  constructor
  · rintro ⟨steps, depth, h⟩
    obtain ⟨s, evaluated, filled⟩ := Evaluator.fill_eq_of.mp h
    exact ⟨s, evaluated.imp fun _ _ _ _ h => ⟨steps, depth, h⟩, filled⟩
  · rintro ⟨s, evaluated, filled⟩
    obtain ⟨k, hk⟩ := evaluated.eventually
    exact ⟨k, k, Evaluator.fill_eq_of.mpr ⟨s, hk k k le_rfl le_rfl, filled⟩⟩

theorem InTurn.exists_filled {template : Value} {s : Except EvalError (List (List Value))}
    (h : InTurn (EndsIn files env) template.slots σ s τ) : ∃ r, Filled template s r := by
  obtain ⟨k, hk⟩ := h.eventually
  obtain ⟨r, filled, -⟩ := Evaluator.fill_of_inTurn (hk k k le_rfl le_rfl)
  exact ⟨r, filled⟩

/-- Quasiquotation evaluates the forms in the slots of its template, in turn and up to a failure, and then
fills in what they came to, whatever evaluates the forms. The length of a sequence that is filled in is that
of what is spliced into it, with one more for each other item, and a template without slots stays as it is. -/
theorem quasiquote_fills (files : Files) (env : Env) (template : Value) :
    (∀ σ τ, (∀ r, Ends files (·.eval (form .quasiquote [template]) env) σ r τ ↔
          ∃ s, InTurn (EndsIn files env) template.slots σ s τ ∧ Filled template s r) ∧
        ∀ s, InTurn (EndsIn files env) template.slots σ s τ → ∃ r, Filled template s r) ∧
      (∀ (ev : Evaluator) σ r τ, ev.fill env template σ = .of r τ ↔
        ∃ s, InTurn (ev.Gives env) template.slots σ s τ ∧ Filled template s r) ∧
      (∀ items fillers parts, FillingAll items fillers parts →
        parts.flatten.length = items.countP (! ·.isSplice) +
          (((items.zip parts).filter (·.1.isSplice)).map (·.2.length)).sum) ∧
      (template.slots = [] → ∀ ev : Evaluator, ev.fill env template = pure template) := by
  refine ⟨fun σ τ => ⟨fun r => ends_quasiquote.trans ends_fill, fun s h => h.exists_filled⟩,
    fun ev σ r τ => Evaluator.fill_eq_of, fun items fillers parts h => h.length_flatten, ?_⟩
  exact fun noSlots ev => Evaluator.fill_of_noSlots noSlots

/-- A template with a slot inside of a list and another inside of a vector in it. -/
theorem quasiquote_fills_nested :
    let spliced : Value := Marker.spliceUnquote.wrap (.symbol "y")
    let template : Value := .list [.int 1, Marker.unquote.wrap (.symbol "x"), .vector [spliced, .int 4]]
    let σ : Store := ⟨#[⟨[("x", .int 7), ("y", .list [.int 2, .int 3])], none⟩], #[], 0, .silent⟩
    let fillers : List (List Value) := [[.int 7], [.int 2, .int 3]]
    let parts : List (List Value) := [[.int 2, .int 3], [.int 4]]
    let v : Value := .list [.int 1, .int 7, .vector parts.flatten]
    (InTurn (EndsIn .empty .global) template.slots σ (.ok fillers) σ ∧
        Filled template (.ok fillers) (.ok v) ∧
        Ends .empty (·.eval (form .quasiquote [template]) .global) σ (.ok v) σ) ∧
      (FillingAll [spliced, .int 4] [[.int 2, .int 3]] parts ∧ parts.flatten.length = 1 + 2) ∧
      v.slots = [] ∧ ∀ ev : Evaluator, ev.fill .global v = pure v := by
  intro spliced template σ fillers parts v
  have hx : EndsIn .empty .global (.symbol "x") σ (.ok (.int 7)) σ := ⟨1, 1, rfl⟩
  have hy : EndsIn .empty .global (.symbol "y") σ (.ok (.list [.int 2, .int 3])) σ := ⟨1, 1, rfl⟩
  have evaluated : InTurn (EndsIn .empty .global) template.slots σ (.ok fillers) σ :=
    .next (.filler hx rfl) (.next (.filler hy rfl) .nil)
  have hends : Ends .empty (·.eval (form .quasiquote [template]) .global) σ (.ok v) σ := ⟨3, 3, rfl⟩
  have noSlots : v.slots = [] := rfl
  have hfour : FillingAll [.int 4] [] [[.int 4]] := .item (Marker.body?_eq_none.mp rfl) (.quoted rfl) .nil
  have hparts : FillingAll [spliced, .int 4] [[.int 2, .int 3]] parts := .splice hfour
  obtain ⟨hfills, -, hlength, -⟩ := quasiquote_fills .empty .global template
  obtain ⟨-, -, -, hstays⟩ := quasiquote_fills .empty .global v
  obtain ⟨r, filled⟩ := (hfills σ σ).2 _ evaluated
  obtain ⟨rfl, -⟩ := hends.unique (Steady.eval _ _) (((hfills σ σ).1 r).mpr ⟨_, evaluated, filled⟩)
  exact ⟨⟨evaluated, filled, hends⟩, ⟨hparts, hlength _ _ _ hparts⟩, noSlots, hstays noSlots⟩

end Lisp
