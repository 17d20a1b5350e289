import Lisp.Proofs.FrameIsolation
import Lisp.Proofs.SourcedCalls

/-! What evaluation makes of sourced forms in a sourced store. The rules are run by an evaluator whose
evaluations give sourced values and leave the store sourced, and so do the runs that follow them, under any
watch that changes nothing. -/

namespace Lisp

def Step.Sourced : Step → Prop
  | .done v | .next v _ => v.Sourced

theorem Value.Sourced.body {m : Marker} {v form : Value} (h : v.Sourced) (hbody : m.body? v = some form) :
    form.Sourced := by
  obtain rfl := Marker.body?_eq_some.mp hbody
  exact h.items rfl form (by simp)

structure Evaluator.Sourced (ev : Evaluator) : Prop where
  eval {form : Value} (h : form.Sourced) (env : Env) : Yields Value.Sourced (ev.eval form env)

namespace Yields

variable {P : Step → Prop}

theorem done {x : Action Value} (h : Yields Value.Sourced x) :
    Yields Step.Sourced (x >>= fun v => Pure.pure (.done v)) :=
  h.bind fun _ hv => pure hv

theorem next {x : Action Value} (h : Yields Value.Sourced x) (env : Env) :
    Yields Step.Sourced (x >>= fun v => Pure.pure (.next v env)) :=
  h.bind fun _ hv => pure hv

end Yields

namespace Evaluator.Sourced

variable {ev : Evaluator} {operands args : List Value}

theorem evalAll (hev : ev.Sourced) {forms : List Value} (h : AllSourced forms) (env : Env) :
    Yields (fun values => values.length = forms.length ∧ AllSourced values)
      (ev.evalAll forms env) := by
  induction forms with
  | nil => exact Yields.pure ⟨rfl, h⟩
  | cons form forms ih =>
    obtain ⟨hform, hforms⟩ := List.forall_mem_cons.mp h
    rw [evalAll_cons]
    refine (hev.eval hform env).bind fun v hv => (ih hforms).bind fun values hvalues => ?_
    exact Yields.pure ⟨by simp [hvalues.1], List.forall_mem_cons.mpr ⟨hv, hvalues.2⟩⟩

/-- The values of a map are evaluated, and its keys stay as they are. -/
theorem evalMap (hev : ev.Sourced) {es : Entries} (h : Value.Sourced (.map es)) (env : Env) :
    Yields (fun v => v.Sourced ∧ ∃ values, values.length = es.length ∧
        v = .map ((es.map Prod.fst).zip values)) (do
      let values ← ev.evalAll (es.map Prod.snd) env
      ev.mapOf ((es.map Prod.fst).zip values)) := by
  have hforms : AllSourced (es.map Prod.snd) := by
    intro v hv
    obtain ⟨e, he, rfl⟩ := List.mem_map.mp hv
    exact h.part (.value he (.refl _))
  refine (hev.evalAll hforms env).bind fun values ⟨hlen, hvalues⟩ => ?_
  rw [List.length_map] at hlen
  have hmap := h.withValues hlen hvalues
  refine (Yields.mapOf ev hmap).mono fun v hv => ?_
  subst hv
  exact ⟨hmap, values, hlen, rfl⟩

theorem applyClosure (hev : ev.Sourced) {c : Closure Value} (hc : c.body.Sourced)
    (h : AllSourced args) : Yields Value.Sourced (ev.applyClosure c args) :=
  (Yields.enter h c.env c.params).bind fun inner _ => hev.eval hc inner

theorem call (hev : ev.Sourced) (b : Builtin) (h : AllSourced args)
    (happly : ∀ f ∈ args, ∀ content rest, rest.length + 2 = args.length →
      AllSourced (content :: rest) → Yields Value.Sourced (ev.apply f (content :: rest))) :
    Yields Value.Sourced (ev.call b args) := by
  by_cases noEval : b = .eval
  · subst noEval
    simp only [Evaluator.call, Evaluator.callWithin]
    exact (Yields.ofExcept (.oneArgument h)).bind fun form hform => hev.eval hform .global
  · by_cases noSwap : b = .swap
    · subst noSwap
      rw [call_swap]
      unfold Builtin.swapContent
      split
      · next a f extra =>
        have hextra : AllSourced extra := fun v hv => h v (by simp [hv])
        refine (Yields.ofExcept (.any _)).bind fun c _ => ?_
        have happly : ∀ content, content.Sourced → Yields Value.Sourced (ev.apply f (content :: extra)) :=
          fun content hcontent => happly f (by simp) content extra rfl
            (List.forall_mem_cons.mpr ⟨hcontent, hextra⟩)
        split
        all_goals first
          | exact Yields.fail _
          | refine (Yields.query fun σ hσ => hσ.content c).bind fun content hcontent => ?_
            refine (happly content hcontent).bind fun v hv => ?_
            exact (Yields.setContent hv c).bind fun _ _ => Yields.pure hv
      · exact Yields.fail _
    · exact Yields.call ev noEval noSwap h

theorem apply (hev : ev.Sourced) {f : Value} (hf : f.Sourced) (h : AllSourced args) :
    Yields Value.Sourced (ev.apply f args) := by
  induction hn : args.length using Nat.strong_induction_on generalizing f args with
  | _ n ih =>
    cases hf with
    | function b =>
      -- What `swap!` applies gets an argument fewer than `swap!` itself.
      refine hev.call b h fun f hf content rest hlen hrest => ?_
      have hlt : (content :: rest).length < n := by
        rw [List.length_cons]
        omega
      exact ih _ hlt (h f hf) hrest rfl
    | closure body => exact hev.applyClosure body h
    | _ => exact Yields.fail _

theorem splice (hev : ev.Sourced) (env : Env) {form : Value} (h : form.Sourced) :
    Yields AllSourced (ev.splice env form) := by
  refine (hev.eval h env).bind fun v hv => ?_
  cases hitems : v.items? with
  | some items => exact Yields.pure (hv.items hitems)
  | none => exact Yields.fail _

mutual

theorem fill (hev : ev.Sourced) (env : Env) (template : Value) (h : template.Sourced) :
    Yields Value.Sourced (ev.fill env template) := by
  unfold Evaluator.fill
  cases hbody : Marker.unquote.body? template with
  | some form => exact hev.eval (h.body hbody) env
  | none =>
    cases template with
    | list items =>
      have hfill := hev.fillItems env [] items (List.forall_mem_nil _) (h.items rfl)
      exact hfill.bind fun _ hfilled => Yields.pure (.list hfilled)
    | vector items =>
      have hfill := hev.fillItems env [] items (List.forall_mem_nil _) (h.items rfl)
      exact hfill.bind fun _ hfilled => Yields.pure (.vector hfilled)
    | _ => exact Yields.pure h

theorem fillItems (hev : ev.Sourced) (env : Env) (done items : List Value) (hdone : AllSourced done)
    (h : AllSourced items) : Yields AllSourced (ev.fillItems env done items) := by
  match items with
  | [] => exact Yields.pure fun v hv => hdone v (List.mem_reverse.mp hv)
  | item :: items =>
    obtain ⟨hitem, hitems⟩ := List.forall_mem_cons.mp h
    unfold Evaluator.fillItems
    cases hbody : Marker.spliceUnquote.body? item with
    | some form =>
      refine (hev.splice env (hitem.body hbody)).bind fun spliced hspliced => ?_
      refine hev.fillItems env _ items (fun v hv => ?_) hitems
      obtain hv | hv := List.mem_append.mp hv
      · exact hspliced v (List.mem_reverse.mp hv)
      · exact hdone v hv
    | none =>
      refine (hev.fill env item hitem).bind fun v hv => ?_
      exact hev.fillItems env _ items (List.forall_mem_cons.mpr ⟨hv, hdone⟩) hitems

end

theorem expandUpTo (hev : ev.Sourced) (env : Env) (n : Nat) {form : Value} (h : form.Sourced) :
    Yields Value.Sourced (ev.expandUpTo env n form) := by
  induction n generalizing form with
  | zero => exact Yields.halt _
  | succ n ih =>
    unfold Evaluator.expandUpTo
    split
    · next head operands =>
      obtain ⟨-, hoperands⟩ := List.forall_mem_cons.mp (h.items rfl)
      refine (Yields.macroNamed? head env).bind fun found hfound => ?_
      cases found with
      | some c => exact (hev.applyClosure (hfound c rfl) hoperands).bind fun _ h => ih h
      | none => exact Yields.pure h
    · exact Yields.pure h

/-! The special forms. What they bind, hand over or give is an operand, part of one or a value. -/

theorem define (hev : ev.Sourced) (h : AllSourced operands) (env : Env) :
    Yields Step.Sourced (ev.define operands env) := by
  unfold Evaluator.define
  split
  · next name form =>
    have hform : form.Sourced := h form (by simp)
    refine (Yields.boundName _ name).bind fun name _ => (hev.eval hform env).bind fun v hv => ?_
    exact (Yields.set hv env name).bind fun _ _ => Yields.pure hv
  · exact Yields.fail _

theorem defineMacro (hev : ev.Sourced) (h : AllSourced operands) (env : Env) :
    Yields Step.Sourced (ev.defineMacro operands env) := by
  unfold Evaluator.defineMacro
  split
  · next name form =>
    have hform : form.Sourced := h form (by simp)
    refine (Yields.boundName _ name).bind fun name _ => (hev.eval hform env).bind fun v hv => ?_
    cases hv with
    | closure body =>
      refine (Yields.addClosure body _ _ true).bind fun c hc => ?_
      exact (Yields.set (.closure hc) env name).bind fun _ _ => Yields.pure (.closure hc)
    | _ => exact Yields.fail _
  · exact Yields.fail _

theorem bindAll (hev : ev.Sourced) (inner : Env) : (items : List Value) → AllSourced items →
    Yields (fun _ => True) (ev.bindAll inner items)
  | [], _ => Yields.pure trivial
  | [_], _ => Yields.pure trivial
  | name :: form :: items, h => by
    have hform : form.Sourced := h form (by simp)
    have hitems : AllSourced items := fun v hv => h v (by simp [hv])
    unfold Evaluator.bindAll
    refine (Yields.boundName _ name).bind fun name _ => (hev.eval hform inner).bind fun v hv => ?_
    exact (Yields.set hv inner name).bind fun _ _ => hev.bindAll inner items hitems

theorem letIn (hev : ev.Sourced) (h : AllSourced operands) (env : Env) :
    Yields Step.Sourced (ev.letIn operands env) := by
  unfold Evaluator.letIn
  split
  · next bindings body =>
    have hbindings : bindings.Sourced := h bindings (by simp)
    have hbody : body.Sourced := h body (by simp)
    split
    · next items hitems =>
      split
      · exact Yields.fail _
      · refine (Yields.child env).bind fun inner _ => ?_
        exact (hev.bindAll inner items (hbindings.items hitems)).bind fun _ _ => Yields.pure hbody
    · exact Yields.fail _
  · exact Yields.fail _

theorem sequence (hev : ev.Sourced) (h : AllSourced operands) (env : Env) :
    Yields Step.Sourced (ev.sequence env operands) := by
  obtain rfl | ⟨forms, last, rfl⟩ := List.eq_nil_or_concat' operands
  · exact Yields.pure .nil
  · have hforms : AllSourced forms := fun v hv => h v (List.mem_append_left _ hv)
    have hlast : last.Sourced := h last (by simp)
    rw [sequence_append]
    exact (hev.evalAll hforms env).bind fun _ _ => Yields.pure hlast

theorem conditional (hev : ev.Sourced) (h : AllSourced operands) (env : Env) :
    Yields Step.Sourced (ev.conditional operands env) := by
  unfold Evaluator.conditional
  split
  · next condition thenForm =>
    have hcondition : condition.Sourced := h condition (by simp)
    refine (hev.eval hcondition env).bind fun v _ => Yields.pure ?_
    split
    · exact h thenForm (by simp)
    · exact .nil
  · next condition thenForm elseForm =>
    have hcondition : condition.Sourced := h condition (by simp)
    refine (hev.eval hcondition env).bind fun v _ => Yields.pure ?_
    split
    · exact h thenForm (by simp)
    · exact h elseForm (by simp)
  · exact Yields.fail _

theorem makeClosure (h : AllSourced operands) (env : Env) :
    Yields Step.Sourced (makeClosure operands env) := by
  unfold Evaluator.makeClosure
  split
  · next params body =>
    have hbody : body.Sourced := h body (by simp)
    split
    · refine (Yields.ofExcept (.any _)).bind fun params _ => ?_
      exact (Yields.addClosure hbody params env false).bind fun _ hc => Yields.pure (.closure hc)
    · exact Yields.fail _
  · exact Yields.fail _

theorem evalSpecial (hev : ev.Sourced) (sf : SpecialForm) (h : AllSourced operands) (env : Env) :
    Yields Step.Sourced (ev.evalSpecial sf operands env) := by
  unfold Evaluator.evalSpecial
  split
  · exact hev.define h env
  · exact hev.letIn h env
  · exact hev.sequence h env
  · exact hev.conditional h env
  · exact makeClosure h env
  · split
    · exact Yields.pure (h _ (by simp))
    · exact Yields.fail _
  · split
    · exact (hev.fill env _ (h _ (by simp))).done
    · exact Yields.fail _
  · exact hev.defineMacro h env
  · split
    · exact (hev.expandUpTo env _ (h _ (by simp))).done
    · exact Yields.fail _

theorem enterCall (hev : ev.Sourced) {f : Value} (hf : f.Sourced) (h : AllSourced args) :
    Yields Step.Sourced (ev.enterCall f args) := by
  cases hf with
  | @closure c body =>
    exact (Yields.enter h c.env c.params).bind fun inner _ => Yields.pure body
  | function b => exact (hev.apply (.function b) h).done
  | _ => exact Yields.fail _

theorem stepList (hev : ev.Sourced) {head : Value} (hhead : head.Sourced) (h : AllSourced operands)
    (env : Env) : Yields Step.Sourced (ev.stepList head operands env) := by
  unfold Evaluator.stepList
  split
  · next sf _ => exact hev.evalSpecial sf h env
  · refine (Yields.macroNamed? head env).bind fun found hfound => ?_
    cases found with
    | some c => exact (hev.applyClosure (hfound c rfl) h).next env
    | none =>
      refine (hev.eval hhead env).bind fun f hf => (hev.evalAll h env).bind fun args hargs => ?_
      exact hev.enterCall hf hargs.2

theorem step (hev : ev.Sourced) {form : Value} (h : form.Sourced) (env : Env) :
    Yields Step.Sourced (ev.step form env) := by
  match form with
  | .list [] => exact Yields.pure h
  | .list (head :: operands) =>
    obtain ⟨hhead, hoperands⟩ := List.forall_mem_cons.mp (h.items rfl)
    exact hev.stepList hhead hoperands env
  | .symbol name => exact (Yields.lookup env name).done
  | .vector items =>
    exact (hev.evalAll (h.items rfl) env).bind fun values hvalues => Yields.pure (.vector hvalues.2)
  | .map entries =>
    rw [step_map, ← bind_assoc]
    exact ((hev.evalMap h env).mono fun _ hv => hv.1).done
  | .error message => exact nomatch h
  | .int _ | .bool _ | .nil | .eof | .keyword _ | .str _ | .function _ | .closure _ | .atom _ =>
    exact Yields.pure h

theorem finish (hev : ev.Sourced) {s : Step} (h : s.Sourced) : Yields Value.Sourced (ev.finish s) := by
  cases s with
  | done v => exact Yields.pure h
  | next form env => exact hev.eval h env

end Evaluator.Sourced

variable {watch : Value → Env → Action Unit}

theorem evalWatched_sourced (hwatch : ∀ form env, Yields (fun _ => True) (watch form env))
    (files : Files) (steps depth : Nat) :
    Evaluator.Sourced ⟨evalWatched watch files steps depth, files, steps⟩ := by
  induction steps generalizing depth with
  | zero => exact ⟨fun _ _ => Yields.halt _⟩
  | succ steps ih =>
    cases depth with
    | zero => exact ⟨fun _ _ => Yields.halt _⟩
    | succ depth =>
      refine ⟨fun {form} h env => (hwatch form env).bind fun _ _ => ?_⟩
      exact ((ih depth).step h env).bind fun s hs => (ih (depth + 1)).finish hs

namespace Host

theorem endingAt_sourced (host : Host) (point : Value → Env → Store → Bool) :
    (host.endingAt point).Sourced := by
  refine evalWatched_sourced (fun form env σ r τ h hσ => ?_) host.files host.steps host.depth
  split at h
  · obtain ⟨-, rfl⟩ := Outcome.failure_eq_of.mp h
    exact ⟨hσ, .any _⟩
  · obtain ⟨-, rfl⟩ := Outcome.value_eq_of.mp h
    exact ⟨hσ, .any _⟩

theorem sourced (host : Host) : host.evaluator.Sourced := by
  rw [← watched_pure]
  exact evalWatched_sourced (fun _ _ => Yields.pure trivial) host.files host.steps host.depth

theorem eval_map (host : Host) {es : Entries} (h : Value.Sourced (.map es)) (env : Env) :
    Yields (fun v => ∃ values, values.length = es.length ∧ v = .map ((es.map Prod.fst).zip values))
      (host.eval (.map es) env) := by
  obtain ⟨files, steps, depth⟩ := host
  cases steps with
  | zero => exact Yields.halt _
  | succ steps =>
    cases depth with
    | zero => exact Yields.halt _
    | succ depth =>
      change Yields _ (evalWithin files (steps + 1) (depth + 1) _ env)
      rw [evalWithin_succ, Evaluator.step_map]
      simp only [bind_assoc, pure_bind, Evaluator.finish, bind_pure]
      exact ((sourced ⟨files, steps, depth⟩).evalMap h env).mono fun v hv => hv.2

end Host

end Lisp
