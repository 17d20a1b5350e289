import Lisp.Proofs.Equality
import Lisp.Proofs.Loading
import Lisp.Proofs.SourcedRules
import Lisp.Repl

/-! The values of a session that is driven by texts: what can be reached from its frames, its atoms and the
results that it gave, at every point that it comes to. -/

namespace Lisp

open Value (Part Equal)

/-- What can be reached in a store and from results. -/
inductive Reachable (σ : Store) (results : List Value) : Value → Prop
  | result {v : Value} (h : v ∈ results) : Reachable σ results v
  | bound {e : Env} {f : Frame} {b : String × Value} (hf : σ.frame? e = some f) (hb : b ∈ f.bindings) :
    Reachable σ results b.2
  | content {v : Value} (h : v ∈ σ.cells) : Reachable σ results v
  | part {x v : Value} (hv : Reachable σ results v) (hx : Part x v) : Reachable σ results x
  | body {c : Closure Value} (hc : Reachable σ results (.closure c)) : Reachable σ results c.body

def loadFileCall (path : String) : Value :=
  .list [.symbol "load-file", .str path]

/-- The forms that a session evaluates: at once, or inside of what it evaluates. -/
inductive Entered (σ : Store) (results : List Value) : Value → Prop
  | text {source : String} {form : Value} (h : read source = .ok form) : Entered σ results form
  | file (path : String) : Entered σ results (loadFileCall path)
  | reached {form : Value} (h : Reachable σ results form) : Entered σ results form

/-- A session has come to a store, and gave results of evaluations on its way. To run a file is to load it.
The files and the limits of an evaluation may change from one call to the next. -/
inductive Session : Store → List Value → Prop
  | start {host : Host} {argv withLoadFile output τ}
    (call : host.start argv withLoadFile (.empty output) = .of (.ok ()) τ) : Session τ []
  | rep {host : Host} {source σ results r τ} (before : Session σ results)
    (call : host.rep source σ = .of r τ) : Session τ results
  | readEval {host : Host} {source σ results v τ} (before : Session σ results)
    (call : host.evalToValue source σ = .of (.ok v) τ) :
    Session τ (if v.isError then results else v :: results)
  | tryReadEval {host : Host} {source σ results r τ} (before : Session σ results)
    (call : host.evalSource source σ = .of r τ) : Session τ (r.toOption.toList ++ results)
  | loadFile {host : Host} {path σ results r τ} (before : Session σ results)
    (call : host.loadFile path σ = .of r τ) : Session τ (r.toOption.toList ++ results)
  | runRepl {host : Host} {input σ results r τ} (before : Session σ results)
    (call : host.runRepl input σ = .of r τ) : Session τ results
  /-- A call is on its way: it has come to a point inside of it, or an evaluation inside of it has ended. -/
  | inside {host : Host} {point form env σ results r τ} (before : Session σ results)
    (entered : Entered σ results form) (call : (host.endingAt point).eval form env σ = .of r τ) :
    Session τ (r.toOption.toList ++ results)
  | printed {σ results} (before : Session σ results) (output : Sink) :
    Session { σ with output := output } results

/-- A value that is no failure, with a readable name if it has one, and with distinct keys that can be
written down if it is a map. -/
structure WellRead (cells : Cells) (v : Value) : Prop where
  noError (message : String) : v ≠ .error message
  plainKeys {es : Entries} : v = .map es → ∀ e ∈ es, e.1.Plain
  distinctKeys {es : Entries} : v = .map es →
    es.Pairwise fun e f => ¬ Equal cells e.1 f.1 ∧ ¬ Equal cells f.1 e.1
  symbol {name : String} : v = .symbol name → read name = .ok v
  keyword {name : String} : v = .keyword name → read (":" ++ name) = .ok v

theorem Value.Sourced.wellRead {σ : Store} {v : Value} (h : v.Sourced) (hσ : σ.Sourced) :
    WellRead σ.cells v where
  noError message := by
    rintro rfl
    nomatch h
  plainKeys := by
    rintro es rfl e he
    cases h with
    | map _ keys _ => exact (keys e he).plain
  distinctKeys := by
    rintro es rfl
    have hdomain := Value.keyedDomain_wellKeyed fun c => (hσ.content c).wellKeyed σ.cells
    have hkey {e} (he : e ∈ es) := (h.part (.key he (.refl _))).wellKeyed σ.cells
    refine (h.keys_ne σ.cells).imp_of_mem fun he hf hne => ⟨hne, fun heq => hne ?_⟩
    exact hdomain.equal_symm (hkey hf) (hkey he) heq
  symbol := by
    rintro name rfl
    cases h with
    | symbol hname => simpa [Value.print, Value.write] using read_print σ.cells (.symbol hname)
  keyword := by
    rintro name rfl
    cases h with
    | keyword hname => simpa [Value.print, Value.write] using read_print σ.cells (.keyword hname)

theorem Reachable.sourced {σ : Store} {results : List Value} {v : Value} (h : Reachable σ results v)
    (hσ : σ.Sourced) (hresults : AllSourced results) : v.Sourced := by
  induction h with
  | result h => exact hresults _ h
  | bound hf hb => exact hσ.frame hf _ hb
  | content h => exact hσ.cell h
  | part _ hx ih => exact ih.part hx
  | body _ ih =>
    cases ih with
    | closure body => exact body

theorem loadFileCall_sourced (path : String) : (loadFileCall path).Sourced := by
  have hname : (Value.symbol "load-file").Sourced :=
    (read_sourced read_loadFileSource).items rfl _ (by simp)
  exact .list (List.forall_mem_cons.mpr ⟨hname, List.forall_mem_singleton.mpr (.str path)⟩)

theorem Entered.sourced {σ : Store} {results : List Value} {form : Value} (h : Entered σ results form)
    (hσ : σ.Sourced) (hresults : AllSourced results) : form.Sourced := by
  cases h with
  | text h => exact read_sourced h
  | file path => exact loadFileCall_sourced path
  | reached h => exact h.sourced hσ hresults

theorem Store.empty_sourced (output : Sink) : (Store.empty output).Sourced where
  frame h := nomatch h
  cell h := nomatch h

theorem Frame.builtins_sourced : Frame.builtins.Sourced := by
  intro b hb
  obtain ⟨builtin, -, rfl⟩ := List.mem_map.mp hb
  exact .function builtin

namespace Yields

variable (host : Host)

theorem evalSource (source : String) : Yields Value.Sourced (host.evalSource source) :=
  (readSource source).bind fun _ hform => host.sourced.eval hform .global

theorem evalToValue (source : String) :
    Yields (fun v => v.isError = false → v.Sourced) (host.evalToValue source) := by
  refine (evalSource host source).attempt.bind fun s hs => ?_
  cases s with
  | ok v => exact pure fun _ => hs v rfl
  | error e => exact pure fun h => nomatch h

theorem rep (source : String) : Yields (fun _ => True) (host.rep source) :=
  (evalToValue host source).bind fun _ _ => query fun _ _ => trivial

theorem write (text : String) : Yields (fun _ => True) (.modify (·.write text)) :=
  modify fun _ hσ => hσ.of_same rfl rfl

theorem answerLine (line : String) : Yields (fun _ => True) (host.answerLine line) := by
  unfold Host.answerLine
  split
  · exact pure trivial
  · exact (rep host line).bind fun answer _ => writeLine answer

theorem answerLines (lines : List (List UInt8)) : Yields (fun _ => True) (host.answerLines lines) := by
  induction lines with
  | nil => exact (write _).bind fun _ _ => (writeLine _).bind fun _ _ => pure trivial
  | cons line lines ih =>
    refine (write _).bind fun _ _ => ?_
    split
    · next text _ => exact (answerLine host text).bind fun _ _ => ih
    · exact pure trivial

theorem start (argv : List String) (withLoadFile : Bool) :
    Yields (fun _ => True) (host.start argv withLoadFile) := by
  have hargv : Value.Sourced (.list (argv.map .str)) := by
    refine .list fun v hv => ?_
    obtain ⟨text, -, rfl⟩ := List.mem_map.mp hv
    exact .str text
  refine (addFrame Frame.builtins_sourced).bind fun _ _ => ?_
  refine (set hargv .global "*ARGV*").bind fun _ _ => ?_
  split
  · exact (evalSource host loadFileSource).bind fun _ _ => pure trivial
  · exact pure trivial

end Yields

theorem Session.sourced {σ : Store} {results : List Value} (h : Session σ results) :
    σ.Sourced ∧ AllSourced results := by
  have hgiven {r : Except EvalError Value} {results : List Value} (hr : Ensures Value.Sourced r)
      (hresults : AllSourced results) : AllSourced (r.toOption.toList ++ results) := by
    cases r with
    | ok v => exact List.forall_mem_cons.mpr ⟨hr v rfl, hresults⟩
    | error e => exact hresults
  induction h with
  | @start host argv withLoadFile output τ call =>
    exact ⟨(Yields.start host argv withLoadFile call (Store.empty_sourced output)).1,
      List.forall_mem_nil _⟩
  | rep _ call ih => exact ⟨(Yields.rep _ _ call ih.1).1, ih.2⟩
  | readEval _ call ih =>
    obtain ⟨hτ, hv⟩ := Yields.evalToValue _ _ call ih.1
    refine ⟨hτ, ?_⟩
    split
    · exact ih.2
    · next hnoError => exact List.forall_mem_cons.mpr ⟨hv _ rfl (by simpa using hnoError), ih.2⟩
  | tryReadEval _ call ih =>
    obtain ⟨hτ, hr⟩ := Yields.evalSource _ _ call ih.1
    exact ⟨hτ, hgiven hr ih.2⟩
  | loadFile _ call ih =>
    obtain ⟨hτ, hr⟩ := (Host.sourced _).eval (loadFileCall_sourced _) .global call ih.1
    exact ⟨hτ, hgiven hr ih.2⟩
  | runRepl _ call ih => exact ⟨(Yields.answerLines _ _ call ih.1).1, ih.2⟩
  | inside _ entered call ih =>
    have hform := entered.sourced ih.1 ih.2
    obtain ⟨hτ, hr⟩ := (Host.endingAt_sourced _ _).eval hform _ call ih.1
    exact ⟨hτ, hgiven hr ih.2⟩
  | printed _ output ih => exact ⟨ih.1.of_same rfl rfl, ih.2⟩

theorem Host.evalToValue_eq_of {host : Host} {source : String} {σ τ : Store} {v : Value} :
    host.evalToValue source σ = .of (.ok v) τ ↔
      host.evalSource source σ = .of (.ok v) τ ∨
        ∃ e, host.evalSource source σ = .of (.error e) τ ∧ v = e.toValue := by
  unfold evalToValue
  simp only [Action.bind_eq_of, Action.attempt_eq_of]
  constructor
  · rintro (⟨e, h, -⟩ | ⟨s, ρ, ⟨_, hs, heq⟩, h⟩)
    · cases h
    · obtain rfl := Except.ok.inj heq
      cases s with
      | ok w =>
        obtain ⟨hv, rfl⟩ := Action.pure_eq_of.mp h
        exact .inl (Except.ok.inj hv ▸ hs)
      | error e =>
        obtain ⟨hv, rfl⟩ := Action.pure_eq_of.mp h
        exact .inr ⟨e, hs, Except.ok.inj hv⟩
  · rintro (h | ⟨e, h, rfl⟩)
    · exact .inr ⟨.ok v, τ, ⟨_, h, rfl⟩, rfl⟩
    · exact .inr ⟨.error e, τ, ⟨_, h, rfl⟩, rfl⟩

/-- At every point of a session, what can be reached is well read. So a map keeps its keys when it is
evaluated, a failure is told from every value, and the readable text of what is plain is read back. -/
theorem session_values {σ : Store} {results : List Value} (h : Session σ results) :
    (∀ v, Reachable σ results v → WellRead σ.cells v) ∧
    (∀ (host : Host) es env v τ, Entered σ results (.map es) →
      host.eval (.map es) env σ = .of (.ok v) τ →
      ∃ values, values.length = es.length ∧ v = .map ((es.map Prod.fst).zip values)) ∧
    (∀ (host : Host) source message τ, host.evalToValue source σ = .of (.ok (.error message)) τ ↔
      ∃ e, host.evalSource source σ = .of (.error e) τ ∧ e.message = message) ∧
    (∀ v, Reachable σ results v → v.Plain → read (v.print σ.cells true) = .ok v) := by
  obtain ⟨hσ, hresults⟩ := h.sourced
  refine ⟨?_, ?_, ?_, ?_⟩
  · exact fun v hv => (hv.sourced hσ hresults).wellRead hσ
  · intro host es env v τ hes heval
    have hmap := hes.sourced hσ hresults
    exact (host.eval_map hmap env heval hσ).2 v rfl
  · intro host source message τ
    rw [Host.evalToValue_eq_of]
    constructor
    · rintro (hvalue | ⟨e, herror, hmessage⟩)
      · have hsourced := (Yields.evalSource host source hvalue hσ).2 _ rfl
        nomatch hsourced
      · exact ⟨e, herror, (Value.error.inj hmessage).symm⟩
    · rintro ⟨e, herror, rfl⟩
      exact .inr ⟨e, herror, rfl⟩
  · intro v hv plain
    exact read_print σ.cells ((hv.sourced hσ hresults).literal plain)

/-- A session that makes an atom with a map in it, and is given a text that ends too early. -/
theorem session_values_atom :
    let v : Value := .map [(.keyword "k", Marker.quote.wrap (.symbol "b"))]
    let w : Value := .map [(.keyword "k", .symbol "b")]
    let host : Host := ⟨.empty, 4, 4⟩
    let σ := ((startStore [] .silent).addCell v).2.bind .global "a" (.atom ⟨0⟩)
    Session σ [.atom ⟨0⟩] ∧ (Reachable σ [.atom ⟨0⟩] v ∧ WellRead σ.cells v) ∧
      (host.eval v .global σ = .of (.ok w) σ ∧
        ∃ values, values.length = 1 ∧ w = .map ([.keyword "k"].zip values)) ∧
      (host.evalToValue "(" σ = .of (.ok (.error "Unexpected EOF")) σ ∧
        ∃ e, host.evalSource "(" σ = .of (.error e) σ ∧ e.message = "Unexpected EOF") ∧
      v.Plain ∧ read (v.print σ.cells true) = .ok v := by
  intro v w host σ
  have hsource : tokenize "(def! a (atom '\x7b:k 'b\x7d))" = [⟨.opening .round, "("⟩,
      ⟨.word, "def!"⟩, ⟨.word, "a"⟩, ⟨.opening .round, "("⟩, ⟨.word, "atom"⟩,
      ⟨.marker .quote, "'"⟩, ⟨.opening .curly, "\x7b"⟩, ⟨.word, ":k"⟩, ⟨.marker .quote, "'"⟩,
      ⟨.word, "b"⟩, ⟨.closing .curly, "\x7d"⟩, ⟨.closing .round, ")"⟩, ⟨.closing .round, ")"⟩] := by
    decide +kernel
  have hread : read "(def! a (atom '\x7b:k 'b\x7d))" = .ok (SpecialForm.form .define
      [.symbol "a", .list [.symbol "atom", Marker.quote.wrap v]]) := by
    rw [read, hsource]
    rfl
  have hopen : read "(" = .error .unexpectedEof := by
    have hopener : tokenize "(" = [⟨.opening .round, "("⟩] := by decide +kernel
    rw [read, hopener]
    rfl
  obtain ⟨steps, depth, hstart⟩ := Host.exists_start .empty [] .silent
  have hstart : Session (startStore [] .silent) [] := .start hstart
  have hdefine : host.evalSource "(def! a (atom '\x7b:k 'b\x7d))" (startStore [] .silent) =
      .of (.ok (.atom ⟨0⟩)) σ := by
    rw [Host.evalSource, readSource, hread]
    rfl
  have herror : host.evalToValue "(" σ = .of (.ok (.error "Unexpected EOF")) σ := by
    rw [Host.evalToValue, Host.evalSource, readSource, hopen]
    rfl
  have hsession : Session σ [.atom ⟨0⟩] := .readEval (.tryReadEval hstart hdefine) herror
  have hv : Reachable σ [.atom ⟨0⟩] v := .content Array.mem_push_self
  have heval : host.eval v .global σ = .of (.ok w) σ := rfl
  have hplain : v.Plain := by
    obtain heof | hform := read_literal hread
    · cases heof
    · have hatom := hform.items rfl (.list [.symbol "atom", Marker.quote.wrap v]) (by simp)
      have hquoted := hatom.items rfl (Marker.quote.wrap v) (by simp)
      exact (hquoted.items rfl v (by simp)).plain
  obtain ⟨hwell, hmap, hfails, hprint⟩ := session_values hsession
  exact ⟨hsession, ⟨hv, hwell v hv⟩, ⟨heval, hmap host _ _ w σ (.reached hv) heval⟩,
    ⟨herror, (hfails host _ _ σ).mp herror⟩, hplain, hprint v hv hplain⟩

end Lisp
