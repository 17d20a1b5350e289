import Lisp.Proofs.Ending
import Lisp.Proofs.Writes

/-! The transcript of the interactive loop: what each line of the input adds to the output, and the store
that the next line is evaluated in. -/

namespace Lisp

namespace Repl

def withoutReturn (line : List UInt8) : List UInt8 :=
  if line.getLast? = some 13 then line.dropLast else line

/-- The lines of an input, each ended by a line feed, which may have a carriage return before it. What comes
after the last line feed is a line too, unless nothing does. -/
inductive LinesOf : List UInt8 → List (List UInt8) → Prop
  | done : LinesOf [] []
  | last {line} (nonempty : line ≠ []) (noFeed : 10 ∉ line) : LinesOf line [line]
  | line {line rest lines} (noFeed : 10 ∉ line) (more : LinesOf rest lines) :
    LinesOf (line ++ 10 :: rest) (withoutReturn line :: lines)

theorem dropReturn_reverse (line : List UInt8) :
    (dropReturn line.reverse).reverse = withoutReturn line := by
  obtain rfl | ⟨bytes, b, rfl⟩ := List.eq_nil_or_concat' line
  · rfl
  · by_cases hb : b = 13
    · simp [withoutReturn, dropReturn, hb]
    · have hkeep : dropReturn (b :: bytes.reverse) = b :: bytes.reverse := by
        unfold dropReturn
        split
        · next h => exact absurd (List.cons.inj h).1 hb
        · rfl
      simp [withoutReturn, hkeep, hb]

theorem splitLines_of_not_mem {line : List UInt8} (noFeed : 10 ∉ line) (begun rest : List UInt8) :
    splitLines begun (line ++ rest) = splitLines (line.reverse ++ begun) rest := by
  induction line generalizing begun with
  | nil => rfl
  | cons b line ih =>
    rw [List.cons_append, splitLines, ih (List.not_mem_of_not_mem_cons noFeed)]
    · simp
    · exact fun hb => List.ne_of_not_mem_cons noFeed hb.symm

theorem LinesOf.eq_lines {input : List UInt8} {ls : List (List UInt8)} (h : LinesOf input ls) :
    ls = lines input := by
  induction h with
  | done => rfl
  | @last line nonempty noFeed =>
    have hsplit := splitLines_of_not_mem noFeed [] []
    rw [List.append_nil] at hsplit
    rw [lines, hsplit]
    simp [splitLines, nonempty]
  | @line line rest ls noFeed _ ih =>
    rw [lines, splitLines_of_not_mem noFeed, splitLines, List.append_nil, dropReturn_reverse, ih]
    rfl

theorem exists_linesOf (input : List UInt8) : ∃ ls, LinesOf input ls := by
  induction hn : input.length using Nat.strong_induction_on generalizing input with
  | _ n ih =>
    by_cases hfeed : 10 ∈ input
    · obtain ⟨line, rest, rfl, noFeed⟩ := List.eq_append_cons_of_mem hfeed
      have hshorter : rest.length < n := by
        simp only [List.length_append, List.length_cons] at hn
        omega
      obtain ⟨ls, hls⟩ := ih _ hshorter rest rfl
      exact ⟨_, .line noFeed hls⟩
    · by_cases hempty : input = []
      · exact ⟨[], hempty ▸ .done⟩
      · exact ⟨[input], .last hempty hfeed⟩

theorem linesOf_iff {input : List UInt8} {ls : List (List UInt8)} :
    LinesOf input ls ↔ ls = lines input := by
  refine ⟨LinesOf.eq_lines, ?_⟩
  rintro rfl
  obtain ⟨ls, hls⟩ := exists_linesOf input
  exact hls.eq_lines ▸ hls

end Repl

/-- Lines are answered in turn, which comes to this end, adds this text to the output and leaves this store.
An answer follows what was printed on the way to it. -/
inductive Transcript (files : Files) : List (List UInt8) → Store → ReplEnd → String → Store → Prop
  | endOfInput {σ} : Transcript files [] σ .endOfInput (Repl.prompt ++ "\n")
      ((σ.write Repl.prompt).writeLine "")
  | undecodable {line lines σ} (undecodable : Repl.decodeLine line = none) :
    Transcript files (line :: lines) σ .invalidText Repl.prompt (σ.write Repl.prompt)
  | blank {line lines text σ e out τ} (decoded : Repl.decodeLine line = some text)
      (blank : Repl.isBlankLine text = true)
      (more : Transcript files lines (σ.write Repl.prompt) e out τ) :
    Transcript files (line :: lines) σ e (Repl.prompt ++ out) τ
  | answer {line lines text printed answer σ ρ e out τ} (decoded : Repl.decodeLine line = some text)
      (notBlank : Repl.isBlankLine text = false)
      (answered : Ends files (·.rep text) (σ.write Repl.prompt) (.ok answer) ρ)
      (prints : ρ.output = (σ.write Repl.prompt).output.write printed)
      (more : Transcript files lines (ρ.writeLine answer) e out τ) :
    Transcript files (line :: lines) σ e (Repl.prompt ++ printed ++ answer ++ "\n" ++ out) τ

variable {files : Files} {σ τ : Store}

namespace Steady

theorem answerLine (line : String) : Steady files (·.answerLine line) := by
  unfold Host.answerLine
  split
  · exact const _
  · exact (rep line).bind fun _ => const _

theorem answerLines (lines : List (List UInt8)) : Steady files (·.answerLines lines) := by
  induction lines with
  | nil => exact const _
  | cons line lines ih =>
    unfold Host.answerLines
    refine (const _).bind fun _ => ?_
    cases Repl.decodeLine line with
    | some text => exact (answerLine text).bind fun _ => ih
    | none => exact const _

end Steady

/-- The value that is printed for a result. -/
def answerOf : Except EvalError Value → Value
  | .ok v => v
  | .error e => e.toValue

theorem Host.rep_eq (host : Host) (text : String) :
    host.rep text = (do
      let s ← (host.evalSource text).attempt
      .query fun σ => (answerOf s).print σ.cells true) := by
  unfold rep evalToValue
  rw [bind_assoc]
  refine bind_congr fun s => ?_
  cases s <;> rfl

/-- A failure is an answer too, so every line whose evaluation ends is answered. -/
theorem ends_rep {text : String} {r : Except EvalError String} :
    Ends files (·.rep text) σ r τ ↔
      ∃ s, Ends files (·.evalSource text) σ s τ ∧ r = .ok ((answerOf s).print τ.cells true) := by
  have hrep : Ends files (·.rep text) σ r τ ↔ Ends files (fun host => do
      let s ← (host.evalSource text).attempt
      .query fun σ => (answerOf s).print σ.cells true) σ r τ := by
    simp only [Ends, Host.rep_eq]
  rw [hrep, ends_then]
  simp only [ends_attempt, Action.query_eq_of]
  constructor
  · rintro (⟨e, -, s, -, ⟨⟩⟩ | ⟨s, ρ, ⟨_, hs, hok⟩, rfl, rfl⟩)
    obtain rfl := Except.ok.inj hok
    exact ⟨s, hs, rfl⟩
  · rintro ⟨s, hs, rfl⟩
    exact .inr ⟨s, τ, ⟨s, hs, rfl⟩, rfl, rfl⟩

theorem Ends.rep_writes {text : String} {r : Except EvalError String}
    (h : Ends files (·.rep text) σ r τ) : σ.Writes τ := by
  obtain ⟨s, hs, -⟩ := ends_rep.mp h
  obtain ⟨e, rfl, he⟩ | ⟨form, ρ, hform, hs⟩ :=
    (ends_bind (Steady.const _) fun form => Steady.eval form .global).mp hs
  · exact Makes.readSource text (ends_const.mp he)
  · exact (Makes.readSource text (ends_const.mp hform)).trans (ends_eval.mp hs).writes

theorem ends_answerLine {text : String} {r : Except EvalError Unit} :
    Ends files (·.answerLine text) σ r τ ↔ r = .ok () ∧
      if Repl.isBlankLine text then τ = σ
      else ∃ answer ρ, Ends files (·.rep text) σ (.ok answer) ρ ∧ τ = ρ.writeLine answer := by
  cases hblank : Repl.isBlankLine text with
  | true =>
    simp only [Host.answerLine, hblank, if_true]
    exact ends_const.trans Action.pure_eq_of
  | false =>
    simp only [Host.answerLine, hblank, Bool.false_eq_true, if_false]
    rw [ends_then]
    simp only [Action.modify_eq_of]
    constructor
    · rintro (⟨e, -, hfails⟩ | ⟨answer, ρ, hanswer, rfl, rfl⟩)
      · obtain ⟨_, -, ⟨⟩⟩ := ends_rep.mp hfails
      · exact ⟨rfl, answer, ρ, hanswer, rfl⟩
    · rintro ⟨rfl, answer, ρ, hanswer, rfl⟩
      exact .inr ⟨answer, ρ, hanswer, rfl, rfl⟩

theorem ends_answerLines {lines : List (List UInt8)} {r : Except EvalError ReplEnd} :
    Ends files (·.answerLines lines) σ r τ ↔
      ∃ e out, r = .ok e ∧ Transcript files lines σ e out τ := by
  induction lines generalizing σ with
  | nil =>
    have hend : Ends files (·.answerLines []) σ r τ ↔
        r = .ok .endOfInput ∧ τ = (σ.write Repl.prompt).writeLine "" :=
      ends_const.trans Outcome.value_eq_of
    rw [hend]
    constructor
    · rintro ⟨rfl, rfl⟩
      exact ⟨_, _, rfl, .endOfInput⟩
    · rintro ⟨_, _, rfl, ⟨⟩⟩
      exact ⟨rfl, rfl⟩
  | cons line lines ih =>
    cases hdecode : Repl.decodeLine line with
    | none =>
      have hend : Ends files (·.answerLines (line :: lines)) σ r τ ↔
          r = .ok .invalidText ∧ τ = σ.write Repl.prompt := by
        simp only [Host.answerLines, hdecode]
        exact ends_const.trans Outcome.value_eq_of
      rw [hend]
      constructor
      · rintro ⟨rfl, rfl⟩
        exact ⟨_, _, rfl, .undecodable hdecode⟩
      · rintro ⟨_, _, rfl, h⟩
        cases h with
        | undecodable => exact ⟨rfl, rfl⟩
        | blank decoded | answer decoded => exact nomatch hdecode.symm.trans decoded
    | some text =>
      have hline : Ends files (·.answerLines (line :: lines)) σ r τ ↔
          Ends files (fun host => host.answerLine text >>= fun _ => host.answerLines lines)
            (σ.write Repl.prompt) r τ := by
        simp only [Host.answerLines, hdecode]
        rfl
      rw [hline, ends_bind (Steady.answerLine text) fun _ => Steady.answerLines lines]
      cases hblank : Repl.isBlankLine text with
      | true =>
        simp only [ends_answerLine, ih, hblank, if_true]
        constructor
        · rintro (⟨e, -, ⟨⟩, -⟩ | ⟨_, _, ⟨-, rfl⟩, e, out, rfl, hmore⟩)
          exact ⟨e, _, rfl, .blank hdecode hblank hmore⟩
        · rintro ⟨e, _, rfl, h⟩
          cases h with
          | undecodable undecodable => exact nomatch hdecode.symm.trans undecodable
          | blank _ _ more => exact .inr ⟨(), _, ⟨trivial, rfl⟩, e, _, rfl, more⟩
          | answer decoded notBlank =>
            obtain rfl := Option.some.inj (hdecode.symm.trans decoded)
            exact nomatch hblank.symm.trans notBlank
      | false =>
        simp only [ends_answerLine, ih, hblank, Bool.false_eq_true, if_false]
        constructor
        · rintro (⟨e, -, ⟨⟩, -⟩ | ⟨_, _, ⟨-, answer, ρ, hanswer, rfl⟩, e, out, rfl, hmore⟩)
          obtain ⟨printed, hprinted⟩ := hanswer.rep_writes.output
          exact ⟨e, _, rfl, .answer hdecode hblank hanswer hprinted hmore⟩
        · rintro ⟨e, _, rfl, h⟩
          cases h with
          | undecodable undecodable => exact nomatch hdecode.symm.trans undecodable
          | blank decoded blank =>
            obtain rfl := Option.some.inj (hdecode.symm.trans decoded)
            exact nomatch hblank.symm.trans blank
          | answer decoded notBlank answered prints more =>
            obtain rfl := Option.some.inj (hdecode.symm.trans decoded)
            exact .inr ⟨(), _, ⟨trivial, _, _, answered, rfl⟩, e, _, rfl, more⟩

theorem Transcript.output {lines : List (List UInt8)} {e : ReplEnd} {out : String}
    (h : Transcript files lines σ e out τ) : τ.output = σ.output.write out := by
  induction h with
  | endOfInput => simp [Store.write, Store.writeLine, Sink.writeLine_eq_write, Sink.write_append]
  | undecodable => rfl
  | blank _ _ _ ih =>
    rw [ih, Sink.write_append]
    rfl
  | answer _ _ _ prints _ ih =>
    rw [ih, Store.writeLine, prints]
    simp only [Sink.writeLine_eq_write, Sink.write_append]
    rfl

theorem Transcript.end_iff {lines : List (List UInt8)} {e : ReplEnd} {out : String}
    (h : Transcript files lines σ e out τ) :
    e = .invalidText ↔ ∃ line ∈ lines, Repl.decodeLine line = none := by
  induction h with
  | endOfInput => simp
  | undecodable h => simp [h]
  | blank decoded _ _ ih | answer decoded _ _ _ _ ih => simp [ih, decoded]

/-- A line whose evaluation ends is answered once, in the store that the evaluation left, and whether it
failed makes no difference. -/
theorem rep_answers {text : String} {s : Except EvalError Value}
    (h : Ends files (·.evalSource text) σ s τ) (r : Except EvalError String) (ρ : Store) :
    Ends files (·.rep text) σ r ρ ↔ r = .ok ((answerOf s).print τ.cells true) ∧ ρ = τ := by
  rw [ends_rep]
  constructor
  · rintro ⟨s', h', rfl⟩
    obtain ⟨rfl, rfl⟩ := h.unique (Steady.evalSource text) h'
    exact ⟨rfl, rfl⟩
  · rintro ⟨rfl, rfl⟩
    exact ⟨s, h, rfl⟩

/-- The interactive loop over any input: it has one way to be cut into lines, and the loop ends as some
transcript of these lines does, which is appended to what was written before. It ends early at a line that
is no text and nowhere else, because every line whose evaluation ends has an answer. -/
theorem runRepl_transcript {input : List UInt8} {written : String}
    (buffered : σ.output = .buffer written) :
    ∃ lines, (∀ lines', Repl.LinesOf input lines' ↔ lines' = lines) ∧
      (∀ r τ, Ends files (·.runRepl input) σ r τ ↔
        ∃ e out, r = .ok e ∧ Transcript files lines σ e out τ ∧
          τ.output = .buffer (written ++ out) ∧
          (e = .invalidText ↔ ∃ line ∈ lines, Repl.decodeLine line = none)) ∧
      ∀ text σ s τ, Ends files (·.evalSource text) σ s τ → ∃ answer, ∀ r ρ,
        Ends files (·.rep text) σ r ρ ↔ r = .ok answer ∧ ρ = τ := by
  refine ⟨Repl.lines input, fun _ => Repl.linesOf_iff, fun r τ => ?_,
    fun _ _ _ _ h => ⟨_, rep_answers h⟩⟩
  refine ends_answerLines.trans ⟨?_, ?_⟩
  · rintro ⟨e, out, rfl, h⟩
    have houtput := h.output
    rw [buffered] at houtput
    exact ⟨e, out, rfl, h, houtput, h.end_iff⟩
  · rintro ⟨e, out, rfl, h, -⟩
    exact ⟨e, out, rfl, h⟩

/-- A value, a blank line, a failure and a line that is no text. -/
theorem runRepl_transcript_invalid :
    let input : List UInt8 := [55, 13, 10, 32, 10, 120, 10, 255]
    let σ : Store := ⟨#[⟨[], none⟩], #[], 0, .buffer "; "⟩
    σ.output = .buffer "; " ∧ ∃ τ, Ends .empty (·.runRepl input) σ (.ok .invalidText) τ ∧
      τ.output = .buffer "; user> 7\nuser> user> *** Symbol 'x' not found\nuser> " := by
  intro input σ
  obtain ⟨lines, hlines, hruns, -⟩ := @runRepl_transcript .empty σ input "; " rfl
  have hlast : Repl.LinesOf [255] [[255]] := .last (by decide) (by decide)
  have hthird : Repl.LinesOf ([120] ++ 10 :: [255]) [[120], [255]] := .line (by decide) hlast
  have hsecond : Repl.LinesOf ([32] ++ 10 :: _) [[32], [120], [255]] := .line (by decide) hthird
  have hfirst : Repl.LinesOf ([55, 13] ++ 10 :: _) [[55], [32], [120], [255]] :=
    .line (by decide) hsecond
  obtain rfl := (hlines _).mp hfirst
  have hseven : read "7" = .ok (.int 7) := by
    have htokens : tokenize "7" = [⟨.word, "7"⟩] := by decide +kernel
    rw [read, htokens]
    rfl
  have hx : read "x" = .ok (.symbol "x") := by
    have htokens : tokenize "x" = [⟨.word, "x"⟩] := by decide +kernel
    rw [read, htokens]
    rfl
  have hvalue (σ : Store) : Ends .empty (·.rep "7") σ (.ok "7") σ :=
    (rep_answers ((ends_evalSource hseven).mpr (.constant trivial)) _ _).mpr ⟨rfl, rfl⟩
  have hfailure {σ : Store} (h : σ.find? .global "x" = none) :
      Ends .empty (·.rep "x") σ (.ok "*** Symbol 'x' not found") σ :=
    (rep_answers ((ends_evalSource hx).mpr (.unbound h)) _ _).mpr ⟨rfl, rfl⟩
  have hdecode : Repl.decodeLine [55] = some "7" ∧ Repl.decodeLine [32] = some " " ∧
      Repl.decodeLine [120] = some "x" ∧ Repl.decodeLine [255] = none := by
    decide +kernel
  have hblank : Repl.isBlankLine "7" = false ∧ Repl.isBlankLine " " = true ∧
      Repl.isBlankLine "x" = false := by
    decide +kernel
  let ρ := ((σ.write Repl.prompt).writeLine "7").write Repl.prompt
  let τ := ((ρ.write Repl.prompt).writeLine "*** Symbol 'x' not found").write Repl.prompt
  have hrest : Transcript .empty [[120], [255]] ρ .invalidText _ τ :=
    .answer hdecode.2.2.1 hblank.2.2 (hfailure rfl) (Sink.write_empty _).symm
      (.undecodable hdecode.2.2.2)
  have hall : Transcript .empty [[55], [32], [120], [255]] σ .invalidText _ τ :=
    .answer hdecode.1 hblank.1 (hvalue _) (Sink.write_empty _).symm
      (.blank hdecode.2.1 hblank.2.1 hrest)
  have hlast : (.invalidText : ReplEnd) = .invalidText ↔
      ∃ line ∈ [[55], [32], [120], [255]], Repl.decodeLine line = none := by
    simp [hdecode]
  have houtput : τ.output =
      .buffer "; user> 7\nuser> user> *** Symbol 'x' not found\nuser> " := by decide +kernel
  exact ⟨rfl, τ, (hruns _ _).mpr ⟨_, _, rfl, hall, hall.output, hlast⟩, houtput⟩

end Lisp
