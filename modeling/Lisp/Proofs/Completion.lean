import Lisp.Proofs.Layout
import Lisp.Proofs.Misreading
import Lisp.Proofs.Stopping

/-! Texts that break off. A reading that comes to the end of the tokens inside of brackets or after
marks can be completed by what comes after them. Every other reading is final: it does not depend on
what comes after the tokens. -/

namespace Lisp

def nilToken : Token :=
  ⟨.word, "nil"⟩

/-- The end of a bracket that holds so many forms, where a key without a value is given nil. -/
def Bracket.ending (b : Bracket) (held : Nat) : List Token :=
  (if b = .curly ∧ held % 2 = 1 then [nilToken] else []) ++ [⟨.closing b, .singleton b.closer⟩]

/-- The ends of all brackets, after the innermost of what is pending was given a form. -/
def Pending.endings : List Pending → List Token
  | [] => []
  | .opened b forms :: outer => b.ending (forms.length + 1) ++ endings outer
  | .marked _ :: outer => endings outer

/-- What completes the reading: a form for the marks on top, if there are any, and the ends of
brackets. -/
def Pending.completion : List Pending → List Token
  | [] => []
  | .opened b forms :: outer => b.ending forms.length ++ endings outer
  | .marked _ :: outer => nilToken :: endings outer

theorem length_forms (pairs : List (Value × Value)) :
    (Value.forms pairs).length = 2 * pairs.length := by
  induction pairs with
  | nil => rfl
  | cons pair pairs ih =>
    have hcons : Value.forms (pair :: pairs) = pair.1 :: pair.2 :: Value.forms pairs := rfl
    rw [hcons, List.length_cons, List.length_cons, ih, List.length_cons]
    omega

theorem Bracket.collect_even {b : Bracket} {forms : List Value}
    (h : ¬ (b = .curly ∧ forms.length % 2 = 1)) : ∃ v, b.collect forms = .ok v := by
  obtain ⟨v, hv⟩ | ⟨rfl, pairs, key, rfl⟩ := b.holds_or_odd forms
  · exact ⟨v, hv.collect⟩
  · refine absurd ⟨rfl, ?_⟩ h
    rw [List.length_append, length_forms, List.length_singleton]
    omega

theorem readInside_closer (b : Bracket) {forms : List Value}
    (h : ¬ (b = .curly ∧ forms.length % 2 = 1)) (outer : List Pending) (more : List Token) :
    ∃ v, readInside (.opened b forms :: outer) (⟨.closing b, .singleton b.closer⟩ :: more) =
      (Pending.deliver v outer).resume more := by
  have hforms : ¬ (b = .curly ∧ forms.reverse.length % 2 = 1) := by rwa [List.length_reverse]
  obtain ⟨v, hv⟩ := Bracket.collect_even hforms
  exact ⟨v, by rw [readInside_closing rfl, hv, Pending.settle]⟩

theorem readInside_nilToken (pending : List Pending) (more : List Token) :
    readInside pending (nilToken :: more) = (Pending.deliver .nil pending).resume more :=
  readInside_of_advance rfl (show nilToken.advance pending = Pending.deliver .nil pending from rfl)
    (Pending.deliver_ne_refusal .nil pending) more

theorem readInside_ending (b : Bracket) (forms : List Value) (outer : List Pending)
    (more : List Token) :
    ∃ v, readInside (.opened b forms :: outer) (b.ending forms.length ++ more) =
      (Pending.deliver v outer).resume more := by
  by_cases h : b = .curly ∧ forms.length % 2 = 1
  · have hforms : ¬ (b = .curly ∧ (Value.nil :: forms).length % 2 = 1) := by
      rw [List.length_cons]
      omega
    rw [Bracket.ending, if_pos h]
    exact readInside_closer b hforms outer more
  · rw [Bracket.ending, if_neg h]
    exact readInside_closer b h outer more

theorem deliver_endings (form : Value) (pending : List Pending) :
    ∃ v, (Pending.deliver form pending).resume (Pending.endings pending) = (.ok v, []) := by
  induction pending generalizing form with
  | nil => exact ⟨form, rfl⟩
  | cons p outer ih =>
    cases p with
    | marked m => exact ih (m.wrap form)
    | opened b forms =>
      obtain ⟨v, hv⟩ := readInside_ending b (form :: forms) outer (Pending.endings outer)
      obtain ⟨w, hw⟩ := ih v
      exact ⟨w, hv.trans hw⟩

theorem readInside_completion (p : Pending) (outer : List Pending) :
    ∃ v, readInside (p :: outer) (Pending.completion (p :: outer)) = (.ok v, []) := by
  cases p with
  | marked m =>
    obtain ⟨v, hv⟩ := deliver_endings .nil (.marked m :: outer)
    exact ⟨v, (readInside_nilToken _ _).trans hv⟩
  | opened b forms =>
    obtain ⟨v, hv⟩ := readInside_ending b forms outer (Pending.endings outer)
    obtain ⟨w, hw⟩ := deliver_endings v outer
    exact ⟨w, hv.trans hw⟩

theorem whole_nilToken : nilToken.Whole where
  fits := Pattern.mem_word.mpr
    ⟨'n', ['i', 'l'], by decide, by decide, List.all_eq_true.mp (by decide)⟩
  closed := nofun

theorem whole_closer (b : Bracket) : Token.Whole ⟨.closing b, .singleton b.closer⟩ where
  fits := by cases b <;> exact Pattern.mem_literal.mpr (by decide)
  closed := nofun

theorem whole_ending (b : Bracket) (held : Nat) : ∀ t ∈ b.ending held, t.Whole := by
  intro t ht
  obtain ht | ht := List.mem_append.mp ht
  · split at ht
    · rw [List.mem_singleton.mp ht]
      exact whole_nilToken
    · cases ht
  · rw [List.mem_singleton.mp ht]
    exact whole_closer b

theorem whole_endings (pending : List Pending) : ∀ t ∈ Pending.endings pending, t.Whole := by
  induction pending with
  | nil => exact List.forall_mem_nil _
  | cons p outer ih =>
    cases p with
    | marked m => exact ih
    | opened b forms => exact List.forall_mem_append.mpr ⟨whole_ending b _, ih⟩

theorem whole_completion (pending : List Pending) :
    ∀ t ∈ Pending.completion pending, t.Whole := by
  match pending with
  | [] => exact List.forall_mem_nil _
  | .marked m :: outer => exact List.forall_mem_cons.mpr ⟨whole_nilToken, whole_endings outer⟩
  | .opened b forms :: outer =>
    exact List.forall_mem_append.mpr ⟨whole_ending b _, whole_endings outer⟩

/-- The quoted tokens that the reader goes through are closed. -/
theorem Runs.closed {source : String} {pending last : List Pending}
    (h : Runs pending (tokenize source) last) :
    ∀ t ∈ tokenize source, t.sort = .quoted → Closed t.text.toList := by
  intro t ht hsort
  have hpattern := mem_pattern_of_mem_tokensOf ht
  rw [hsort] at hpattern
  obtain ⟨body, rest, htext, -⟩ := Pattern.mem_quoted.mp hpattern
  by_contra unclosed
  obtain ⟨before, after, hsplit⟩ := List.append_of_mem ht
  rw [hsplit] at h
  exact not_runs_unclosed ⟨hsort, by rw [htext]; rfl, unclosed⟩ h

theorem read_final {source source' : String} (nonempty : tokenize source ≠ [])
    (begins : tokenize source <+: tokenize source') (h : read source ≠ .error .unexpectedEof) :
    read source' = read source := by
  obtain ⟨more, hmore⟩ := begins
  rw [read, ← hmore]
  exact readInside_append h (.inr nonempty) more

theorem read_completable {source : String} (h : read source = .error .unexpectedEof) :
    ∃ x v, tokenize source <+: tokenize (source ++ "\n" ++ x) ∧
      read (source ++ "\n" ++ x) = .ok v ∧ v ≠ .eof := by
  obtain ⟨p, outer, hruns⟩ := runs_of_unexpectedEof h
  let completion := Pending.completion (p :: outer)
  have htext : tokenize (Layout.lines completion).text = completion :=
    (Layout.lines completion).tokenize_text (whole_completion (p :: outer))
  have htokens : tokenize (source ++ "\n" ++ (Layout.lines completion).text) =
      tokenize source ++ completion := by
    have happend := tokensOf_append_line hruns.closed (Layout.lines completion).text.toList
    rw [← tokenize_eq, ← tokenize_eq, htext] at happend
    rw [← happend, tokenize_eq]
    simp
  obtain ⟨v, hv⟩ := readInside_completion p outer
  have hread : readForm (tokenize source ++ completion) = (.ok v, []) :=
    (hruns.readInside completion).trans hv
  refine ⟨(Layout.lines completion).text, v, htokens ▸ List.prefix_append _ _, ?_, ?_⟩
  · rw [read, htokens, hread]
  · obtain hnil | ⟨used, -, hform⟩ := derives_of_readForm hread
    · rw [read, (List.append_eq_nil_iff.mp hnil).1] at h
      cases h
    · exact hform.ne_eof

/-- Where a reading breaks off, a line can be added that completes it. Any other reading is final,
whatever tokens are added. -/
theorem read_final_or_completable (source : String) :
    (∀ source', tokenize source ≠ [] → tokenize source <+: tokenize source' →
      read source ≠ .error .unexpectedEof → read source' = read source) ∧
      (read source = .error .unexpectedEof →
        ∃ x v, read (source ++ "\n" ++ x) = .ok v ∧ v ≠ .eof) ∧
      (tokenize source ≠ [] → (read source = .error .unexpectedEof ↔
        ∃ source', tokenize source <+: tokenize source' ∧ read source' ≠ read source)) := by
  refine ⟨fun _ => read_final, fun h => ?_, fun nonempty => ⟨fun h => ?_, ?_⟩⟩
  · obtain ⟨x, v, -, hread, hv⟩ := read_completable h
    exact ⟨x, v, hread, hv⟩
  · obtain ⟨x, v, hbegins, hread, -⟩ := read_completable h
    exact ⟨_, hbegins, by simp [hread, h]⟩
  · rintro ⟨source', hbegins, hne⟩
    by_contra h
    exact hne (read_final nonempty hbegins h)

/-- A closer that stands in the wrong bracket is wrong for good. A key whose value breaks off after
a mark can be given one. -/
theorem read_final_or_completable_map :
    let wrong := "(1 ]"
    let more := "(1 ] 2)"
    let broken := "\x7b:a '"
    (tokenize wrong ≠ [] ∧ tokenize wrong <+: tokenize more ∧ read wrong ≠ .error .unexpectedEof ∧
      read more = read wrong) ∧
      (tokenize broken ≠ [] ∧ read broken = .error .unexpectedEof ∧
        (∃ x v, read (broken ++ "\n" ++ x) = .ok v ∧ v ≠ .eof) ∧
        ∃ source', tokenize broken <+: tokenize source' ∧ read source' ≠ read broken) := by
  intro wrong more broken
  have hwrong : tokenize wrong =
      [⟨.opening .round, "("⟩, ⟨.word, "1"⟩, ⟨.closing .square, "]"⟩] := by
    decide +kernel
  have hmore : tokenize more = [⟨.opening .round, "("⟩, ⟨.word, "1"⟩, ⟨.closing .square, "]"⟩,
      ⟨.word, "2"⟩, ⟨.closing .round, ")"⟩] := by
    decide +kernel
  have hbroken : tokenize broken =
      [⟨.opening .curly, "\x7b"⟩, ⟨.word, ":a"⟩, ⟨.marker .quote, "'"⟩] := by
    decide +kernel
  have hbegins : tokenize wrong <+: tokenize more := by
    rw [hwrong, hmore]
    exact ⟨_, rfl⟩
  have hrefused : read wrong = .error (.unexpectedDelimiter ']') := by
    rw [read, hwrong]
    rfl
  have hfinal : read wrong ≠ .error .unexpectedEof := by simp [hrefused]
  have heof : read broken = .error .unexpectedEof := by
    rw [read, hbroken]
    rfl
  obtain ⟨hsame, -, -⟩ := read_final_or_completable wrong
  obtain ⟨-, hcomplete, hcontinued⟩ := read_final_or_completable broken
  exact ⟨⟨by simp [hwrong], hbegins, hfinal, hsame more (by simp [hwrong]) hbegins hfinal⟩,
    by simp [hbroken], heof, hcomplete heof, (hcontinued (by simp [hbroken])).mp heof⟩

end Lisp
