import Lisp.Proofs.PendingStack
import Lisp.Proofs.Wrapping

/-! What a text that can not be read to its end stands for inside of `(do ` and `nil)`. Nothing stands for
it, but if the reading comes to a round closer where no bracket is open, or to marks that the text ends
after: the closer ends the `do` early, and the marks take the `nil`. -/

namespace Lisp

/-- Readings one after the other give forms, up to tokens that no form begins. -/
structure Misreads (ts : List Token) (forms : List Value) (rest : List Token) : Prop where
  reaches : ReadsUpTo rest ts forms
  fails : ∃ e, (readForm rest).1 = .error e

variable {ts rest : List Token} {forms : List Value}

theorem Token.Unclosed.advance {t : Token} (h : t.Unclosed) (pending : List Pending) :
    ∃ e, t.advance pending = .fault e := by
  have hscalar : t.IsScalar := .inr (.inl h.sort)
  cases hread : readScalar t.text with
  | ok v => exact absurd ((readScalar_eq_ok.mp hread).closed h.quote) h.unclosed
  | error e => exact ⟨e, by rw [hscalar.advance, hread]; rfl⟩

theorem Token.Unclosed.isComment {t : Token} (h : t.Unclosed) : t.isComment = false :=
  isComment_of_sort h.sort (by simp)

theorem Misreads.noComment (h : Misreads ts forms rest) : NoComment rest := by
  intro t ht
  obtain ⟨rest, rfl⟩ := List.head?_eq_some_iff.mp (Option.mem_def.mp ht)
  obtain ⟨e, he⟩ := h.fails
  refine Bool.eq_false_iff.mpr fun hcomment => ?_
  have hadvance : t.advance [] = .complete .nil := by
    simp [Token.advance, isComment_eq_true.mp hcomment, Pending.deliver]
  rw [readForm, readInside, hadvance] at he
  cases he

/-- A reading that fails in a text fails at the same place or at an unclosed token in its stead. -/
theorem sticks_of_unclosed {pending : List Pending} {before after after' : List Token} {t t' : Token}
    {e : ReadError} (unclosed : t'.Unclosed) (h : Sticks pending (before ++ t :: after) e) :
    ∃ e', Sticks pending (before ++ t' :: after') e' := by
  induction before generalizing pending with
  | nil =>
    obtain ⟨e', he'⟩ := unclosed.advance pending
    exact ⟨e', .fault he'⟩
  | cons u before ih =>
    cases h with
    | fault step => exact ⟨e, .fault step⟩
    | refusal step => exact ⟨e, .refusal step⟩
    | inside step more =>
      obtain ⟨e', he'⟩ := ih more
      exact ⟨e', .inside step he'⟩

theorem not_runs_unclosed {pending last : List Pending} {before after : List Token} {t : Token}
    (unclosed : t.Unclosed) : ¬ Runs pending (before ++ t :: after) last := by
  intro h
  induction before generalizing pending with
  | nil =>
    obtain ⟨e, he⟩ := unclosed.advance pending
    cases h with
    | cons step => exact nomatch step.symm.trans he
  | cons u before ih =>
    cases h with
    | cons _ more => exact ih more

/-- Where the text ends inside of a bracket, the tokens of the wrapping do not end its `do`. -/
theorem readInside_wrapEnd_fails {b : Bracket} (ms : List Marker) (held forms : List Value)
    (outer : List Pending) : ∃ e, (readInside ((ms.map .marked).reverse ++ .opened b held ::
      (outer ++ [.opened .round forms])) wrapEnd).1 = .error e := by
  have hnil : Token.advance ⟨.word, "nil"⟩ ((ms.map .marked).reverse ++ .opened b held ::
      (outer ++ [.opened .round forms])) =
      .inside (.opened b (ms.foldr Marker.wrap .nil :: held) :: (outer ++ [.opened .round forms])) :=
    Pending.deliver_marks .nil ms _
  rw [wrapEnd, readInside_of_advance rfl hnil (by simp), Advance.resume]
  by_cases hb : b = .round
  · subst hb
    obtain ⟨p, next, hnext⟩ := Pending.deliver_bottom
      (.list (ms.foldr Marker.wrap .nil :: held).reverse) outer .round forms
    rw [readInside_closing rfl, Bracket.collect, Pending.settle, hnext]
    exact ⟨.unexpectedEof, rfl⟩
  · refine ⟨.unexpectedDelimiter Bracket.round.closer, ?_⟩
    have hcloser : Token.advance ⟨.closing .round, ")"⟩ (.opened b (ms.foldr Marker.wrap .nil ::
        held) :: (outer ++ [.opened .round forms])) = .refusal (.unexpectedDelimiter ')') := by
      simp [Token.advance, Ne.symm hb, Bracket.closer]
    rw [readInside, hcloser]
    rfl

theorem readInside_wrapEnd_marks (ms : List Marker) (forms : List Value) :
    (readInside ((ms.map .marked).reverse ++ [.opened .round forms]) wrapEnd).1 =
      .ok (.list (forms.reverse ++ [ms.foldr Marker.wrap .nil])) := by
  have hnil : Token.advance ⟨.word, "nil"⟩ ((ms.map .marked).reverse ++ [.opened .round forms]) =
      .inside [.opened .round (ms.foldr Marker.wrap .nil :: forms)] :=
    Pending.deliver_marks .nil ms _
  rw [wrapEnd, readInside_of_advance rfl hnil (by simp), Advance.resume, readInside_closing rfl]
  simp [Bracket.collect, Pending.settle, Pending.deliver, Advance.resume]

variable {source : String}

/-- A token that is not closed is not among those that forms are made of. -/
theorem exists_before_unclosed {used after before : List Token} {t : Token}
    (h : DerivesAll used [] forms) (unclosed : t.Unclosed)
    (hsplit : used ++ rest = before ++ t :: after) :
    ∃ b, before = used ++ b ∧ rest = b ++ t :: after := by
  obtain ⟨b, rfl, hrest⟩ | ⟨b, rfl, hafter⟩ := List.append_eq_append_iff.mp hsplit
  · exact ⟨b, rfl, hrest⟩
  · cases b with
    | nil => exact ⟨[], by simp, hafter.symm⟩
    | cons u b =>
      obtain ⟨rfl, -⟩ := List.cons.inj hafter
      obtain ⟨v, hv⟩ := h.scalars t (by simp) (.inr (.inl unclosed.sort))
      exact absurd (hv.closed unclosed.quote) unclosed.unclosed

/-- The forms of a text are inside of the `do`, and what the reading stopped at comes next. -/
theorem Misreads.wrapped (h : Misreads (tokenize source) forms rest) :
    ∃ inner, read (wrapInDo source) =
        (readInside [.opened .round (forms.reverse ++ [.symbol "do"])] inner).1 ∧
      (inner = rest ++ wrapEnd ∨ ∃ before t after t' after',
        rest = before ++ t :: after ∧ inner = before ++ t' :: after' ∧ t.Unclosed ∧ t'.Unclosed) := by
  obtain ⟨used, htokens, hused⟩ := h.reaches.derivesAll
  obtain ⟨inner, hwrapped, hinner⟩ := tokenize_wrapInDo_cases source
  have hrest := h.noComment
  rw [read, hwrapped]
  rcases hinner with rfl | ⟨before, t, after, t', after', hsource, rfl, hopen, hopen'⟩
  · have hinner : NoComment (rest ++ wrapEnd) := by
      cases rest with
      | nil => simp [NoComment, wrapEnd, Token.isComment]
      | cons t rest => exact hrest
    rw [htokens, List.append_assoc, readForm_inDo (hused _ hinner)]
    exact ⟨_, rfl, .inl rfl⟩
  · rw [htokens] at hsource
    have hall := hused [] (by simp [NoComment])
    obtain ⟨b, rfl, rfl⟩ := exists_before_unclosed hall hopen hsource
    have hinner : NoComment (b ++ t' :: after') := by
      cases b with
      | nil => simpa [NoComment] using hopen'.isComment
      | cons u b => exact hrest
    rw [List.append_assoc, readForm_inDo (hused _ hinner)]
    exact ⟨_, rfl, .inr ⟨b, t, after, t', after', rfl, rfl, hopen, hopen'⟩⟩

/-- A round closer ends the `do`, and what comes after it is not looked at. -/
theorem Misreads.read_closer (h : Misreads (tokenize source) forms rest) {t : Token}
    (ht : t ∈ rest.head?) (closes : t.sort = .closing .round) :
    read (wrapInDo source) = .ok (.list (.symbol "do" :: forms)) := by
  obtain ⟨inner, hread, hinner⟩ := h.wrapped
  obtain ⟨rest, rfl⟩ := List.head?_eq_some_iff.mp (Option.mem_def.mp ht)
  obtain ⟨more, rfl⟩ : ∃ more, inner = t :: more := by
    obtain rfl | ⟨before, u, after, u', after', hrest, rfl, hopen, -⟩ := hinner
    · exact ⟨_, List.cons_append⟩
    · cases before with
      | nil =>
        obtain ⟨rfl, -⟩ := List.cons.inj hrest
        exact nomatch closes.symm.trans hopen.sort
      | cons _ before =>
        obtain ⟨rfl, -⟩ := List.cons.inj hrest
        exact ⟨_, List.cons_append⟩
  rw [hread, readInside_closing closes]
  simp [Bracket.collect, Pending.settle, Pending.deliver, Advance.resume]

/-- Marks that the text ends after take the `nil`. -/
theorem Misreads.read_marks (h : Misreads (tokenize source) forms rest) {ms : List Marker}
    (hms : rest.map Token.sort = ms.map .marker) :
    read (wrapInDo source) =
      .ok (.list (.symbol "do" :: (forms ++ [ms.foldr Marker.wrap .nil]))) := by
  obtain ⟨inner, hread, hinner⟩ := h.wrapped
  obtain rfl : inner = rest ++ wrapEnd := by
    obtain hinner | ⟨before, t, after, _, _, rfl, -, hopen, -⟩ := hinner
    · exact hinner
    · have hmem : t.sort ∈ (before ++ t :: after).map Token.sort := by simp
      rw [hms] at hmem
      simp [hopen.sort] at hmem
  rw [hread, (runs_of_marks hms).readInside, readInside_wrapEnd_marks]
  simp

/-- Any other text that is misread is misread inside of the `do` too. -/
theorem Misreads.read_fails (h : Misreads (tokenize source) forms rest)
    (noCloser : ∀ t ∈ rest.head?, t.sort ≠ .closing .round)
    (noMarks : ∀ ms : List Marker, rest.map Token.sort ≠ ms.map .marker) :
    ∃ e, read (wrapInDo source) = .error e := by
  obtain ⟨inner, hread, hinner⟩ := h.wrapped
  obtain ⟨e, he⟩ := h.fails
  have hawaits : Awaits [.opened .round (forms.reverse ++ [.symbol "do"])] rest := by
    rintro b held outer heq t ht
    obtain ⟨rfl, -⟩ : Bracket.round = b ∧ _ := by simpa using (List.cons.inj heq).1
    exact ⟨h.noComment t ht, noCloser t ht⟩
  rw [hread]
  obtain hsticks | ⟨p, last, hruns⟩ := sticks_or_runs he
  · have hsticks := hsticks.above fun _ => hawaits
    rcases hinner with rfl | ⟨before, t, after, t', after', rfl, rfl, -, hopen'⟩
    · exact ⟨e, hsticks.readInside wrapEnd⟩
    · obtain ⟨e', hsticks'⟩ := sticks_of_unclosed hopen' hsticks
      have hfails := hsticks'.readInside []
      rw [List.append_nil] at hfails
      exact ⟨e', hfails⟩
  · obtain rfl : inner = rest ++ wrapEnd := by
      obtain hinner | ⟨before, t, after, _, _, rfl, -, hopen, -⟩ := hinner
      · exact hinner
      · exact absurd hruns (not_runs_unclosed hopen)
    obtain ⟨ms, hms, -⟩ | ⟨ms, b, held, outer, hlast⟩ := hruns.marks
    · exact absurd hms (noMarks ms)
    · have hruns := hruns.above fun _ => hawaits
      rw [hlast, List.append_assoc, List.cons_append] at hruns
      have hinner : (readInside _ (rest ++ wrapEnd)).1 = _ := congrArg Prod.fst (hruns.readInside wrapEnd)
      obtain ⟨e', he'⟩ := readInside_wrapEnd_fails ms held (forms.reverse ++ [.symbol "do"]) outer
      exact ⟨e', hinner.trans he'⟩

end Lisp
