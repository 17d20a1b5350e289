import Lisp.Proofs.GrammarReading
import Lisp.Proofs.TokenTexts

/-! A text that is read to its end stands for the same forms in front of others and inside of brackets. -/

namespace Lisp

/-- Readings one after the other come to the end of the tokens. A reading that begins with a comment gives
no form. -/
inductive ReadsForms : List Token → List Value → Prop
  | done : ReadsForms [] []
  | comment {t ts v rest forms} (comment : t.isComment = true)
    (reading : readForm (t :: ts) = (.ok v, rest)) (more : ReadsForms rest forms) :
    ReadsForms (t :: ts) forms
  | form {t ts v rest forms} (noComment : t.isComment = false)
    (reading : readForm (t :: ts) = (.ok v, rest)) (more : ReadsForms rest forms) :
    ReadsForms (t :: ts) (v :: forms)

/-- Readings one after the other come to these tokens. -/
inductive ReadsUpTo (rest : List Token) : List Token → List Value → Prop
  | done : ReadsUpTo rest rest []
  | comment {t ts v left forms} (comment : t.isComment = true)
    (reading : readForm (t :: ts) = (.ok v, left)) (more : ReadsUpTo rest left forms) :
    ReadsUpTo rest (t :: ts) forms
  | form {t ts v left forms} (noComment : t.isComment = false)
    (reading : readForm (t :: ts) = (.ok v, left)) (more : ReadsUpTo rest left forms) :
    ReadsUpTo rest (t :: ts) (v :: forms)

theorem ReadsForms.upTo {ts : List Token} {forms : List Value} (h : ReadsForms ts forms) :
    ReadsUpTo [] ts forms := by
  induction h with
  | done => exact .done
  | comment comment reading _ ih => exact .comment comment reading ih
  | form noComment reading _ ih => exact .form noComment reading ih

theorem NoComment.append_mono {rest rest' : List Token} (h : NoComment rest → NoComment rest')
    (ts : List Token) : NoComment (ts ++ rest) → NoComment (ts ++ rest') := by
  cases ts with
  | nil => exact h
  | cons t ts => exact id

mutual

/-- A form depends on what follows it only where it is a run of comments, which ends there. -/
theorem Derives.before {used rest rest' : List Token} {v : Value} (h : Derives used rest v)
    (hrest : NoComment rest → NoComment rest') : Derives used rest' v := by
  match h with
  | .scalar sort means => exact .scalar sort means
  | .bracket opens closes elements holds =>
    exact .bracket opens closes (elements.before fun h => h) holds
  | .marker sort body => exact .marker sort (body.before hrest)
  | .comments nonempty comments maximal => exact .comments nonempty comments (hrest maximal)
termination_by structural h

theorem DerivesAll.before {used rest rest' : List Token} {forms : List Value}
    (h : DerivesAll used rest forms) (hrest : NoComment rest → NoComment rest') :
    DerivesAll used rest' forms := by
  match h with
  | .nil => exact .nil
  | .comment comment tail => exact .comment comment (tail.before hrest)
  | @DerivesAll.form _ more _ _ _ noComment head tail =>
    exact .form noComment (head.before (.append_mono hrest more)) (tail.before hrest)
termination_by structural h

end

theorem DerivesAll.comments {run used rest : List Token} {forms : List Value}
    (comments : ∀ t ∈ run, t.isComment = true) (h : DerivesAll used rest forms) :
    DerivesAll (run ++ used) rest forms := by
  induction run with
  | nil => exact h
  | cons t run ih =>
    obtain ⟨ht, hrun⟩ := List.forall_mem_cons.mp comments
    exact .comment ht (ih hrun)

theorem Derives.comments_of_head {used rest : List Token} {v : Value} (h : Derives used rest v)
    {t : Token} (ht : t ∈ used.head?) (comment : t.isComment = true) :
    ∀ u ∈ used, u.isComment = true := by
  cases h with
  | scalar sort =>
    obtain rfl := Option.mem_some.mp ht
    exact absurd comment (by simp [sort.isComment])
  | bracket opens =>
    obtain rfl := Option.mem_some.mp ht
    exact absurd comment (by simp [isComment_of_sort opens])
  | marker sort =>
    obtain rfl := Option.mem_some.mp ht
    exact absurd comment (by simp [isComment_of_sort sort])
  | comments _ comments => exact comments

theorem Derives.head_of_append {used rest : List Token} {v : Value} (h : Derives used rest v)
    {t : Token} {ts : List Token} (happ : t :: ts = used ++ rest) : used.head? = some t := by
  obtain ⟨u, us, rfl⟩ := List.exists_cons_of_ne_nil h.nonempty
  rw [List.head?_cons, (List.cons.inj happ).1]

theorem ReadsUpTo.derivesAll {ts rest : List Token} {forms : List Value}
    (h : ReadsUpTo rest ts forms) :
    ∃ used, ts = used ++ rest ∧ ∀ rest', NoComment rest' → DerivesAll used rest' forms := by
  induction h with
  | done => exact ⟨[], rfl, fun _ _ => .nil⟩
  | @comment t ts v left forms comment reading _ ih =>
    obtain ⟨used, happ, hform⟩ := (derives_of_readForm reading).resolve_left (List.cons_ne_nil t ts)
    obtain ⟨more, rfl, hmore⟩ := ih
    refine ⟨used ++ more, by rw [happ, List.append_assoc], fun rest' hrest' => ?_⟩
    exact .comments (hform.comments_of_head (hform.head_of_append happ) comment) (hmore rest' hrest')
  | @form t ts v left forms noComment reading _ ih =>
    obtain ⟨used, happ, hform⟩ := (derives_of_readForm reading).resolve_left (List.cons_ne_nil t ts)
    obtain ⟨more, rfl, hmore⟩ := ih
    refine ⟨used ++ more, by rw [happ, List.append_assoc], fun rest' hrest' => ?_⟩
    have hhead : NoComment used := by
      rw [NoComment, hform.head_of_append happ]
      simpa using noComment
    have hform := hform.before (.append_mono (fun _ => hrest') more)
    exact .form hhead hform (hmore rest' hrest')

theorem ReadsForms.derivesAll {ts : List Token} {forms : List Value} (h : ReadsForms ts forms)
    {more : List Token} (hmore : NoComment more) : DerivesAll ts more forms := by
  obtain ⟨used, rfl, hused⟩ := h.upTo.derivesAll
  simpa using hused more hmore

mutual

theorem Derives.scalars {used rest : List Token} {v : Value} (h : Derives used rest v) :
    ∀ t ∈ used, t.IsScalar → ∃ w, Classifies t.text w := by
  match h with
  | @Derives.scalar t rest v sort means =>
    exact List.forall_mem_singleton.mpr fun _ => ⟨v, means⟩
  | @Derives.bracket opener closer b used rest forms v opens closes elements holds =>
    intro t ht hscalar
    obtain rfl | ht := List.mem_cons.mp ht
    · simp [Token.IsScalar, opens] at hscalar
    obtain ht | ht := List.mem_append.mp ht
    · exact elements.scalars t ht hscalar
    · obtain rfl := List.mem_singleton.mp ht
      simp [Token.IsScalar, closes] at hscalar
  | .marker sort body =>
    refine List.forall_mem_cons.mpr ⟨fun hscalar => ?_, body.scalars⟩
    simp [Token.IsScalar, sort] at hscalar
  | .comments nonempty comments maximal =>
    intro t ht hscalar
    exact absurd (comments t ht) (by simp [hscalar.isComment])
termination_by structural h

theorem DerivesAll.scalars {used rest : List Token} {forms : List Value}
    (h : DerivesAll used rest forms) : ∀ t ∈ used, t.IsScalar → ∃ w, Classifies t.text w := by
  match h with
  | .nil => exact List.forall_mem_nil _
  | .comment comment tail =>
    refine List.forall_mem_cons.mpr ⟨fun hscalar => ?_, tail.scalars⟩
    exact absurd comment (by simp [hscalar.isComment])
  | .form noComment head tail =>
    intro t ht
    exact (List.mem_append.mp ht).elim (head.scalars t) (tail.scalars t)
termination_by structural h

end

/-- `(do `, the text, and `nil)` on a line of its own. -/
def wrapInDo (source : String) : String :=
  "(do " ++ source ++ "\nnil)"

theorem ReadsForms.closed {source : String} {forms : List Value}
    (h : ReadsForms (tokenize source) forms) :
    ∀ t ∈ tokenize source, t.sort = .quoted → Closed t.text.toList := by
  intro t ht hsort
  have hall : DerivesAll (tokenize source) [] forms := h.derivesAll (by simp [NoComment])
  obtain ⟨v, hv⟩ := hall.scalars t ht (.inr (.inl hsort))
  have hpattern := mem_pattern_of_mem_tokensOf ht
  rw [hsort] at hpattern
  obtain ⟨body, last, htext, -⟩ := Pattern.mem_quoted.mp hpattern
  exact hv.closed (by rw [htext]; rfl)

/-- What the wrapping puts after a text. -/
def wrapEnd : List Token :=
  [⟨.word, "nil"⟩, ⟨.closing .round, ")"⟩]

theorem tokensOf_wrapEnd : tokensOf "nil)".toList = wrapEnd := by
  have hcloser := tokensOf_closer .round []
  have hil : ∀ d ∈ ['i', 'l'], isWordChar d = true :=
    List.forall_mem_cons.mpr ⟨by decide, List.forall_mem_singleton.mpr (by decide)⟩
  have hnil : tokensOf ('n' :: ['i', 'l'] ++ [Bracket.round.closer]) =
      ⟨.word, "nil"⟩ :: tokensOf [Bracket.round.closer] :=
    tokensOf_word (by decide) hil (stops_cons (endsWord_closer .round) [])
  rw [hcloser, tokensOf_nil] at hnil
  exact hnil

/-- The wrapping adds its own tokens around those of the text. If a quoted token is not closed, this holds
up to the first such token. -/
theorem tokenize_wrapInDo_cases (source : String) :
    ∃ inner, tokenize (wrapInDo source) = ⟨.opening .round, "("⟩ :: ⟨.word, "do"⟩ :: inner ∧
      (inner = tokenize source ++ wrapEnd ∨ ∃ before t after t' after',
        tokenize source = before ++ t :: after ∧ inner = before ++ t' :: after' ∧
          t.Unclosed ∧ t'.Unclosed) := by
  have hlist : (wrapInDo source).toList =
      Bracket.round.opener :: ('d' :: ['o'] ++ ' ' :: (source.toList ++ '\n' :: "nil)".toList)) := by
    simp [wrapInDo, Bracket.opener]
  have hdo (rest : List Char) :
      tokensOf ('d' :: ['o'] ++ ' ' :: rest) = ⟨.word, "do"⟩ :: tokensOf (' ' :: rest) :=
    tokensOf_word (by decide) (List.forall_mem_singleton.mpr (by decide))
      (stops_cons endsWord_space rest)
  refine ⟨tokensOf (source.toList ++ '\n' :: "nil)".toList), ?_, ?_⟩
  · rw [tokenize_eq, hlist, tokensOf_opener, hdo, tokensOf_space]
    rfl
  · rw [← tokensOf_wrapEnd]
    exact (maximalMunch_tokensOf source.toList).append_line (by decide)

theorem tokenize_wrapInDo {source : String}
    (closed : ∀ t ∈ tokenize source, t.sort = .quoted → Closed t.text.toList) :
    tokenize (wrapInDo source) =
      ⟨.opening .round, "("⟩ :: ⟨.word, "do"⟩ :: (tokenize source ++ wrapEnd) := by
  obtain ⟨inner, hwrapped, rfl | ⟨before, t, after, _, _, hsource, -, unclosed, -⟩⟩ :=
    tokenize_wrapInDo_cases source
  · exact hwrapped
  · exact absurd (closed t (by simp [hsource]) unclosed.sort) unclosed.unclosed

theorem readForm_inDo {used rest : List Token} {forms : List Value}
    (h : DerivesAll used rest forms) :
    readForm (⟨.opening .round, "("⟩ :: ⟨.word, "do"⟩ :: (used ++ rest)) =
      readInside [.opened .round (forms.reverse ++ [.symbol "do"])] rest := by
  have hopens : (⟨.opening .round, "("⟩ : Token).sort = .opening .round := rfl
  have hdo : Token.advance ⟨.word, "do"⟩ [.opened .round []] =
      .inside [.opened .round [.symbol "do"]] := rfl
  rw [readForm, readInside_opening hopens, readInside_of_advance rfl hdo (by simp)]
  exact h.readInside .round [.symbol "do"] []

theorem readInside_wrapEnd (forms : List Value) (outer : List Pending) :
    readInside (.opened .round forms :: outer) wrapEnd =
      (Pending.deliver (.list (forms.reverse ++ [.nil])) outer).resume [] := by
  have hnil : Token.advance ⟨.word, "nil"⟩ (.opened .round forms :: outer) =
      .inside (.opened .round (.nil :: forms) :: outer) := rfl
  rw [wrapEnd, readInside_of_advance rfl hnil (by simp), Advance.resume, readInside_closing rfl]
  simp [Bracket.collect, Pending.settle]

theorem read_wrapInDo {source : String} {forms : List Value}
    (h : ReadsForms (tokenize source) forms) :
    read (wrapInDo source) = .ok (.list (.symbol "do" :: (forms ++ [.nil]))) := by
  have hforms : DerivesAll (tokenize source) wrapEnd forms :=
    h.derivesAll (by simp [NoComment, wrapEnd, Token.isComment])
  rw [read, tokenize_wrapInDo h.closed, readForm_inDo hforms, readInside_wrapEnd]
  simp [Pending.deliver, Advance.resume]

end Lisp
