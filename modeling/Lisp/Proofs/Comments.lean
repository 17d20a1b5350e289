import Lisp.Proofs.PendingStack
import Lisp.Proofs.TokenTexts
import Mathlib.Data.List.Chain

/-! Comments inside of brackets. A text without its comments has the same tokens but for them, and
where it begins with a bracket it is read as before, as long as no comment stands between a mark and
its form: there the comment is a form itself. -/

namespace Lisp

open Pattern

/-- The text with all of its comments cut out, each up to where its line ends. -/
def withoutComments : List Char → List Char
  | [] => []
  | c :: cs =>
    if isSeparator c then c :: withoutComments cs
    else
      have := Token.first_length c cs
      (if (Token.first c cs).1.isComment then [] else (Token.first c cs).1.text.toList) ++
        withoutComments (Token.first c cs).2
termination_by cs => cs.length

def uncommented (source : String) : String :=
  .ofList (withoutComments source.toList)

theorem withoutComments_gap {gap : List Char} (blank : ∀ c ∈ gap, isSeparator c = true)
    (rest : List Char) : withoutComments (gap ++ rest) = gap ++ withoutComments rest := by
  induction gap with
  | nil => rfl
  | cons c gap ih =>
    obtain ⟨hc, hgap⟩ := List.forall_mem_cons.mp blank
    rw [List.cons_append, withoutComments, if_pos hc, ih hgap, List.cons_append]

theorem LongestMatch.withoutComments {sort : TokenSort} {text rest : List Char}
    (h : LongestMatch (some sort) text rest) :
    withoutComments (text ++ rest) =
      (if sort = .comment then [] else text) ++ withoutComments rest := by
  obtain ⟨c, cs, rfl⟩ := List.exists_cons_of_ne_nil h.nonempty
  have hs := isSeparator_of_mem_pattern h.matched
  obtain ⟨text, hsplit, htext, hfirst⟩ := Token.first_longest hs (cs ++ rest)
  obtain ⟨hsort, rfl, hrest⟩ := h.unique hfirst hsplit
  rw [List.cons_append, Lisp.withoutComments, if_neg (by simp [hs]), ← hrest, htext,
    String.toList_ofList, Token.isComment, ← Option.some.inj hsort]
  by_cases hcomment : sort = .comment <;> simp [hcomment]

theorem withoutComments_nil : withoutComments [] = [] := by
  rw [withoutComments]

/-- Where a text begins with a comment, the end of the line is left, and any other text begins as it
did. -/
theorem head?_withoutComments (cs : List Char) :
    ∀ c ∈ (withoutComments cs).head?, c = '\n' ∨ c ∈ cs.head? := by
  cases cs with
  | nil => simp [withoutComments_nil]
  | cons c cs =>
    by_cases hs : isSeparator c = true
    · rw [withoutComments, if_pos hs]
      exact fun d hd => .inr hd
    obtain ⟨text, hsplit, -, hlongest⟩ := Token.first_longest (Bool.eq_false_iff.mpr hs) cs
    rw [hsplit, hlongest.withoutComments]
    split
    · next hsort =>
      rw [hsort] at hlongest
      have hline : ∀ d ∈ (Token.first c cs).2.head?, d = '\n' := hlongest.endsBefore
      cases hrest : (Token.first c cs).2 with
      | nil => simp [withoutComments_nil]
      | cons d rest =>
        obtain rfl := hline d (by simp [hrest])
        rw [withoutComments, if_pos (by decide)]
        exact fun e he => .inl (Option.mem_some.mp he).symm
    · intro d hd
      rw [List.head?_append_of_ne_nil _ hlongest.nonempty] at hd
      exact .inr (by rwa [List.head?_append_of_ne_nil _ hlongest.nonempty])

theorem QuoteStops.withoutComments {cs : List Char} (h : QuoteStops cs) :
    QuoteStops (withoutComments cs) := by
  have hbackslash (rest : List Char) (stops : Stops rest) :
      Lisp.withoutComments ('\\' :: rest) = '\\' :: Lisp.withoutComments rest :=
    (LongestMatch.word (by decide) (List.forall_mem_nil _) stops).withoutComments
  obtain rfl | rfl | ⟨ds, rfl⟩ := h
  · exact .inl withoutComments_nil
  · rw [hbackslash [] stops_nil, withoutComments_nil]
    exact .inr (.inl rfl)
  · rw [hbackslash _ (stops_cons (.inl (by decide)) ds), Lisp.withoutComments,
      if_pos (by decide)]
    exact .inr (.inr ⟨_, rfl⟩)

/-- No two tokens grow together where a comment between them is cut out. -/
theorem tokensOf_withoutComments (cs : List Char) :
    tokensOf (withoutComments cs) = (tokensOf cs).filter (!·.isComment) := by
  have hmunch := maximalMunch_tokensOf cs
  generalize tokensOf cs = ts at hmunch
  induction hmunch with
  | @done gap blank =>
    have hgap := withoutComments_gap blank []
    rw [List.append_nil, withoutComments_nil, List.append_nil] at hgap
    rw [hgap, List.filter_nil]
    simpa using tokensOf_gap blank []
  | @token gap sort text rest ts blank _ longest _ _ ih =>
    rw [List.append_assoc, withoutComments_gap blank, tokensOf_gap blank,
      longest.withoutComments]
    by_cases hcomment : sort = .comment
    · simp [hcomment, Token.isComment, ih]
    · have hends := longest.endsBefore.of_head (head?_withoutComments rest)
        fun _ hstops => .inr hstops.withoutComments
      have hlongest := LongestMatch.of_endsBefore longest.matched hends
      simp [hcomment, Token.isComment, hlongest.tokensOf, ih]

theorem tokenize_uncommented (source : String) :
    tokenize (uncommented source) = (tokenize source).filter (!·.isComment) := by
  rw [tokenize_eq, uncommented, String.toList_ofList, tokensOf_withoutComments]
  rfl

/-! Reading what is left. -/

def Token.isMark (t : Token) : Bool :=
  match t.sort with
  | .marker _ => true
  | _ => false

/-- The tokens without comments, where the first comment after a mark has become the word `nil`. -/
def commentsAsNil (afterMark : Bool) : List Token → List Token
  | [] => []
  | t :: ts =>
    if t.isComment then
      if afterMark then ⟨.word, "nil"⟩ :: commentsAsNil false ts else commentsAsNil false ts
    else t :: commentsAsNil t.isMark ts

/-- A comment stands directly after a mark, and both are in front of the tokens that are left. -/
def MarksComment (ts left : List Token) : Prop :=
  ∃ before t u after, ts = before ++ t :: u :: (after ++ left) ∧ t.isMark = true ∧
    u.isComment = true

def HasBracket (pending : List Pending) : Prop :=
  ∃ b forms, .opened b forms ∈ pending

def marked : List Pending → Bool
  | .marked _ :: _ => true
  | _ => false

variable {pending next : List Pending} {t : Token} {ts : List Token}

theorem HasBracket.deliver (h : HasBracket pending) (form : Value) :
    ∃ b forms outer, Pending.deliver form pending = .inside (.opened b forms :: outer) := by
  obtain ⟨b, forms, hmem⟩ := h
  induction pending generalizing form with
  | nil => cases hmem
  | cons p pending ih =>
    cases p with
    | opened c held => exact ⟨c, form :: held, pending, rfl⟩
    | marked m => exact ih (m.wrap form) (by simpa using hmem)

/-- A token that the reader goes on from leaves a bracket open, and a mark on top only if it is one.
-/
theorem HasBracket.inside (h : HasBracket pending) (step : t.advance pending = .inside next) :
    HasBracket next ∧ (marked next = true → t.isMark = true) := by
  obtain ⟨m, hsort, rfl⟩ | ⟨b, forms, outer, rfl⟩ := Token.advance_inside step
  · obtain ⟨b, forms, hmem⟩ := h
    exact ⟨⟨b, forms, List.mem_cons_of_mem _ hmem⟩, fun _ => by simp [Token.isMark, hsort]⟩
  · exact ⟨⟨b, forms, by simp⟩, nofun⟩

theorem marked_of_isMark (h : t.isMark = true) (step : t.advance pending = .inside next) :
    marked next = true := by
  unfold Token.isMark at h
  split at h
  · next m hsort =>
    simp only [Token.advance, hsort, Advance.inside.injEq] at step
    rw [← step]
    rfl
  · cases h

/-- Where a form has to stand after a mark, a comment is nil. -/
theorem advance_marked (h : marked pending = true) (hcomment : t.isComment = true) :
    t.advance pending = Pending.deliver .nil pending := by
  match pending, h with
  | .marked m :: outer, _ => simp [Token.advance, isComment_eq_true.mp hcomment]

/-- Inside of a bracket, comments are nothing, but after a mark the first is nil. -/
theorem readInside_commentsAsNil (h : HasBracket pending) (ts : List Token) :
    (readInside pending (commentsAsNil (marked pending) ts)).1 = (readInside pending ts).1 := by
  induction ts generalizing pending with
  | nil => rfl
  | cons t ts ih =>
    by_cases hcomment : t.isComment = true
    · match pending, h with
      | .opened b forms :: outer, h =>
        rw [readInside_comment hcomment]
        simpa [commentsAsNil, hcomment, marked] using ih h
      | .marked m :: outer, h =>
        obtain ⟨b, forms, inner, hdeliver⟩ := h.deliver .nil
        have hnil : Token.advance ⟨.word, "nil"⟩ (.marked m :: outer) =
            .inside (.opened b forms :: inner) := hdeliver
        have hadvance : t.advance (.marked m :: outer) = .inside (.opened b forms :: inner) :=
          (advance_marked rfl hcomment).trans hdeliver
        have hinner : HasBracket (.opened b forms :: inner) := ⟨b, forms, by simp⟩
        rw [commentsAsNil, if_pos hcomment, marked, if_pos rfl, readInside, hnil, readInside,
          hadvance]
        exact ih hinner
      | [], ⟨_, _, hmem⟩ => cases hmem
    · rw [commentsAsNil, if_neg hcomment, readInside, readInside]
      cases step : t.advance pending with
      | inside next =>
        obtain ⟨hnext, hmark⟩ := h.inside step
        have hmarked : t.isMark = marked next :=
          Bool.eq_iff_iff.mpr ⟨fun ht => marked_of_isMark ht step, hmark⟩
        rw [hmarked]
        exact ih hnext
      | complete form | fault e | refusal e => rfl

theorem not_marksComment {taken left : List Token}
    (h : taken.IsChain fun t u => ¬ (t.isMark = true ∧ u.isComment = true)) :
    ¬ MarksComment (taken ++ left) left := by
  rintro ⟨before, t, u, after, hsplit, ht, hu⟩
  have htaken : taken = before ++ t :: u :: after :=
    List.append_cancel_right (hsplit.trans (by simp))
  exact List.isChain_iff_forall_rel_of_append_cons_cons.mp h htaken ⟨ht, hu⟩

theorem MarksComment.cons {left : List Token} (h : MarksComment ts left) (t : Token) :
    MarksComment (t :: ts) left := by
  obtain ⟨before, u, v, after, rfl, hu, hv⟩ := h
  exact ⟨t :: before, u, v, after, rfl, hu, hv⟩

/-- A comment that comes after a mark is taken as its form. -/
theorem marksComment_of_taken {u : Token} (h : HasBracket next) (hmark : t.isMark = true)
    (hnext : marked next = true) (hcomment : u.isComment = true) :
    MarksComment (t :: u :: ts) (readInside next (u :: ts)).2 := by
  obtain ⟨b, forms, inner, hdeliver⟩ := h.deliver .nil
  have hadvance : u.advance next = .inside (.opened b forms :: inner) :=
    (advance_marked hnext hcomment).trans hdeliver
  rw [readInside, hadvance]
  obtain ⟨after, hafter⟩ := readInside_suffix (.opened b forms :: inner) ts
  exact ⟨[], t, u, after, by simp [hafter], hmark, hcomment⟩

/-- Inside of a bracket, comments are nothing, if the reading takes none as the form of a mark. -/
theorem readInside_filter (h : HasBracket pending) (top : marked pending = true → NoComment ts)
    (unmarked : ¬ MarksComment ts (readInside pending ts).2) :
    (readInside pending (ts.filter (!·.isComment))).1 = (readInside pending ts).1 := by
  induction ts generalizing pending with
  | nil => rfl
  | cons t ts ih =>
    by_cases hcomment : t.isComment = true
    · match pending, h with
      | .opened b forms :: outer, h =>
        rw [readInside_comment hcomment] at unmarked ⊢
        simpa [hcomment] using ih h nofun fun hmarks => unmarked (hmarks.cons t)
      | .marked m :: outer, _ => exact absurd hcomment (by simp [top rfl t (by simp)])
      | [], ⟨_, _, hmem⟩ => cases hmem
    · rw [List.filter_cons_of_pos (by simpa using hcomment), readInside, readInside]
      rw [readInside] at unmarked
      cases step : t.advance pending with
      | inside next =>
        rw [step] at unmarked
        obtain ⟨hnext, hmark⟩ := h.inside step
        refine ih hnext (fun hmarked u hu => Bool.eq_false_iff.mpr fun hcomment => unmarked ?_)
          fun hmarks => unmarked (hmarks.cons t)
        obtain ⟨us, rfl⟩ := List.head?_eq_some_iff.mp hu
        exact marksComment_of_taken hnext (hmark hmarked) hmarked hcomment
      | complete form | fault e | refusal e => rfl

theorem readInside_bracket {b : Bracket} (opens : t.sort = .opening b) :
    readForm (t :: ts) = readInside [.opened b []] ts :=
  readInside_opening opens [] ts

/-- A text that begins with a bracket is read as it is without its comments, if the reading meets
none between a mark and its form. Such a comment is read as nil. -/
theorem read_uncommented {source : String} {t : Token} {b : Bracket}
    (first : t ∈ (tokenize source).head?) (opens : t.sort = .opening b) :
    (¬ MarksComment (tokenize source) (readForm (tokenize source)).2 →
      read (uncommented source) = read source) ∧
      tokenize (uncommented source) = (tokenize source).filter (!·.isComment) ∧
      read source = (readForm (commentsAsNil false (tokenize source))).1 := by
  obtain ⟨ts, htokens⟩ := List.head?_eq_some_iff.mp first
  have hbracket : HasBracket [.opened b []] := ⟨b, [], by simp⟩
  have hcomment : t.isComment = false := isComment_of_sort opens (by simp)
  have hmark : t.isMark = false := by simp [Token.isMark, opens]
  refine ⟨fun unmarked => ?_, tokenize_uncommented source, ?_⟩
  · rw [htokens, readInside_bracket opens] at unmarked
    rw [read, tokenize_uncommented, read, htokens, List.filter_cons_of_pos (by simp [hcomment]),
      readInside_bracket opens, readInside_bracket opens]
    exact readInside_filter hbracket (by simp [marked]) fun hmarks => unmarked (hmarks.cons t)
  · rw [read, htokens, commentsAsNil, if_neg (by simp [hcomment]), hmark,
      readInside_bracket opens, readInside_bracket opens]
    exact (readInside_commentsAsNil hbracket ts).symm

/-- Comments between a key and its value, before the mark of the value and at the end. The comment
after a mark comes after the form. -/
theorem read_uncommented_map :
    let source := "\x7b:a ; b\n'c ; d\n\x7d '; e"
    let t : Token := ⟨.opening .curly, "\x7b"⟩
    (t ∈ (tokenize source).head? ∧ t.sort = .opening .curly) ∧
      ¬ MarksComment (tokenize source) (readForm (tokenize source)).2 ∧
      uncommented source = "\x7b:a \n'c \n\x7d '" ∧ read (uncommented source) = read source := by
  intro source t
  have htokens : tokenize source = [t, ⟨.word, ":a"⟩, ⟨.comment, "; b"⟩, ⟨.marker .quote, "'"⟩,
      ⟨.word, "c"⟩, ⟨.comment, "; d"⟩, ⟨.closing .curly, "\x7d"⟩, ⟨.marker .quote, "'"⟩,
      ⟨.comment, "; e"⟩] := by
    decide +kernel
  have hfirst : t ∈ (tokenize source).head? := by simp [htokens]
  have hunmarked : ¬ MarksComment (tokenize source) (readForm (tokenize source)).2 := by
    rw [htokens]
    exact not_marksComment
      (show List.IsChain _ [t, ⟨.word, ":a"⟩, ⟨.comment, "; b"⟩, ⟨.marker .quote, "'"⟩,
        ⟨.word, "c"⟩, ⟨.comment, "; d"⟩, ⟨.closing .curly, "\x7d"⟩] by decide)
  obtain ⟨hread, -, -⟩ := read_uncommented hfirst rfl
  exact ⟨⟨hfirst, rfl⟩, hunmarked, by decide +kernel, hread hunmarked⟩

/-- A comment between a mark and its form becomes the form, and what should have been the form comes
after it. -/
theorem read_marked_comment :
    let source := "(' ; c\n a)"
    uncommented source = "(' \n a)" ∧
      read source = .ok (.list [.list [.symbol "quote", .nil], .symbol "a"]) ∧
      read (uncommented source) = .ok (.list [.list [.symbol "quote", .symbol "a"]]) := by
  intro source
  have htokens : tokenize source = [⟨.opening .round, "("⟩, ⟨.marker .quote, "'"⟩,
      ⟨.comment, "; c"⟩, ⟨.word, "a"⟩, ⟨.closing .round, ")"⟩] := by
    decide +kernel
  refine ⟨by decide +kernel, ?_, ?_⟩
  · rw [read, htokens]
    rfl
  · rw [read, tokenize_uncommented, htokens]
    rfl

end Lisp
