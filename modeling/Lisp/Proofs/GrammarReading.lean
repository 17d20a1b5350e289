import Lisp.Proofs.Grammar
import Mathlib.Data.List.TakeWhile

/-! The reader and the grammar agree: what is read is what is derived, and what is not derived is refused
for the reason that the grammar gives. -/

namespace Lisp

/-- A form has to stand where the tokens begin, whatever is pending: inside of a bracket they begin with
no comment and do not close it. -/
def Awaits (pending : List Pending) (ts : List Token) : Prop :=
  ∀ b forms outer, pending = .opened b forms :: outer →
    ∀ t ∈ ts.head?, t.isComment = false ∧ t.sort ≠ .closing b

theorem awaits_nil (ts : List Token) : Awaits [] ts :=
  fun _ _ _ h => nomatch h

theorem awaits_marked (m : Marker) (pending : List Pending) (ts : List Token) :
    Awaits (.marked m :: pending) ts :=
  fun _ _ _ h => nomatch h

theorem isComment_eq_true {t : Token} : t.isComment = true ↔ t.sort = .comment := by
  simp [Token.isComment]

theorem isComment_of_sort {t : Token} {sort : TokenSort} (h : t.sort = sort)
    (hne : sort ≠ .comment) : t.isComment = false := by
  rw [Bool.eq_false_iff, ne_eq, isComment_eq_true, h]
  exact hne

theorem Token.IsScalar.isComment {t : Token} (h : t.IsScalar) : t.isComment = false := by
  rcases h with h | h | h <;> exact isComment_of_sort h (by simp)

theorem Token.IsScalar.advance {t : Token} (h : t.IsScalar) (pending : List Pending) :
    t.advance pending = Pending.settle pending (readScalar t.text) := by
  rcases h with h | h | h <;> simp [Token.advance, h]

theorem readInside_opening {t : Token} {b : Bracket} (h : t.sort = .opening b)
    (pending : List Pending) (ts : List Token) :
    readInside pending (t :: ts) = readInside (.opened b [] :: pending) ts := by
  have hadvance : t.advance pending = .inside (.opened b [] :: pending) := by
    simp [Token.advance, h]
  rw [readInside, hadvance]

theorem readInside_marker {t : Token} {m : Marker} (h : t.sort = .marker m)
    (pending : List Pending) (ts : List Token) :
    readInside pending (t :: ts) = readInside (.marked m :: pending) ts := by
  have hadvance : t.advance pending = .inside (.marked m :: pending) := by
    simp [Token.advance, h]
  rw [readInside, hadvance]

theorem readInside_closing {t : Token} {b : Bracket} (h : t.sort = .closing b) (forms : List Value)
    (outer : List Pending) (ts : List Token) :
    readInside (.opened b forms :: outer) (t :: ts) =
      (Pending.settle outer (b.collect forms.reverse)).resume ts := by
  have hadvance : t.advance (.opened b forms :: outer) =
      Pending.settle outer (b.collect forms.reverse) := by
    simp [Token.advance, h]
  rw [readInside_of_advance (isComment_of_sort h (by simp)) hadvance]
  intro e
  unfold Pending.settle
  split
  · exact Pending.deliver_ne_refusal _ _ e
  · simp

theorem readInside_comment {t : Token} (h : t.isComment = true) (b : Bracket) (forms : List Value)
    (outer : List Pending) (ts : List Token) :
    readInside (.opened b forms :: outer) (t :: ts) = readInside (.opened b forms :: outer) ts := by
  have hadvance : t.advance (.opened b forms :: outer) = .inside (.opened b forms :: outer) := by
    simp [Token.advance, isComment_eq_true.mp h]
  rw [readInside, hadvance]

theorem readInside_comments {run : List Token} (h : ∀ t ∈ run, t.isComment = true) (b : Bracket)
    (forms : List Value) (outer : List Pending) (ts : List Token) :
    readInside (.opened b forms :: outer) (run ++ ts) = readInside (.opened b forms :: outer) ts := by
  induction run with
  | nil => rfl
  | cons t run ih =>
    obtain ⟨ht, hrun⟩ := List.forall_mem_cons.mp h
    rw [List.cons_append, readInside_comment ht, ih hrun]

theorem dropWhile_comments {run rest : List Token} (h : ∀ t ∈ run, t.isComment = true)
    (hrest : NoComment rest) : (run ++ rest).dropWhile Token.isComment = rest := by
  rw [List.dropWhile_append_of_pos h]
  cases rest with
  | nil => rfl
  | cons t rest => exact List.dropWhile_cons_of_neg (by simp [hrest t (by simp)])

theorem Pending.deliver_cases (form : Value) (pending : List Pending) :
    (∃ whole, Pending.deliver form pending = .complete whole) ∨
      ∃ b forms outer, Pending.deliver form pending = .inside (.opened b forms :: outer) := by
  induction pending generalizing form with
  | nil => exact .inl ⟨form, rfl⟩
  | cons p pending ih =>
    cases p with
    | opened b forms => exact .inr ⟨b, form :: forms, pending, rfl⟩
    | marked m => exact ih (m.wrap form)

/-- A run of comments is nil where a form has to stand, and nothing after that. -/
theorem readInside_run {t : Token} {run rest : List Token} {pending : List Pending}
    (ht : t.isComment = true) (h : ∀ u ∈ run, u.isComment = true) (hrest : NoComment rest)
    (hpending : Awaits pending (t :: run)) :
    readInside pending (t :: (run ++ rest)) = (Pending.deliver .nil pending).resume rest := by
  have hadvance : t.advance pending = Pending.deliver .nil pending := by
    cases pending with
    | nil => simp [Token.advance, isComment_eq_true.mp ht]
    | cons p pending =>
      cases p with
      | opened b forms => simpa [ht] using hpending b forms pending rfl t (by simp)
      | marked m => simp [Token.advance, isComment_eq_true.mp ht]
  rw [readInside, hadvance]
  obtain ⟨whole, hdeliver⟩ | ⟨b, forms, outer, hdeliver⟩ := Pending.deliver_cases .nil pending
  · simp [hdeliver, Advance.resume, ht, dropWhile_comments h hrest]
  · simp [hdeliver, Advance.resume, readInside_comments h]

theorem Derives.head_ne_closing {used rest : List Token} {v : Value} (h : Derives used rest v)
    {t : Token} (ht : t ∈ used.head?) (b : Bracket) : t.sort ≠ .closing b := by
  cases h with
  | scalar sort =>
    obtain rfl := Option.mem_some.mp ht
    rcases sort with h | h | h <;> simp [h]
  | bracket opens =>
    obtain rfl := Option.mem_some.mp ht
    simp [opens]
  | marker sort =>
    obtain rfl := Option.mem_some.mp ht
    simp [sort]
  | comments _ comments => simp [isComment_eq_true.mp (comments t (List.mem_of_mem_head? ht))]

theorem Derives.awaits {used rest : List Token} {v : Value} (h : Derives used rest v)
    (noComment : NoComment used) (pending : List Pending) : Awaits pending used :=
  fun b _ _ _ t ht => ⟨noComment t ht, h.head_ne_closing ht b⟩

mutual

theorem Derives.readInside {used rest : List Token} {v : Value} (h : Derives used rest v)
    {pending : List Pending} (hpending : Awaits pending used) :
    readInside pending (used ++ rest) = (Pending.deliver v pending).resume rest := by
  match h with
  | .scalar sort means =>
    have hadvance := sort.advance pending
    rw [means.readScalar] at hadvance
    exact readInside_of_advance sort.isComment hadvance (Pending.deliver_ne_refusal v pending) rest
  | @Derives.bracket opener closer b used rest forms v opens closes elements holds =>
    have happ : opener :: (used ++ [closer]) ++ rest = opener :: (used ++ closer :: rest) := by simp
    have hinner := elements.readInside b [] pending
    have hcollect : b.collect (forms.reverse ++ []).reverse = .ok v := by
      simpa using holds.collect
    rw [happ, readInside_opening opens, hinner, readInside_closing closes, hcollect]
    rfl
  | @Derives.marker t m used rest form sort body =>
    rw [List.cons_append, readInside_marker sort, body.readInside (awaits_marked m pending used)]
    rfl
  | @Derives.comments run rest nonempty comments maximal =>
    obtain ⟨t, run, rfl⟩ := List.exists_cons_of_ne_nil nonempty
    obtain ⟨ht, hrun⟩ := List.forall_mem_cons.mp comments
    exact readInside_run ht hrun maximal hpending
termination_by structural h

theorem DerivesAll.readInside {used rest : List Token} {forms : List Value}
    (h : DerivesAll used rest forms) (b : Bracket) (done : List Value) (outer : List Pending) :
    readInside (.opened b done :: outer) (used ++ rest) =
      readInside (.opened b (forms.reverse ++ done) :: outer) rest := by
  match h with
  | .nil => rfl
  | .comment comment more =>
    rw [List.cons_append, readInside_comment comment, more.readInside b done outer]
  | @DerivesAll.form used more rest v forms noComment head tail =>
    rw [List.append_assoc, head.readInside (head.awaits noComment _), Pending.deliver,
      Advance.resume, tail.readInside b (v :: done) outer]
    simp
termination_by structural h

end

theorem Rejects.readInside {ts rest : List Token} {e : ReadError} (h : Rejects ts e rest)
    {pending : List Pending} (hpending : Awaits pending ts) :
    readInside pending ts = (.error e, rest) := by
  induction h generalizing pending with
  | @closer t b ts sort =>
    have hadvance : t.advance pending = .refusal (.unexpectedDelimiter b.closer) := by
      match pending with
      | [] => simp [Token.advance, sort]
      | .marked m :: outer => simp [Token.advance, sort]
      | .opened c forms :: outer =>
        have hne := (hpending c forms outer rfl t (by simp)).2
        have hbc : b ≠ c := fun h => hne (by rw [sort, h])
        simp [Token.advance, sort, hbc]
    rw [Lisp.readInside, hadvance]
  | @scalar t ts e sort misread =>
    have hadvance := sort.advance pending
    rw [misread.readScalar] at hadvance
    rw [Lisp.readInside, hadvance]
    rfl
  | @marker t m ts e rest sort body ih =>
    rw [readInside_marker sort]
    exact ih (awaits_marked m pending ts)
  | @noBody t m sort =>
    rw [readInside_marker sort]
    simp [Lisp.readInside]
  | @element opener b used ts forms e rest opens elements noComment noCloser fault ih =>
    rw [readInside_opening opens, elements.readInside b [] pending]
    apply ih
    rintro c inner outer heq t ht
    obtain ⟨hb, -⟩ : b = c ∧ _ := by simpa using (List.cons.inj heq).1
    exact ⟨noComment t ht, hb ▸ noCloser t ht⟩
  | @unclosed opener b used forms opens elements =>
    have hinner := elements.readInside b [] pending
    rw [List.append_nil] at hinner
    rw [readInside_opening opens, hinner]
    simp [Lisp.readInside]
  | @noValue opener closer used ts pairs key opens closes elements =>
    have hodd := readEntries_odd pairs key
    rw [readInside_opening opens, elements.readInside .curly [] pending,
      readInside_closing closes]
    simp [Bracket.collect, hodd, Except.map, Pending.settle, Advance.resume]

theorem Bracket.holds_or_odd (b : Bracket) (forms : List Value) :
    (∃ v, b.Holds forms v) ∨ b = .curly ∧ ∃ pairs key, forms = Value.forms pairs ++ [key] := by
  cases b with
  | round => exact .inl ⟨_, .round⟩
  | square => exact .inl ⟨_, .square⟩
  | curly =>
    obtain ⟨pairs, rfl | ⟨key, rfl⟩⟩ := exists_entries forms
    · exact .inl ⟨_, .curly⟩
    · exact .inr ⟨rfl, pairs, key, rfl⟩

/-- A run of comments goes as far as there are comments. -/
theorem derives_comments {t : Token} (ht : t.isComment = true) (ts : List Token) :
    ∃ used rest, t :: ts = used ++ rest ∧ Derives used rest .nil := by
  refine ⟨t :: ts.takeWhile Token.isComment, ts.dropWhile Token.isComment, ?_, ?_⟩
  · simp
  · refine .comments (List.cons_ne_nil _ _) ?_ ?_
    · intro u hu
      obtain rfl | hu := List.mem_cons.mp hu
      · exact ht
      · exact List.mem_takeWhile_imp hu
    · intro u hu
      have hhead := List.head?_dropWhile_not Token.isComment ts
      rw [Option.mem_def.mp hu] at hhead
      simpa using hhead

mutual

/-- Tokens begin with a form or are rejected, unless there are none. -/
theorem derives_or_rejects (ts : List Token) :
    ts = [] ∨ (∃ used rest v, ts = used ++ rest ∧ Derives used rest v) ∨
      ∃ e rest, Rejects ts e rest := by
  match ts with
  | [] => exact .inl rfl
  | t :: ts =>
    refine .inr ?_
    have hscalar (sort : t.IsScalar) : (∃ used rest v, t :: ts = used ++ rest ∧
        Derives used rest v) ∨ ∃ e rest, Rejects (t :: ts) e rest := by
      obtain ⟨v, hv⟩ | ⟨e, he⟩ := classifies_or_misread t.text
      · exact .inl ⟨[t], ts, v, rfl, .scalar sort hv⟩
      · exact .inr ⟨e, ts, .scalar sort he⟩
    match sort : t.sort with
    | .opening b =>
      obtain ⟨used, after, forms, rfl, helements, hafter⟩ := derivesAll_prefix b ts
      obtain rfl | ⟨closer, rest, rfl, hcloser⟩ | ⟨hcomment, hcloser, e, rest, hrejects⟩ := hafter
      · rw [List.append_nil]
        exact .inr ⟨_, [], .unclosed sort helements⟩
      · obtain ⟨v, hholds⟩ | ⟨rfl, pairs, key, rfl⟩ := b.holds_or_odd forms
        · exact .inl ⟨_, rest, v, by simp, .bracket sort hcloser helements hholds⟩
        · exact .inr ⟨_, rest, .noValue sort hcloser helements⟩
      · exact .inr ⟨e, rest, .element sort helements hcomment hcloser hrejects⟩
    | .closing b => exact .inr ⟨_, _, .closer sort⟩
    | .marker m =>
      obtain rfl | ⟨used, rest, v, rfl, hbody⟩ | ⟨e, rest, hbody⟩ := derives_or_rejects ts
      · exact .inr ⟨_, [], .noBody sort⟩
      · exact .inl ⟨t :: used, rest, _, rfl, .marker sort hbody⟩
      · exact .inr ⟨e, rest, .marker sort hbody⟩
    | .comment =>
      obtain ⟨used, rest, happ, hrun⟩ := derives_comments (isComment_eq_true.mpr sort) ts
      exact .inl ⟨used, rest, .nil, happ, hrun⟩
    | .caret => exact hscalar (.inl sort)
    | .quoted => exact hscalar (.inr (.inl sort))
    | .word => exact hscalar (.inr (.inr sort))
termination_by (ts.length, 0)

/-- Forms and comments go on inside of a bracket to where the tokens end, the bracket is closed or no form
begins. -/
theorem derivesAll_prefix (b : Bracket) (ts : List Token) :
    ∃ used after forms, ts = used ++ after ∧ DerivesAll used after forms ∧
      (after = [] ∨ (∃ closer rest, after = closer :: rest ∧ closer.sort = .closing b) ∨
        NoComment after ∧ (∀ t ∈ after.head?, t.sort ≠ .closing b) ∧
          ∃ e rest, Rejects after e rest) := by
  match ts with
  | [] => exact ⟨[], [], [], rfl, .nil, .inl rfl⟩
  | t :: ts =>
    by_cases hcomment : t.isComment = true
    · obtain ⟨used, after, forms, rfl, helements, hafter⟩ := derivesAll_prefix b ts
      exact ⟨t :: used, after, forms, rfl, .comment hcomment helements, hafter⟩
    by_cases hcloser : t.sort = .closing b
    · exact ⟨[], t :: ts, [], rfl, .nil, .inr (.inl ⟨t, ts, rfl, hcloser⟩)⟩
    obtain hnil | ⟨used, rest, v, happ, hform⟩ | ⟨e, rest, hrejects⟩ := derives_or_rejects (t :: ts)
    · exact absurd hnil (List.cons_ne_nil _ _)
    · have hshorter : rest.length < ts.length + 1 := by
        have hlength := congrArg List.length happ
        have hused := List.length_pos_of_ne_nil hform.nonempty
        simp only [List.length_cons, List.length_append] at hlength
        omega
      obtain ⟨more, after, forms, rfl, helements, hafter⟩ := derivesAll_prefix b rest
      have hnoComment : NoComment used := by
        intro u hu
        obtain ⟨us, rfl⟩ := List.head?_eq_some_iff.mp hu
        obtain rfl := (List.cons.inj happ).1
        simpa using hcomment
      refine ⟨used ++ more, after, v :: forms, ?_, .form hnoComment hform helements, hafter⟩
      rw [happ, List.append_assoc]
    · refine ⟨[], t :: ts, [], rfl, .nil, .inr (.inr ⟨?_, ?_, e, rest, hrejects⟩)⟩
      · rintro u hu
        obtain rfl := Option.mem_some.mp hu
        simpa using hcomment
      · rintro u hu
        obtain rfl := Option.mem_some.mp hu
        exact hcloser
termination_by (ts.length, 1)

end

theorem Derives.readForm {used rest : List Token} {v : Value} (h : Derives used rest v) :
    readForm (used ++ rest) = (.ok v, rest) :=
  h.readInside (awaits_nil used)

theorem Rejects.readForm {ts rest : List Token} {e : ReadError} (h : Rejects ts e rest) :
    readForm ts = (.error e, rest) :=
  h.readInside (awaits_nil ts)

/-- A reading that ends with a form takes the tokens of that form, unless there are none. -/
theorem derives_of_readForm {ts rest : List Token} {v : Value} (h : readForm ts = (.ok v, rest)) :
    ts = [] ∨ ∃ used, ts = used ++ rest ∧ Derives used rest v := by
  obtain hnil | ⟨used, rest', v', happ, hform⟩ | ⟨e, rest', hrejects⟩ := derives_or_rejects ts
  · exact .inl hnil
  · rw [happ, hform.readForm] at h
    obtain ⟨hv, rfl⟩ := Prod.mk.inj h
    obtain rfl := Except.ok.inj hv
    exact .inr ⟨used, happ, hform⟩
  · exact nomatch hrejects.readForm.symm.trans h

theorem rejects_of_readForm {ts rest : List Token} {e : ReadError}
    (h : readForm ts = (.error e, rest)) : Rejects ts e rest := by
  obtain rfl | ⟨used, rest', v, rfl, hform⟩ | ⟨e', rest', hrejects⟩ := derives_or_rejects ts
  · exact nomatch h
  · exact nomatch hform.readForm.symm.trans h
  · obtain ⟨he, rfl⟩ := Prod.mk.inj (hrejects.readForm.symm.trans h)
    obtain rfl := Except.error.inj he
    exact hrejects

theorem Classifies.ne_eof {text : String} {v : Value} (h : Classifies text v) : v ≠ .eof := by
  cases h <;> simp

theorem Derives.ne_eof {used rest : List Token} {v : Value} (h : Derives used rest v) :
    v ≠ .eof := by
  cases h with
  | scalar _ means => exact means.ne_eof
  | bracket _ _ _ holds => cases holds <;> simp [Value.mapOfLiterals]
  | marker | comments => simp

/-- The reader accepts exactly its grammar, whatever tokens come after a form. Where there is no form it
answers that there is none, or why. -/
theorem readForm_grammar :
    (∀ used rest v, readForm (used ++ rest) = (.ok v, rest) ∧ v ≠ .eof ↔ Derives used rest v) ∧
      (∀ ts, (readForm ts).1 = .ok .eof ↔ ts = []) ∧
      (∀ ts e rest, readForm ts = (.error e, rest) ↔ Rejects ts e rest) ∧
      ∀ used rest v used' rest' v', Derives used rest v → Derives used' rest' v' →
        used ++ rest = used' ++ rest' → used = used' ∧ v = v' := by
  refine ⟨fun used rest v => ⟨?_, fun h => ⟨h.readForm, h.ne_eof⟩⟩, fun ts => ⟨?_, ?_⟩,
    fun ts e rest => ⟨rejects_of_readForm, Rejects.readForm⟩, ?_⟩
  · rintro ⟨hread, hv⟩
    obtain hnil | ⟨used', happ, hform⟩ := derives_of_readForm hread
    · rw [hnil] at hread
      exact absurd (Except.ok.inj (Prod.mk.inj hread).1).symm hv
    · exact List.append_cancel_right happ ▸ hform
  · intro hread
    obtain hnil | ⟨used, -, hform⟩ := derives_of_readForm (Prod.ext hread rfl)
    · exact hnil
    · exact absurd rfl hform.ne_eof
  · rintro rfl
    rfl
  · intro used rest v used' rest' v' h h' happ
    have hread := h.readForm
    rw [happ, h'.readForm] at hread
    obtain ⟨hv, rfl⟩ := Prod.mk.inj hread
    exact ⟨List.append_cancel_right happ, (Except.ok.inj hv).symm⟩

theorem readForm_grammar_map :
    let used : List Token := [⟨.marker .quote, "'"⟩, ⟨.opening .curly, "\x7b"⟩, ⟨.word, ":k"⟩,
      ⟨.comment, "; one"⟩, ⟨.word, "1"⟩, ⟨.closing .curly, "\x7d"⟩]
    let rest : List Token := [⟨.closing .round, ")"⟩]
    let v : Value := .list [.symbol "quote", .mapOfLiterals [(.keyword "k", .int 1)]]
    (readForm (used ++ rest) = (.ok v, rest) ∧ v ≠ .eof) ∧ Derives used rest v ∧
      (∀ used' rest' v', Derives used' rest' v' → used ++ rest = used' ++ rest' →
        used = used' ∧ v = v') ∧
      readForm rest = (.error (.unexpectedDelimiter ')'), rest) ∧
      Rejects rest (.unexpectedDelimiter ')') rest := by
  intro used rest v
  obtain ⟨haccepts, -, hrejects, hunique⟩ := readForm_grammar
  have hread : readForm (used ++ rest) = (.ok v, rest) := by rfl
  have hrefused : readForm rest = (.error (.unexpectedDelimiter ')'), rest) := by rfl
  have hform := (haccepts used rest v).mp ⟨hread, by simp [v]⟩
  exact ⟨⟨hread, by simp [v]⟩, hform, fun used' rest' v' => hunique _ _ _ _ _ _ hform, hrefused,
    (hrejects _ _ _).mp hrefused⟩

end Lisp
