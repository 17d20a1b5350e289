import Lisp.Proofs.Scalar
import Lisp.Proofs.TokenEnds

/-! What the tokens of a text look like, and what becomes of them when the text goes on with a line of its
own. Only a quoted token that is not closed can reach into the next line. -/

namespace Lisp

open Pattern

theorem maximalMunch_tokensOf (cs : List Char) : MaximalMunch cs (tokensOf cs) :=
  .of_lexes (lexes_tokensOf cs)

theorem MaximalMunch.mem_pattern {cs : List Char} {ts : List Token} (h : MaximalMunch cs ts)
    {t : Token} (ht : t ∈ ts) : t.text.toList ∈ t.sort.pattern := by
  induction h with
  | done => cases ht
  | @token gap sort text rest ts _ _ longest _ _ ih =>
    obtain rfl | ht := List.mem_cons.mp ht
    · rw [String.toList_ofList]
      exact longest.matched
    · exact ih ht

theorem mem_pattern_of_mem_tokensOf {cs : List Char} {t : Token} (h : t ∈ tokensOf cs) :
    t.text.toList ∈ t.sort.pattern :=
  (maximalMunch_tokensOf cs).mem_pattern h

theorem LongestMatch.append_line {sort : TokenSort} {text rest : List Char}
    (h : LongestMatch (some sort) text rest) (closed : sort = .quoted → Closed text)
    (more : List Char) : LongestMatch (some sort) text (rest ++ '\n' :: more) := by
  refine .of_endsBefore h.matched (h.endsBefore.of_head ?_ fun hsort _ => .inl (closed hsort))
  intro c hc
  cases rest with
  | nil => exact .inl (Option.mem_some.mp hc).symm
  | cons d rest => exact .inr hc

/-- A text whose quoted tokens are all closed can go on with any line of its own. -/
theorem tokensOf_append_line {cs : List Char}
    (closed : ∀ t ∈ tokensOf cs, t.sort = .quoted → Closed t.text.toList) (more : List Char) :
    tokensOf (cs ++ '\n' :: more) = tokensOf cs ++ tokensOf more := by
  have hmunch := maximalMunch_tokensOf cs
  generalize tokensOf cs = ts at hmunch closed
  induction hmunch with
  | done blank => rw [tokensOf_gap blank, tokensOf_separator (by decide), List.nil_append]
  | @token gap sort text rest ts blank _ longest _ _ ih =>
    obtain ⟨hclosed, hmore⟩ := List.forall_mem_cons.mp closed
    have hlongest := longest.append_line (fun hsort => by simpa using hclosed hsort) more
    rw [List.append_assoc, List.append_assoc, tokensOf_gap blank, hlongest.tokensOf, ih hmore,
      List.cons_append]

structure Token.Unclosed (t : Token) : Prop where
  sort : t.sort = .quoted
  quote : t.text.toList.head? = some '"'
  unclosed : ¬ Closed t.text.toList

theorem prefix_of_concat_prefix {α : Type} {xs ys zs : List α} {a : α} (h : xs ++ [a] <+: ys ++ zs)
    (ha : a ∉ zs) : xs ++ [a] <+: ys := by
  obtain hp | hp := List.prefix_or_prefix_of_prefix h (List.prefix_append ys zs)
  · exact hp
  · obtain rfl | ⟨tail, rfl⟩ := List.prefix_concat_iff.mp hp
    · exact List.prefix_rfl
    · rw [List.append_assoc, List.prefix_append_right_inj] at h
      exact absurd (h.subset (by simp)) ha

theorem LongestMatch.head?_quoted {text rest : List Char}
    (h : LongestMatch (some .quoted) text rest) : text.head? = some '"' := by
  obtain ⟨body, last, rfl, -⟩ := mem_quoted.mp h.matched
  rfl

/-- A quoted token that is not closed stays so, when the text goes on with a line without quotes. -/
theorem LongestMatch.unclosed {text rest more : List Char}
    (h : LongestMatch (some .quoted) text rest) (unclosed : ¬ Closed text) (noQuote : '"' ∉ more) :
    ∃ t ts, Lisp.tokensOf (text ++ (rest ++ '\n' :: more)) = t :: ts ∧ t.Unclosed := by
  obtain ⟨body, last, rfl, -⟩ := mem_quoted.mp h.matched
  obtain ⟨text', hsplit, htext, hlongest⟩ :=
    Token.first_longest (c := '"') (by decide) (body ++ last ++ (rest ++ '\n' :: more))
  obtain ⟨c, text', rfl⟩ := List.exists_cons_of_ne_nil hlongest.nonempty
  obtain rfl := (List.cons.inj hsplit).1
  suffices hunclosed : ¬ Closed ('"' :: text') by
    have hfirst : (Token.first '"' (body ++ last ++ (rest ++ '\n' :: more))).1.Unclosed :=
      ⟨rfl, by rw [htext]; simp, by rw [htext]; simpa⟩
    exact ⟨_, _, tokensOf_cons (by decide) _, hfirst⟩
  rintro ⟨body', htext', hbody'⟩
  rw [htext'] at hsplit
  have hp : '"' :: body' ++ ['"'] <+: '"' :: (body ++ last) ++ rest ++ '\n' :: more :=
    ⟨_, by simpa [List.append_assoc] using hsplit.symm⟩
  -- The closing quote stands in the text itself, so it would have closed the token there.
  obtain ⟨rest', hrest'⟩ := prefix_of_concat_prefix hp (by simpa using noQuote)
  obtain ⟨-, heq, -⟩ := h.unique (.quoted_closed hbody' rest') hrest'.symm
  exact unclosed (heq ▸ ⟨body', rfl, hbody'⟩)

/-- The tokens of a text are those it has in front of a line without quotes, up to the first quoted
token that is not closed, if there is one. -/
theorem MaximalMunch.append_line {cs : List Char} {ts : List Token} (h : MaximalMunch cs ts)
    {more : List Char} (noQuote : '"' ∉ more) :
    tokensOf (cs ++ '\n' :: more) = ts ++ tokensOf more ∨
      ∃ before t after t' after', ts = before ++ t :: after ∧
        tokensOf (cs ++ '\n' :: more) = before ++ t' :: after' ∧ t.Unclosed ∧ t'.Unclosed := by
  induction h with
  | done blank =>
    rw [tokensOf_gap blank, tokensOf_separator (by decide)]
    exact .inl rfl
  | @token gap sort text rest ts blank _ longest _ _ ih =>
    rw [List.append_assoc, List.append_assoc, tokensOf_gap blank]
    by_cases unclosed : sort = .quoted ∧ ¬ Closed text
    · obtain ⟨rfl, unclosed⟩ := unclosed
      obtain ⟨t', after', htokens, hunclosed⟩ := longest.unclosed unclosed noQuote
      have hquote : text.head? = some '"' := longest.head?_quoted
      exact .inr ⟨[], _, ts, t', after', rfl, htokens, ⟨rfl, by simpa, by simpa⟩, hunclosed⟩
    · have hlongest := longest.append_line (fun hsort => by simpa [hsort] using unclosed) more
      rw [hlongest.tokensOf]
      obtain ih | ⟨before, t, after, t', after', rfl, htokens, hunclosed⟩ := ih
      · exact .inl (by rw [ih, List.cons_append])
      · exact .inr ⟨_ :: before, t, after, t', after', rfl, by rw [htokens, List.cons_append],
          hunclosed⟩

theorem Quoted.Stands.quotedBody {cs ds : List Char} (h : Stands cs ds) : QuotedBody cs := by
  induction h with
  | nil => exact .nil
  | plain hq hb _ ih => exact .plain hq hb ih
  | @escaped c d _ _ escape _ ih =>
    have hc : c ≠ '\n' := by
      rintro rfl
      exact absurd escape (by simp [unescapeChar])
    exact .escaped hc ih

/-- A quoted token that stands for something is closed. -/
theorem Classifies.closed {text : String} {v : Value} (h : Classifies text v)
    (quote : text.toList.head? = some '"') : Closed text.toList := by
  obtain ⟨content, body, htext, hstands⟩ | ⟨e, he⟩ := Quoted.denotes_or_faulty quote
  · exact ⟨body, htext, hstands.quotedBody⟩
  · exact nomatch h.readScalar.symm.trans (Misread.quoted he).readScalar

end Lisp
