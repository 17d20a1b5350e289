import Lisp.Proofs.QuotedSpan
import Mathlib.Data.List.TakeWhile

/-! A text is cut where the patterns of tokens say: each token is the longest text that any pattern
matches where the token begins. There is one way to cut a text so, and every character that is no
separator begins some token. -/

namespace Lisp

open Pattern

/-- What is matched in a text: a token of some sort, or what stands between tokens. -/
abbrev Lexeme := Option TokenSort

def Lexeme.pattern : Lexeme → Language Char
  | none => gap
  | some sort => sort.pattern

/-- In front of `rest`, the pattern of this lexeme matches `text`, and no pattern matches more. -/
structure LongestMatch (lexeme : Lexeme) (text rest : List Char) : Prop where
  matched : text ∈ lexeme.pattern
  longest : ∀ (other : Lexeme) (more : List Char), more ∈ other.pattern → more <+: text ++ rest →
    more.length ≤ text.length

/-- A text as tokens with separators before, between and after them. Each token is as long as any
pattern allows, and of the only sort whose pattern matches it. -/
inductive MaximalMunch : List Char → List Token → Prop
  | done {gap} (blank : ∀ c ∈ gap, isSeparator c = true) : MaximalMunch gap []
  | token {gap sort text rest ts} (blank : ∀ c ∈ gap, isSeparator c = true) (nonempty : text ≠ [])
    (longest : LongestMatch (some sort) text rest)
    (only : ∀ lexeme : Lexeme, text ∈ lexeme.pattern → lexeme = some sort)
    (more : MaximalMunch rest ts) :
    MaximalMunch (gap ++ text ++ rest) (⟨sort, String.ofList text⟩ :: ts)

/-- What a lexer may make of a text, when it takes a longest match wherever there is one. Where there
is none, it is free to take any text, which becomes a word. -/
inductive Lexes : List Char → List Token → Prop
  | done : Lexes [] []
  | skip {text rest ts} (longest : LongestMatch none text rest) (more : Lexes rest ts) :
    Lexes (text ++ rest) ts
  | token {sort text rest ts} (longest : LongestMatch (some sort) text rest)
    (more : Lexes rest ts) : Lexes (text ++ rest) (⟨sort, String.ofList text⟩ :: ts)
  | unmatched {text rest ts} (nonempty : text ≠ [])
    (unmatched : ∀ (lexeme : Lexeme) (more : List Char), more ∈ lexeme.pattern →
      ¬ more <+: text ++ rest)
    (more : Lexes rest ts) : Lexes (text ++ rest) (⟨.word, String.ofList text⟩ :: ts)

/-- The lexeme that begins with a character. A `~` may also begin the sign `~@`. -/
def lexemeAt (c : Char) : Lexeme :=
  if isSeparator c then none else some (Token.first c []).1.sort

theorem nil_not_mem_pattern (lexeme : Lexeme) : [] ∉ lexeme.pattern := by
  intro h
  match lexeme with
  | none => exact (mem_gap.mp h).1 rfl
  | some (.opening b) => exact nomatch mem_literal.mp h
  | some (.closing b) => exact nomatch mem_literal.mp h
  | some (.marker m) => cases m <;> exact nomatch mem_literal.mp h
  | some .caret => exact nomatch mem_literal.mp h
  | some .quoted => obtain ⟨_, _, h, -⟩ := mem_quoted.mp h; exact nomatch h
  | some .comment => obtain ⟨_, h, -⟩ := mem_comment.mp h; exact nomatch h
  | some .word => obtain ⟨_, _, h, -⟩ := mem_word.mp h; exact nomatch h

theorem lexeme_of_mem_pattern {lexeme : Lexeme} {c : Char} {cs : List Char}
    (h : c :: cs ∈ lexeme.pattern) :
    lexeme = lexemeAt c ∨ c = '~' ∧ lexeme = some (.marker .spliceUnquote) := by
  match lexeme with
  | none =>
    have hc := (mem_gap.mp h).2 c (by simp)
    exact .inl (if_pos hc).symm
  | some (.opening b) =>
    obtain ⟨rfl, -⟩ := List.cons.inj (mem_literal.mp h)
    cases b <;> exact .inl (by decide)
  | some (.closing b) =>
    obtain ⟨rfl, -⟩ := List.cons.inj (mem_literal.mp h)
    cases b <;> exact .inl (by decide)
  | some (.marker m) =>
    cases m <;> obtain ⟨rfl, -⟩ := List.cons.inj (mem_literal.mp h)
    case spliceUnquote => exact .inr ⟨rfl, rfl⟩
    all_goals exact .inl (by decide)
  | some .caret =>
    obtain ⟨rfl, -⟩ := List.cons.inj (mem_literal.mp h)
    exact .inl (by decide)
  | some .quoted =>
    obtain ⟨_, _, h, -⟩ := mem_quoted.mp h
    obtain ⟨rfl, -⟩ := List.cons.inj h
    exact .inl (by decide)
  | some .comment =>
    obtain ⟨_, h, -⟩ := mem_comment.mp h
    obtain ⟨rfl, -⟩ := List.cons.inj h
    exact .inl (by decide)
  | some .word =>
    obtain ⟨_, _, h, hc, -⟩ := mem_word.mp h
    obtain ⟨rfl, -⟩ := List.cons.inj h
    have hsep := isSeparator_of_isWordChar (isWordChar_of_isWordStart hc)
    exact .inl (by simp [lexemeAt, hsep, Token.first_word hc])

theorem lexeme_unique {lexeme lexeme' : Lexeme} {cs : List Char} (h : cs ∈ lexeme.pattern)
    (h' : cs ∈ lexeme'.pattern) : lexeme = lexeme' := by
  cases cs with
  | nil => exact absurd h (nil_not_mem_pattern lexeme)
  | cons c cs =>
    obtain rfl | ⟨rfl, rfl⟩ := lexeme_of_mem_pattern h
    · obtain rfl | ⟨rfl, rfl⟩ := lexeme_of_mem_pattern h'
      · rfl
      · exact nomatch (mem_literal.mp h).symm.trans (mem_literal.mp h')
    · obtain rfl | ⟨-, rfl⟩ := lexeme_of_mem_pattern h'
      · exact nomatch (mem_literal.mp h).symm.trans (mem_literal.mp h')
      · rfl

theorem length_le_of_prefix {p : Char → Prop} {more cs rest : List Char} (h : more <+: cs ++ rest)
    (hmore : ∀ c ∈ more, p c) (hr : ∀ c ∈ rest.head?, ¬ p c) : more.length ≤ cs.length := by
  induction cs generalizing more with
  | nil =>
    cases more with
    | nil => exact Nat.le_refl 0
    | cons d ds =>
      obtain ⟨tail, rfl⟩ := h
      exact absurd (hmore d (by simp)) (hr d (by simp))
  | cons c cs ih =>
    cases more with
    | nil => exact Nat.zero_le _
    | cons d ds =>
      have htail := ih (List.cons_prefix_cons.mp h).2 fun e he => hmore e (by simp [he])
      exact Nat.succ_le_succ htail

namespace LongestMatch

variable {lexeme lexeme' : Lexeme} {text text' rest rest' : List Char}

theorem nonempty (h : LongestMatch lexeme text rest) : text ≠ [] := by
  rintro rfl
  exact nil_not_mem_pattern lexeme h.matched

/-- A match is the longest one of its own lexeme, where no other lexeme begins so. -/
theorem of_head {c : Char} {cs : List Char} (hc : c ≠ '~') (matched : c :: cs ∈ lexeme.pattern)
    (longest : ∀ more ∈ lexeme.pattern, more <+: c :: cs ++ rest →
      more.length ≤ (c :: cs).length) :
    LongestMatch lexeme (c :: cs) rest := by
  refine ⟨matched, fun other more hmore hp => ?_⟩
  cases more with
  | nil => exact Nat.zero_le _
  | cons d ds =>
    obtain ⟨rfl, -⟩ := List.cons_prefix_cons.mp hp
    have hlexeme := (lexeme_of_mem_pattern matched).resolve_right fun h => hc h.1
    have hother := (lexeme_of_mem_pattern hmore).resolve_right fun h => hc h.1
    exact longest _ (hlexeme ▸ hother ▸ hmore) hp

theorem of_literal {c : Char} (hc : c ≠ '~') (hpattern : lexeme.pattern = {[c]})
    (rest : List Char) : LongestMatch lexeme [c] rest := by
  refine of_head hc (hpattern ▸ mem_literal.mpr rfl) fun more hmore _ => ?_
  have hmore : more ∈ ({[c]} : Language Char) := hpattern ▸ hmore
  rw [mem_literal.mp hmore]

theorem quoted_closed {body : List Char} (h : QuotedBody body) (rest : List Char) :
    LongestMatch (some .quoted) ('"' :: (body ++ ['"'])) rest := by
  refine of_head (by decide) (mem_quoted.mpr ⟨body, _, rfl, h, .inl rfl⟩) fun more hmore hp => ?_
  obtain ⟨body', last, rfl, hbody', hlast⟩ := mem_quoted.mp hmore
  have hp : body' ++ last <+: body ++ '"' :: rest := by
    simpa [List.cons_prefix_cons] using hp
  have hle := (prefix_of_quotedBody h (.inr ⟨rest, rfl⟩) hbody'
    ((List.prefix_append _ _).trans hp)).length_le
  rcases hlast with rfl | rfl <;> simp <;> omega

theorem quoted_open {body rest : List Char} (h : QuotedBody body) (hr : QuoteStops rest) :
    LongestMatch (some .quoted) ('"' :: body) rest := by
  have hmem : '"' :: body ∈ Lexeme.pattern (some .quoted) :=
    mem_quoted.mpr ⟨body, [], by simp, h, .inr rfl⟩
  refine of_head (by decide) hmem fun more hmore hp => ?_
  obtain ⟨body', last, rfl, hbody', hlast⟩ := mem_quoted.mp hmore
  have hp : body' ++ last <+: body ++ rest := (List.cons_prefix_cons.mp hp).2
  obtain ⟨tail, rfl⟩ := prefix_of_quotedBody h (.inl hr) hbody' ((List.prefix_append _ _).trans hp)
  rcases hlast with rfl | rfl
  · cases tail with
    | nil =>
      have hquote : ['"'] <+: rest := by simpa using hp
      rcases hr with rfl | rfl | ⟨ds, rfl⟩ <;> simp [List.cons_prefix_cons] at hquote
    | cons d ds =>
      simp only [List.length_cons, List.length_append, List.length_nil]
      omega
  · simp

theorem comment {cs rest : List Char} (hcs : ∀ c ∈ cs, c ≠ '\n') (hr : ∀ c ∈ rest.head?, c = '\n') :
    LongestMatch (some .comment) (';' :: cs) rest := by
  refine of_head (by decide) (mem_comment.mpr ⟨cs, rfl, hcs⟩) fun more hmore hp => ?_
  obtain ⟨ds, rfl, hds⟩ := mem_comment.mp hmore
  have hle := length_le_of_prefix (List.cons_prefix_cons.mp hp).2 hds
    fun c hc => not_not_intro (hr c hc)
  exact Nat.succ_le_succ hle

theorem word {c : Char} {cs rest : List Char} (hc : isWordStart c = true)
    (hcs : ∀ d ∈ cs, isWordChar d = true) (hr : Stops rest) :
    LongestMatch (some .word) (c :: cs) rest := by
  have hne : c ≠ '~' := fun h => absurd (h ▸ hc) (by decide)
  refine of_head hne (mem_word.mpr ⟨c, cs, rfl, hc, hcs⟩) fun more hmore hp => ?_
  obtain ⟨d, ds, rfl, -, hds⟩ := mem_word.mp hmore
  have hle := length_le_of_prefix (List.cons_prefix_cons.mp hp).2 hds
    fun e he hword => isWordChar_iff.mp hword (hr e he)
  exact Nat.succ_le_succ hle

theorem gap {cs rest : List Char} (hne : cs ≠ []) (hcs : ∀ c ∈ cs, isSeparator c = true)
    (hr : ∀ c ∈ rest.head?, isSeparator c = false) : LongestMatch none cs rest := by
  obtain ⟨c, cs, rfl⟩ := List.exists_cons_of_ne_nil hne
  have hc : c ≠ '~' := fun h => absurd (h ▸ hcs c (by simp)) (by decide)
  refine of_head hc (mem_gap.mpr ⟨hne, hcs⟩) fun more hmore hp => ?_
  exact length_le_of_prefix hp (mem_gap.mp hmore).2 fun d hd => by simp [hr d hd]

theorem spliceUnquote (rest : List Char) :
    LongestMatch (some (.marker .spliceUnquote)) ['~', '@'] rest := by
  refine ⟨mem_literal.mpr rfl, fun other more hmore hp => ?_⟩
  cases more with
  | nil => exact Nat.zero_le _
  | cons d ds =>
    obtain ⟨rfl, -⟩ := List.cons_prefix_cons.mp hp
    obtain rfl | ⟨-, rfl⟩ := lexeme_of_mem_pattern hmore
    · have hmore : '~' :: ds = ['~'] := mem_literal.mp hmore
      simp [hmore]
    · exact Nat.le_of_eq (congrArg List.length (mem_literal.mp hmore))

theorem unquote (hr : ∀ c ∈ rest.head?, c ≠ '@') :
    LongestMatch (some (.marker .unquote)) ['~'] rest := by
  refine ⟨mem_literal.mpr rfl, fun other more hmore hp => ?_⟩
  cases more with
  | nil => exact Nat.zero_le _
  | cons d ds =>
    obtain ⟨rfl, hds⟩ := List.cons_prefix_cons.mp hp
    obtain rfl | ⟨-, rfl⟩ := lexeme_of_mem_pattern hmore
    · exact Nat.le_of_eq (congrArg List.length (mem_literal.mp hmore))
    · have hmore : '~' :: ds = ['~', '@'] := mem_literal.mp hmore
      obtain ⟨-, rfl⟩ := List.cons.inj hmore
      obtain ⟨tail, rfl⟩ := hds
      exact absurd rfl (hr '@' (by simp))

/-- Two longest matches at one place are the same text, as the same lexeme. -/
theorem unique (h : LongestMatch lexeme text rest) (h' : LongestMatch lexeme' text' rest')
    (hsplit : text ++ rest = text' ++ rest') : lexeme = lexeme' ∧ text = text' ∧ rest = rest' := by
  have hle := h'.longest lexeme text h.matched (hsplit ▸ List.prefix_append text rest)
  have hge := h.longest lexeme' text' h'.matched (hsplit ▸ List.prefix_append text' rest')
  obtain ⟨rfl, rfl⟩ := List.append_inj hsplit (Nat.le_antisymm hle hge)
  exact ⟨lexeme_unique h.matched h'.matched, rfl, rfl⟩

end LongestMatch

theorem head?_dropWhile {p : Char → Bool} {cs : List Char} :
    ∀ c ∈ (cs.dropWhile p).head?, p c = false := by
  intro c hc
  have h := List.head?_dropWhile_not p cs
  rw [Option.mem_def.mp hc] at h
  simpa using h

/-- The first token of a text that begins with no separator is its longest match. -/
theorem Token.first_longest {c : Char} (hs : isSeparator c = false) (cs : List Char) :
    ∃ text, c :: cs = text ++ (Token.first c cs).2 ∧
      (Token.first c cs).1.text = String.ofList text ∧
      LongestMatch (some (Token.first c cs).1.sort) text (Token.first c cs).2 := by
  by_cases hw : isWordStart c = true
  · rw [Token.first_word hw]
    refine ⟨c :: cs.takeWhile isWordChar, by simp, rfl, ?_⟩
    refine .word hw (fun d hd => List.mem_takeWhile_imp hd) fun d hd => ?_
    exact not_not.mp fun h => by simpa [isWordChar_iff.mpr h] using head?_dropWhile d hd
  · unfold Token.first
    split
    case h_11 =>
      split
      · next ds => exact ⟨['~', '@'], rfl, rfl, .spliceUnquote ds⟩
      · next hne =>
        refine ⟨['~'], rfl, rfl, .unquote fun d hd => ?_⟩
        rintro rfl
        obtain ⟨ds, rfl⟩ := List.head?_eq_some_iff.mp hd
        exact hne ds rfl
    case h_12 =>
      obtain ⟨body, rest, rfl, hbody, hrest | ⟨ds, rfl⟩⟩ := exists_quotedBody cs
      · rw [quotedSpan_open hbody hrest]
        exact ⟨'"' :: body, rfl, rfl, .quoted_open hbody hrest⟩
      · rw [quotedSpan_closed hbody]
        exact ⟨'"' :: (body ++ ['"']), by simp, rfl, .quoted_closed hbody ds⟩
    case h_13 =>
      refine ⟨';' :: cs.takeWhile (· != '\n'), by simp, rfl, ?_⟩
      refine .comment (fun d hd => by simpa using List.mem_takeWhile_imp hd) fun d hd => ?_
      simpa using head?_dropWhile d hd
    case h_14 => exact absurd (by simp_all [isWordStart, isWordChar]) hw
    all_goals exact ⟨_, rfl, rfl, .of_literal (by decide) rfl cs⟩

/-- Some pattern matches at every place of a text, so no lexer finds a place where none does. -/
theorem exists_lexeme (c : Char) (cs : List Char) :
    ∃ (lexeme : Lexeme) (text : List Char),
      text ∈ lexeme.pattern ∧ text ≠ [] ∧ text <+: c :: cs := by
  by_cases hs : isSeparator c = true
  · have hgap : [c] ∈ gap := mem_gap.mpr ⟨by simp, by simpa using hs⟩
    exact ⟨none, [c], hgap, by simp, by simp [List.cons_prefix_cons]⟩
  · obtain ⟨text, hsplit, -, hlongest⟩ := Token.first_longest (Bool.eq_false_iff.mpr hs) cs
    exact ⟨_, text, hlongest.matched, hlongest.nonempty, hsplit ▸ List.prefix_append text _⟩

theorem tokensOf_gap {gap : List Char} (blank : ∀ c ∈ gap, isSeparator c = true)
    (rest : List Char) : tokensOf (gap ++ rest) = tokensOf rest := by
  induction gap with
  | nil => rfl
  | cons c gap ih =>
    obtain ⟨hc, hgap⟩ := List.forall_mem_cons.mp blank
    rw [List.cons_append, tokensOf_separator hc, ih hgap]

theorem isSeparator_of_mem_pattern {sort : TokenSort} {c : Char} {cs : List Char}
    (h : c :: cs ∈ sort.pattern) : isSeparator c = false := by
  cases hs : isSeparator c with
  | false => rfl
  | true =>
    have hgap : [c] ∈ Lexeme.pattern none := mem_gap.mpr ⟨by simp, by simpa using hs⟩
    have hsort : c :: cs ∈ Lexeme.pattern (some sort) := h
    obtain h | ⟨rfl, -⟩ := lexeme_of_mem_pattern hsort
    · obtain h' | ⟨-, h'⟩ := lexeme_of_mem_pattern hgap
      · exact nomatch h.trans h'.symm
      · exact nomatch h'
    · exact absurd hs (by decide)

theorem LongestMatch.tokensOf {sort : TokenSort} {text rest : List Char}
    (h : LongestMatch (some sort) text rest) :
    tokensOf (text ++ rest) = ⟨sort, String.ofList text⟩ :: tokensOf rest := by
  obtain ⟨c, cs, rfl⟩ := List.exists_cons_of_ne_nil h.nonempty
  have hs := isSeparator_of_mem_pattern h.matched
  obtain ⟨text, hsplit, htext, hfirst⟩ := Token.first_longest hs (cs ++ rest)
  obtain ⟨hsort, rfl, hrest⟩ := h.unique hfirst hsplit
  rw [List.cons_append, tokensOf_cons hs, ← hrest, ← htext, Option.some.inj hsort]

theorem Lexes.eq_tokensOf {cs : List Char} {ts : List Token} (h : Lexes cs ts) :
    ts = tokensOf cs := by
  induction h with
  | done => exact tokensOf_nil.symm
  | skip longest _ ih => rw [tokensOf_gap (mem_gap.mp longest.matched).2, ih]
  | token longest _ ih => rw [longest.tokensOf, ih]
  | @unmatched text rest _ nonempty unmatched _ _ =>
    obtain ⟨c, cs, rfl⟩ := List.exists_cons_of_ne_nil nonempty
    obtain ⟨lexeme, more, hmore, -, hp⟩ := exists_lexeme c (cs ++ rest)
    exact absurd hp (unmatched lexeme more hmore)

theorem lexes_tokensOf (cs : List Char) : Lexes cs (tokensOf cs) := by
  induction hn : cs.length using Nat.strong_induction_on generalizing cs with
  | _ n ih =>
    subst hn
    cases cs with
    | nil => exact tokensOf_nil ▸ .done
    | cons c cs =>
      by_cases hs : isSeparator c = true
      · have hsplit := List.takeWhile_append_dropWhile (p := isSeparator) (l := c :: cs)
        have blank : ∀ d ∈ (c :: cs).takeWhile isSeparator, isSeparator d = true :=
          fun d hd => List.mem_takeWhile_imp hd
        have hrest : ((c :: cs).dropWhile isSeparator).length < (c :: cs).length := by
          rw [List.dropWhile_cons_of_pos hs]
          exact Nat.lt_succ_of_le (length_dropWhile_le isSeparator cs)
        have hlexes := ih _ hrest _ rfl
        have hhead : ∀ d ∈ ((c :: cs).dropWhile isSeparator).head?, isSeparator d = false :=
          head?_dropWhile
        have hlongest : LongestMatch none _ _ := .gap (by simp [hs]) blank hhead
        have hskip := Lexes.skip hlongest hlexes
        rwa [hsplit, ← tokensOf_gap blank, hsplit] at hskip
      · have hs := Bool.eq_false_iff.mpr hs
        obtain ⟨text, hsplit, htext, hlongest⟩ := Token.first_longest hs cs
        have hlexes := ih _ (Nat.lt_succ_of_le (Token.first_length c cs)) _ rfl
        have hlexes := Lexes.token hlongest hlexes
        rwa [← htext, ← hsplit, ← tokensOf_cons hs] at hlexes

namespace MaximalMunch

variable {cs : List Char} {ts : List Token}

theorem skip {gap : List Char} (blank : ∀ c ∈ gap, isSeparator c = true) (h : MaximalMunch cs ts) :
    MaximalMunch (gap ++ cs) ts := by
  cases h with
  | done blank' => exact .done fun c hc => (List.mem_append.mp hc).elim (blank c) (blank' c)
  | token blank' nonempty longest only more =>
    rw [← List.append_assoc, ← List.append_assoc]
    have hgap := fun c hc => (List.mem_append.mp hc).elim (blank c) (blank' c)
    exact .token hgap nonempty longest only more

theorem of_lexes (h : Lexes cs ts) : MaximalMunch cs ts := by
  induction h with
  | done => exact .done (by simp)
  | skip longest _ ih => exact ih.skip (mem_gap.mp longest.matched).2
  | token longest _ ih =>
    have only (lexeme : Lexeme) (hmem : _ ∈ lexeme.pattern) := lexeme_unique hmem longest.matched
    have hgap : ∀ c ∈ ([] : List Char), isSeparator c = true := List.forall_mem_nil _
    exact .token hgap longest.nonempty longest only ih
  | @unmatched text rest _ nonempty unmatched _ _ =>
    obtain ⟨c, cs, rfl⟩ := List.exists_cons_of_ne_nil nonempty
    obtain ⟨lexeme, more, hmore, -, hp⟩ := exists_lexeme c (cs ++ rest)
    exact absurd hp (unmatched lexeme more hmore)

theorem eq_tokensOf (h : MaximalMunch cs ts) : ts = tokensOf cs := by
  induction h with
  | done blank => simpa using (tokensOf_gap blank []).symm
  | token blank _ longest _ _ ih =>
    rw [List.append_assoc, tokensOf_gap blank, longest.tokensOf, ih]

end MaximalMunch

/-- The tokens of a text are its only maximal munch, and whatever a lexer is free to do, it finds these
tokens, because some pattern matches everywhere. `~@` is one token. A word goes on through `~`, `^` and
`@`, but begins with none of them. A quoted token without a closing quote ends in front of a backslash
that the line or the text ends after. -/
theorem tokenize_maximalMunch (source : String) :
    (∀ ts, MaximalMunch source.toList ts ↔ ts = tokenize source) ∧
    (∀ ts, Lexes source.toList ts ↔ ts = tokenize source) ∧
    (∀ c cs, ∃ (lexeme : Lexeme) (text : List Char),
      text ∈ lexeme.pattern ∧ text ≠ [] ∧ text <+: c :: cs) ∧
    (∀ rest, tokensOf ('~' :: '@' :: rest) = ⟨.marker .spliceUnquote, "~@"⟩ :: tokensOf rest) ∧
    (∀ c cs rest, ¬ EndsWord c → c ∉ ['~', '^', '@'] → (∀ d ∈ cs, d ∈ ['~', '^', '@'] ∨ ¬ EndsWord d) →
      Stops rest → tokensOf (c :: cs ++ rest) = ⟨.word, .ofList (c :: cs)⟩ :: tokensOf rest) ∧
    (∀ body rest, QuotedBody body → rest = [] ∨ rest = ['\\'] ∨ (∃ cs, rest = '\\' :: '\n' :: cs) →
      tokensOf ('"' :: body ++ rest) = ⟨.quoted, .ofList ('"' :: body)⟩ :: tokensOf rest) := by
  refine ⟨fun ts => ⟨?_, ?_⟩, fun ts => ⟨?_, ?_⟩, exists_lexeme, ?_, ?_, ?_⟩
  · exact MaximalMunch.eq_tokensOf
  · rintro rfl
    exact .of_lexes (lexes_tokensOf source.toList)
  · exact Lexes.eq_tokensOf
  · rintro rfl
    exact lexes_tokensOf source.toList
  · exact fun rest => (LongestMatch.spliceUnquote rest).tokensOf
  · intro c cs rest hc hmark hcs hr
    have hword : ∀ d ∈ cs, isWordChar d = true := by
      intro d hd
      refine isWordChar_iff.mpr ((hcs d hd).elim (fun hmark => ?_) id)
      simp only [List.mem_cons, List.not_mem_nil, or_false] at hmark
      rcases hmark with rfl | rfl | rfl <;> decide
    exact (LongestMatch.word (isWordStart_iff.mpr ⟨hc, hmark⟩) hword hr).tokensOf
  · exact fun body rest hbody hr => (LongestMatch.quoted_open hbody hr).tokensOf

/-- A word that goes on through `~`, a quoted token that is not closed, and a backslash that the text
ends after. -/
theorem tokenize_maximalMunch_unclosed :
    let source := "a~\"b\\"
    let ts : List Token := [⟨.word, "a~"⟩, ⟨.quoted, "\"b"⟩, ⟨.word, "\\"⟩]
    (¬ EndsWord 'a' ∧ 'a' ∉ ['~', '^', '@'] ∧ (∀ d ∈ ['~'], d ∈ ['~', '^', '@'] ∨ ¬ EndsWord d) ∧
      Stops ['"', 'b', '\\']) ∧
    QuotedBody ['b'] ∧ tokenize source = ts ∧ MaximalMunch source.toList ts := by
  intro source ts
  obtain ⟨hmunch, -, -, -, hword, hquoted⟩ := tokenize_maximalMunch source
  have hstops : Stops ['"', 'b', '\\'] := stops_cons (.inr (by decide)) _
  have hbody : QuotedBody ['b'] := .plain (by decide) (by decide) .nil
  have hlist : source.toList = ['a', '~', '"', 'b', '\\'] := by decide
  have hfirst := hword 'a' ['~'] ['"', 'b', '\\'] (by decide) (by decide) (by simp) hstops
  have hsecond := hquoted ['b'] ['\\'] hbody (.inr (.inl rfl))
  have hthird := hword '\\' [] [] (by decide) (by decide) (by simp) stops_nil
  have htokens : tokenize source = ts := by
    rw [tokenize_eq, hlist]
    refine hfirst.trans ?_
    rw [List.cons_append, List.singleton_append] at hsecond
    rw [hsecond, ← List.append_nil ['\\'], hthird, tokensOf_nil]
  refine ⟨⟨by decide, by decide, by simp, hstops⟩, hbody, htokens, ?_⟩
  exact (hmunch ts).mpr htokens.symm

end Lisp
