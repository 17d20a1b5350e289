import Lisp.Proofs.ReadValues

/-! Tokens written as a text again, with any separators around them. Such a text is cut into the
same tokens, so a reader can not tell how they were set apart. -/

namespace Lisp

open Pattern (QuotedBody)

/-- A token and the separators that are written after it. After a comment, a new line has to begin.
-/
structure Placed where
  token : Token
  gap : String
  blank : ∀ c ∈ gap.toList, isSeparator c = true
  line : token.isComment = true → ∀ c ∈ gap.toList.head?, c = '\n'

def Placed.text (p : Placed) : String :=
  p.token.text ++ p.gap

/-- A way to write tokens down: what stands before all of them, and each with what stands after it.
Any two tokens are set apart. -/
structure Layout (ts : List Token) where
  lead : String
  blank : ∀ c ∈ lead.toList, isSeparator c = true
  placed : List Placed
  tokens : placed.map Placed.token = ts
  apart : ∀ p ∈ placed.dropLast, p.gap ≠ ""

def Layout.text {ts : List Token} (l : Layout ts) : String :=
  l.lead ++ String.join (l.placed.map Placed.text)

/-- Each token on a line of its own. -/
def Layout.lines (ts : List Token) : Layout ts where
  lead := ""
  blank := by simp
  placed := ts.map fun t => ⟨t, "\n", by simp; decide, by simp⟩
  tokens := by simp [Function.comp_def]
  apart := by
    intro p hp
    obtain ⟨t, -, rfl⟩ := List.mem_map.mp (List.mem_of_mem_dropLast hp)
    exact (by decide : "\n" ≠ "")

/-- The text of this token is one that is cut out as a token of its sort, whatever separators come
after it. -/
structure Token.Whole (t : Token) : Prop where
  fits : t.Fits
  closed : t.sort = .quoted → Closed t.text.toList

theorem Token.Whole.longestMatch {t : Token} (h : t.Whole) {rest : List Char}
    (separated : ∀ c ∈ rest.head?, isSeparator c = true)
    (line : t.isComment = true → ∀ c ∈ rest.head?, c = '\n') :
    LongestMatch (some t.sort) t.text.toList rest := by
  refine .of_endsBefore h.fits (TokenSort.endsBefore_separator h.closed separated fun hsort => ?_)
  exact line (isComment_eq_true.mpr hsort)

theorem toList_join_placed (p : Placed) (ps : List Placed) :
    (String.join ((p :: ps).map Placed.text)).toList =
      p.token.text.toList ++ (p.gap.toList ++ (String.join (ps.map Placed.text)).toList) := by
  simp [Placed.text]

theorem tokensOf_placed {ps : List Placed} (whole : ∀ p ∈ ps, p.token.Whole)
    (apart : ∀ p ∈ ps.dropLast, p.gap ≠ "") :
    tokensOf (String.join (ps.map Placed.text)).toList = ps.map Placed.token := by
  induction ps with
  | nil => simp
  | cons p ps ih =>
    obtain ⟨hp, hps⟩ := List.forall_mem_cons.mp whole
    have hmore : ∀ q ∈ ps.dropLast, q.gap ≠ "" := by
      intro q hq
      cases ps with
      | nil => simp at hq
      | cons r ps => exact apart q (by simp [hq])
    -- What follows the token begins with its separators, or the text ends.
    have hhead : ∀ c ∈ (p.gap.toList ++ (String.join (ps.map Placed.text)).toList).head?,
        c ∈ p.gap.toList.head? := by
      intro c hc
      by_cases hgap : p.gap.toList = []
      · cases ps with
        | nil => simp [hgap] at hc
        | cons q ps => exact absurd (String.toList_eq_nil_iff.mp hgap) (apart p (by simp))
      · rwa [List.head?_append_of_ne_nil _ hgap] at hc
    have hlongest := hp.longestMatch (fun c hc => p.blank c (List.mem_of_mem_head? (hhead c hc)))
      fun hcomment c hc => p.line hcomment c (hhead c hc)
    rw [toList_join_placed, hlongest.tokensOf, tokensOf_gap p.blank, ih hps hmore,
      String.ofList_toList, List.map_cons]

theorem Layout.tokenize_text {ts : List Token} (whole : ∀ t ∈ ts, t.Whole) (l : Layout ts) :
    tokenize l.text = ts := by
  have hplaced : ∀ p ∈ l.placed, p.token.Whole := by
    intro p hp
    exact whole p.token (l.tokens ▸ List.mem_map_of_mem hp)
  rw [tokenize_eq, Layout.text, String.toList_append, tokensOf_gap l.blank,
    tokensOf_placed hplaced l.apart, l.tokens]

/-- However the tokens of a text are laid out again, they are cut out as they were, and what is read
from them is the same. -/
theorem tokenize_layout {source : String}
    (closed : ∀ t ∈ tokenize source, t.sort = .quoted → Closed t.text.toList)
    (l : Layout (tokenize source)) :
    tokenize l.text = tokenize source ∧
      ∀ n, readTimes n (tokenize l.text) = readTimes n (tokenize source) := by
  have htokens : tokenize l.text = tokenize source :=
    l.tokenize_text fun t ht => ⟨mem_pattern_of_mem_tokensOf ht, closed t ht⟩
  exact ⟨htokens, fun n => by rw [htokens]⟩

/-- A word with `~` in it, a quoted token with a quote in it, a comment and two marks, set apart by
commas and blanks of several kinds. -/
theorem tokenize_layout_mixed :
    let source := "(a~\"b\\\"c\";d\n~ @x)"
    let text := ",(\u00a0a~,\"b\\\"c\"\t;d\n,~ @\rx\u2003)"
    (∀ t ∈ tokenize source, t.sort = .quoted → Closed t.text.toList) ∧
      (∃ l : Layout (tokenize source), l.text = text) ∧ tokenize text = tokenize source ∧
        ∀ n, readTimes n (tokenize text) = readTimes n (tokenize source) := by
  intro source text
  have htokens : tokenize source = [⟨.opening .round, "("⟩, ⟨.word, "a~"⟩, ⟨.quoted, "\"b\\\"c\""⟩,
      ⟨.comment, ";d"⟩, ⟨.marker .unquote, "~"⟩, ⟨.marker .deref, "@"⟩, ⟨.word, "x"⟩,
      ⟨.closing .round, ")"⟩] := by
    decide +kernel
  have hbody : QuotedBody ['b', '\\', '"', 'c'] :=
    .plain (by decide) (by decide) (.escaped (by decide) (.plain (by decide) (by decide) .nil))
  have closed : ∀ t ∈ tokenize source, t.sort = .quoted → Closed t.text.toList := by
    rw [htokens]
    simp only [List.forall_mem_cons, reduceCtorEq, false_implies, true_and]
    exact ⟨fun _ => ⟨_, by decide, hbody⟩, by simp⟩
  let l : Layout (tokenize source) := {
    lead := ","
    blank := List.all_eq_true.mp rfl
    placed := [⟨⟨.opening .round, "("⟩, "\u00a0", List.all_eq_true.mp rfl, nofun⟩,
      ⟨⟨.word, "a~"⟩, ",", List.all_eq_true.mp rfl, nofun⟩,
      ⟨⟨.quoted, "\"b\\\"c\""⟩, "\t", List.all_eq_true.mp rfl, nofun⟩,
      ⟨⟨.comment, ";d"⟩, "\n,", List.all_eq_true.mp rfl, by rintro - _ ⟨⟩; rfl⟩,
      ⟨⟨.marker .unquote, "~"⟩, " ", List.all_eq_true.mp rfl, nofun⟩,
      ⟨⟨.marker .deref, "@"⟩, "\r", List.all_eq_true.mp rfl, nofun⟩,
      ⟨⟨.word, "x"⟩, "\u2003", List.all_eq_true.mp rfl, nofun⟩,
      ⟨⟨.closing .round, ")"⟩, "", List.all_eq_true.mp rfl, nofun⟩]
    tokens := by rw [htokens]; rfl
    apart := by decide }
  have htext : l.text = text := rfl
  obtain ⟨hsame, hreads⟩ := tokenize_layout closed l
  rw [htext] at hsame hreads
  exact ⟨closed, ⟨l, htext⟩, hsame, hreads⟩

end Lisp
