import Lisp.Proofs.Pattern

/-! How far a quoted token goes: over all pieces that can follow one another, and over the closing
quote if there is one after them. -/

namespace Lisp

open Pattern (QuotedBody)

/-- The text begins with no piece of a quoted token, and with no quote either. -/
def QuoteStops (cs : List Char) : Prop :=
  cs = [] ∨ cs = ['\\'] ∨ ∃ ds, cs = '\\' :: '\n' :: ds

theorem quotedSpan_body {body : List Char} (h : QuotedBody body) (taken rest : List Char) :
    quotedSpan taken (body ++ rest) = quotedSpan (body.reverse ++ taken) rest := by
  induction h generalizing taken with
  | nil => rfl
  | plain hq hb _ ih =>
    rw [List.cons_append, quotedSpan_plain hb hq, ih]
    simp
  | escaped hc _ ih =>
    rw [List.cons_append, List.cons_append, quotedSpan_escaped hc, ih]
    simp

theorem quotedSpan_closed {body : List Char} (h : QuotedBody body) (rest : List Char) :
    quotedSpan [] (body ++ '"' :: rest) = (body ++ ['"'], rest) := by
  rw [quotedSpan_body h]
  simp [quotedSpan]

theorem quotedSpan_open {body rest : List Char} (h : QuotedBody body) (hr : QuoteStops rest) :
    quotedSpan [] (body ++ rest) = (body, rest) := by
  rw [quotedSpan_body h]
  rcases hr with rfl | rfl | ⟨ds, rfl⟩ <;> simp [quotedSpan]

theorem exists_quotedBody (cs : List Char) :
    ∃ body rest, cs = body ++ rest ∧ QuotedBody body ∧ (QuoteStops rest ∨ ∃ ds, rest = '"' :: ds) := by
  match cs with
  | [] => exact ⟨[], [], rfl, .nil, .inl (.inl rfl)⟩
  | [c] =>
    by_cases hq : c = '"'
    · exact ⟨[], [c], rfl, .nil, .inr ⟨[], by rw [hq]⟩⟩
    · by_cases hb : c = '\\'
      · exact ⟨[], [c], rfl, .nil, .inl (.inr (.inl (by rw [hb])))⟩
      · exact ⟨[c], [], rfl, .plain hq hb .nil, .inl (.inl rfl)⟩
  | c :: d :: ds =>
    by_cases hq : c = '"'
    · exact ⟨[], _, rfl, .nil, .inr ⟨d :: ds, by rw [hq]⟩⟩
    · by_cases hb : c = '\\'
      · subst hb
        by_cases hd : d = '\n'
        · exact ⟨[], _, rfl, .nil, .inl (.inr (.inr ⟨ds, by rw [hd]⟩))⟩
        · obtain ⟨body, rest, rfl, hbody, hrest⟩ := exists_quotedBody ds
          exact ⟨'\\' :: d :: body, rest, rfl, .escaped hd hbody, hrest⟩
      · obtain ⟨body, rest, hsplit, hbody, hrest⟩ := exists_quotedBody (d :: ds)
        exact ⟨c :: body, rest, by rw [hsplit, List.cons_append], .plain hq hb hbody, hrest⟩

/-- Pieces that begin a text of pieces in front of a quote or of what stops them are its first
pieces. -/
theorem prefix_of_quotedBody {body more rest : List Char} (h : QuotedBody body)
    (hr : QuoteStops rest ∨ ∃ ds, rest = '"' :: ds) (hmore : QuotedBody more)
    (hp : more <+: body ++ rest) : more <+: body := by
  induction h generalizing more with
  | nil =>
    rw [List.nil_append] at hp
    cases hmore with
    | nil => exact List.nil_prefix
    | plain hq hb =>
      rcases hr with (rfl | rfl | ⟨ds, rfl⟩) | ⟨ds, rfl⟩
      · simp at hp
      · exact absurd (List.cons_prefix_cons.mp hp).1 hb
      · exact absurd (List.cons_prefix_cons.mp hp).1 hb
      · exact absurd (List.cons_prefix_cons.mp hp).1 hq
    | escaped hc =>
      rcases hr with (rfl | rfl | ⟨ds, rfl⟩) | ⟨ds, rfl⟩
      · simp at hp
      · simp [List.cons_prefix_cons] at hp
      · simp only [List.cons_prefix_cons] at hp
        exact absurd hp.2.1 hc
      · exact absurd (List.cons_prefix_cons.mp hp).1 (by decide)
  | plain hq hb _ ih =>
    cases hmore with
    | nil => exact List.nil_prefix
    | plain _ _ htail =>
      obtain ⟨rfl, htail'⟩ := List.cons_prefix_cons.mp hp
      exact List.cons_prefix_cons.mpr ⟨rfl, ih htail htail'⟩
    | escaped _ _ => exact absurd (List.cons_prefix_cons.mp hp).1.symm hb
  | escaped hc _ ih =>
    cases hmore with
    | nil => exact List.nil_prefix
    | plain _ hb _ => exact absurd (List.cons_prefix_cons.mp hp).1 hb
    | escaped _ htail =>
      simp only [List.cons_append, List.cons_prefix_cons, true_and] at hp ⊢
      exact ⟨hp.1, ih htail hp.2⟩

end Lisp
