import Lisp.Proofs.Lexing
import Mathlib.Computability.Language

/-! The patterns of tokens, as languages of texts: what a token of each sort may look like, and what
may be left out between tokens. -/

namespace Lisp

open Computability

namespace Pattern

/-- The texts of one character of a class. -/
def single (p : Char → Prop) : Language Char :=
  {cs | ∃ c, p c ∧ cs = [c]}

theorem mem_single {p : Char → Prop} {cs : List Char} :
    cs ∈ single p ↔ ∃ c, p c ∧ cs = [c] := Iff.rfl

theorem mem_single_kstar {p : Char → Prop} {cs : List Char} :
    cs ∈ (single p)∗ ↔ ∀ c ∈ cs, p c := by
  rw [Language.mem_kstar]
  constructor
  · rintro ⟨pieces, rfl, h⟩ c hc
    obtain ⟨piece, hpiece, hc⟩ := List.mem_flatten.mp hc
    obtain ⟨d, hd, rfl⟩ := h piece hpiece
    rwa [List.mem_singleton.mp hc]
  · intro h
    refine ⟨cs.map ([·]), (List.flatMap_singleton' cs).symm, fun piece hpiece => ?_⟩
    obtain ⟨c, hc, rfl⟩ := List.mem_map.mp hpiece
    exact ⟨c, h c hc, rfl⟩

theorem mem_literal {cs ds : List Char} : cs ∈ ({ds} : Language Char) ↔ cs = ds := Iff.rfl

/-- Blanks and commas, at least one. -/
def gap : Language Char :=
  single (isSeparator · = true) * (single (isSeparator · = true))∗

/-- What stands in a quoted token after its opening quote: characters other than quotes and
backslashes, and backslashes together with a character that does not end the line. -/
def quotedPiece : Language Char :=
  single (fun c => c ≠ '"' ∧ c ≠ '\\') + {['\\']} * single (· ≠ '\n')

end Pattern

open Pattern

def Marker.sign : Marker → List Char
  | .quote => ['\'']
  | .quasiquote => ['`']
  | .unquote => ['~']
  | .spliceUnquote => ['~', '@']
  | .deref => ['@']

def TokenSort.pattern : TokenSort → Language Char
  | .opening b => {[b.opener]}
  | .closing b => {[b.closer]}
  | .marker m => {m.sign}
  | .caret => {['^']}
  | .quoted => {['"']} * quotedPiece∗ * ({['"']} + 1)
  | .comment => {[';']} * (single (· ≠ '\n'))∗
  | .word => single (fun c => ¬ EndsWord c ∧ c ∉ ['~', '^', '@']) * (single (¬ EndsWord ·))∗

namespace Pattern

theorem mem_comment {cs : List Char} :
    cs ∈ TokenSort.comment.pattern ↔ ∃ ds, cs = ';' :: ds ∧ ∀ d ∈ ds, d ≠ '\n' := by
  simp only [TokenSort.pattern, Language.mem_mul, mem_literal, mem_single_kstar]
  constructor
  · rintro ⟨_, rfl, ds, hds, rfl⟩
    exact ⟨ds, rfl, hds⟩
  · rintro ⟨ds, rfl, hds⟩
    exact ⟨_, rfl, ds, hds, rfl⟩

theorem mem_word {cs : List Char} :
    cs ∈ TokenSort.word.pattern ↔
      ∃ c ds, cs = c :: ds ∧ isWordStart c = true ∧ ∀ d ∈ ds, isWordChar d = true := by
  simp only [TokenSort.pattern, Language.mem_mul, mem_single, mem_single_kstar, isWordStart_iff,
    isWordChar_iff]
  constructor
  · rintro ⟨_, ⟨c, hc, rfl⟩, ds, hds, rfl⟩
    exact ⟨c, ds, rfl, hc, hds⟩
  · rintro ⟨c, ds, rfl, hc, hds⟩
    exact ⟨_, ⟨c, hc, rfl⟩, ds, hds, rfl⟩

theorem mem_gap {cs : List Char} :
    cs ∈ gap ↔ cs ≠ [] ∧ ∀ c ∈ cs, isSeparator c = true := by
  simp only [gap, Language.mem_mul, mem_single, mem_single_kstar]
  constructor
  · rintro ⟨_, ⟨c, hc, rfl⟩, ds, hds, rfl⟩
    exact ⟨by simp, List.forall_mem_cons.mpr ⟨hc, hds⟩⟩
  · rintro ⟨hne, h⟩
    obtain ⟨c, ds, rfl⟩ := List.exists_cons_of_ne_nil hne
    obtain ⟨hc, hds⟩ := List.forall_mem_cons.mp h
    exact ⟨_, ⟨c, hc, rfl⟩, ds, hds, rfl⟩

/-- The pieces of a quoted token one after the other. -/
inductive QuotedBody : List Char → Prop
  | nil : QuotedBody []
  | plain {c : Char} {cs : List Char} (hq : c ≠ '"') (hb : c ≠ '\\') (more : QuotedBody cs) :
    QuotedBody (c :: cs)
  | escaped {c : Char} {cs : List Char} (hc : c ≠ '\n') (more : QuotedBody cs) :
    QuotedBody ('\\' :: c :: cs)

theorem mem_quotedPiece {cs : List Char} :
    cs ∈ quotedPiece ↔
      (∃ c, (c ≠ '"' ∧ c ≠ '\\') ∧ cs = [c]) ∨ ∃ c, c ≠ '\n' ∧ cs = ['\\', c] := by
  simp only [quotedPiece, Language.mem_add, Language.mem_mul, mem_literal, mem_single]
  refine or_congr Iff.rfl ⟨?_, ?_⟩
  · rintro ⟨_, rfl, _, ⟨c, hc, rfl⟩, rfl⟩
    exact ⟨c, hc, rfl⟩
  · rintro ⟨c, hc, rfl⟩
    exact ⟨_, rfl, _, ⟨c, hc, rfl⟩, rfl⟩

theorem mem_quotedPiece_kstar {cs : List Char} : cs ∈ quotedPiece∗ ↔ QuotedBody cs := by
  rw [Language.mem_kstar]
  constructor
  · rintro ⟨pieces, rfl, h⟩
    induction pieces with
    | nil => exact .nil
    | cons piece pieces ih =>
      obtain ⟨hpiece, hpieces⟩ := List.forall_mem_cons.mp h
      have hmore := ih hpieces
      obtain ⟨c, ⟨hq, hb⟩, rfl⟩ | ⟨c, hc, rfl⟩ := mem_quotedPiece.mp hpiece
      · exact .plain hq hb hmore
      · exact .escaped hc hmore
  · intro h
    induction h with
    | nil => exact ⟨[], rfl, by simp⟩
    | @plain c cs hq hb _ ih =>
      obtain ⟨pieces, rfl, hpieces⟩ := ih
      have hpiece : [c] ∈ quotedPiece := mem_quotedPiece.mpr (.inl ⟨c, ⟨hq, hb⟩, rfl⟩)
      exact ⟨[c] :: pieces, rfl, List.forall_mem_cons.mpr ⟨hpiece, hpieces⟩⟩
    | @escaped c cs hc _ ih =>
      obtain ⟨pieces, rfl, hpieces⟩ := ih
      have hpiece : ['\\', c] ∈ quotedPiece := mem_quotedPiece.mpr (.inr ⟨c, hc, rfl⟩)
      exact ⟨['\\', c] :: pieces, rfl, List.forall_mem_cons.mpr ⟨hpiece, hpieces⟩⟩

theorem mem_quoted {cs : List Char} :
    cs ∈ TokenSort.quoted.pattern ↔
      ∃ body last, cs = '"' :: (body ++ last) ∧ QuotedBody body ∧ (last = ['"'] ∨ last = []) := by
  simp only [TokenSort.pattern, Language.mem_mul, Language.mem_add, Language.mem_one, mem_literal,
    mem_quotedPiece_kstar]
  constructor
  · rintro ⟨_, ⟨_, rfl, body, hbody, rfl⟩, last, hlast, rfl⟩
    exact ⟨body, last, rfl, hbody, hlast⟩
  · rintro ⟨body, last, rfl, hbody, hlast⟩
    exact ⟨_, ⟨_, rfl, body, hbody, rfl⟩, last, hlast, rfl⟩

end Pattern

end Lisp
