import Lisp.Proofs.GrammarReading
import Lisp.Proofs.TokenTexts

/-! What is read from a text is a literal: its symbols and keywords are readable, and its maps have distinct
keys. -/

namespace Lisp

open Pattern

/-- The text of this token is one that a token of its sort can have. -/
def Token.Fits (t : Token) : Prop :=
  t.text.toList ∈ t.sort.pattern

theorem Token.Fits.word {t : Token} (h : t.Fits) (sort : t.IsScalar)
    (noQuote : t.text.toList.head? ≠ some '"') : t.text = "^" ∨ t.text.toList ∈ TokenSort.word.pattern := by
  obtain hsort | hsort | hsort := sort <;> rw [Fits, hsort] at h
  · exact .inl (String.toList_inj.mp (mem_literal.mp h))
  · obtain ⟨body, last, htext, -⟩ := mem_quoted.mp h
    exact absurd (by rw [htext]; rfl) noQuote
  · exact .inr h

theorem readableSymbol_of_word {name : String} (h : name.toList ∈ TokenSort.word.pattern)
    (noConstant : name ≠ "nil" ∧ name ≠ "true" ∧ name ≠ "false")
    (noNumeral : ∀ n, ¬ Numeral.Denotes name.toList n)
    (noKeyword : name = ":" ∨ name.toList.head? ≠ some ':') : ReadableSymbol name := by
  obtain rfl | noColon := noKeyword
  · exact .inr (.inl rfl)
  obtain ⟨c, cs, hname, hc, hcs⟩ := mem_word.mp h
  obtain ⟨hends, hmark⟩ := isWordStart_iff.mp hc
  have hnumeral : ¬ Numeral.IsNumeral name.toList :=
    fun h => not_exists.mpr noNumeral (Numeral.isNumeral_iff.mp h)
  have hcolon : c ≠ ':' := by
    rintro rfl
    exact noColon (by rw [hname]; rfl)
  obtain ⟨hn, ht, hf⟩ := noConstant
  exact .inr (.inr ⟨hn, ht, hf, hnumeral, c, cs, hname, hcolon, hmark, hends,
    fun d hd => isWordChar_iff.mp (hcs d hd)⟩)

/-- A token that stands for something stands for a literal. -/
theorem Classifies.literal {t : Token} {v : Value} (h : Classifies t.text v) (sort : t.IsScalar)
    (fits : t.Fits) : Literal v := by
  generalize htext : t.text = text at h
  cases h with
  | nil => exact .nil
  | true => exact .bool _
  | false => exact .bool _
  | int => exact .int _
  | str => exact .str _
  | @keyword name nonempty =>
    have hlist : t.text.toList = ':' :: name.toList := by simp [htext]
    obtain hcaret | hword := fits.word sort (by simp [hlist])
    · rw [hcaret] at hlist
      exact absurd (List.cons.inj hlist).1 (by decide)
    · obtain ⟨c, cs, hcs, -, hchars⟩ := mem_word.mp hword
      rw [hlist] at hcs
      obtain ⟨-, rfl⟩ := List.cons.inj hcs
      exact .keyword ⟨nonempty, fun d hd => isWordChar_iff.mp (hchars d hd)⟩
  | symbol noConstant noNumeral noQuote noKeyword =>
    obtain hcaret | hword := fits.word sort (by rwa [htext])
    · exact .symbol (.inl (htext ▸ hcaret))
    · exact .symbol (readableSymbol_of_word (htext ▸ hword) noConstant noNumeral noKeyword)

theorem Marker.readableSymbol (m : Marker) : ReadableSymbol m.symbolName := by
  have hword : m.symbolName.toList ∈ TokenSort.word.pattern := by
    cases m <;> exact mem_word.mpr ⟨_, _, rfl, by decide, List.all_eq_true.mp (by decide)⟩
  have hnumeral : Numeral.value? m.symbolName.toList = none := by cases m <;> decide
  have noNumeral (n : Int) (h : Numeral.Denotes m.symbolName.toList n) : False :=
    nomatch h.value?.symm.trans hnumeral
  have hconstant : m.symbolName ≠ "nil" ∧ m.symbolName ≠ "true" ∧ m.symbolName ≠ "false" := by
    cases m <;> decide
  have hcolon : m.symbolName.toList.head? ≠ some ':' := by cases m <;> decide
  exact readableSymbol_of_word hword hconstant noNumeral (.inr hcolon)

theorem Bracket.Holds.literal {b : Bracket} {forms : List Value} {v : Value} (h : b.Holds forms v)
    (hforms : ∀ form ∈ forms, Literal form) : Literal v := by
  cases h with
  | round => exact .list hforms
  | square => exact .vector hforms
  | @curly pairs =>
    have hpair (p : Value × Value) (hp : p ∈ pairs) : p.1 ∈ Value.forms pairs ∧ p.2 ∈ Value.forms pairs :=
      ⟨List.mem_flatMap.mpr ⟨p, hp, by simp⟩, List.mem_flatMap.mpr ⟨p, hp, by simp⟩⟩
    exact .map (fun p hp => hforms _ (hpair p hp).1) fun p hp => hforms _ (hpair p hp).2

mutual

theorem Derives.literal {used rest : List Token} {v : Value} (h : Derives used rest v)
    (fits : ∀ t ∈ used, t.Fits) : Literal v := by
  match h with
  | .scalar sort means => exact means.literal sort (fits _ List.mem_cons_self)
  | @Derives.bracket opener closer b used rest forms v opens closes elements holds =>
    have hused : ∀ t ∈ used, t.Fits :=
      fun t ht => fits t (List.mem_cons_of_mem _ (List.mem_append_left _ ht))
    exact holds.literal (elements.literal hused)
  | @Derives.marker t m used rest form sort body =>
    have hbody := body.literal fun t ht => fits t (List.mem_cons_of_mem _ ht)
    refine .list (List.forall_mem_cons.mpr ⟨.symbol m.readableSymbol, ?_⟩)
    exact List.forall_mem_singleton.mpr hbody
  | .comments nonempty comments maximal => exact .nil
termination_by structural h

theorem DerivesAll.literal {used rest : List Token} {forms : List Value}
    (h : DerivesAll used rest forms) (fits : ∀ t ∈ used, t.Fits) : ∀ v ∈ forms, Literal v := by
  match h with
  | .nil => exact List.forall_mem_nil _
  | .comment comment tail => exact tail.literal fun t ht => fits t (List.mem_cons_of_mem _ ht)
  | .form noComment head tail =>
    have hhead := head.literal fun t ht => fits t (List.mem_append_left _ ht)
    exact List.forall_mem_cons.mpr
      ⟨hhead, tail.literal fun t ht => fits t (List.mem_append_right _ ht)⟩
termination_by structural h

end

/-- A text is read as a literal, unless it is read as the end. -/
theorem read_literal {source : String} {v : Value} (h : read source = .ok v) :
    v = .eof ∨ Literal v := by
  have hread : readForm (tokenize source) = (.ok v, (readForm (tokenize source)).2) := Prod.ext h rfl
  obtain hnil | ⟨used, happ, hform⟩ := derives_of_readForm hread
  · rw [read, hnil] at h
    exact .inl (Except.ok.inj h).symm
  · have hused (t : Token) (ht : t ∈ used) : t.Fits :=
      mem_pattern_of_mem_tokensOf (happ ▸ List.mem_append_left _ ht)
    exact .inr (hform.literal hused)

end Lisp
