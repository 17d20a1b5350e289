import Lisp.Proofs.Sourced

/-! Which values are read from texts, and that a value which was read is read again from its own text. -/

namespace Lisp

open Value

/-- A value that some text is read as. Of two keys that are equal only the first is one of the map. -/
inductive Legible : Value → Prop
  | int (n : Int64) : Legible (.int n)
  | bool (b : Bool) : Legible (.bool b)
  | nil : Legible .nil
  | str (text : String) : Legible (.str text)
  | symbol {name : String} (h : ReadableSymbol name) : Legible (.symbol name)
  | keyword {name : String} (h : ReadableKeyword name) : Legible (.keyword name)
  | list {items : List Value} (h : ∀ v ∈ items, Legible v) : Legible (.list items)
  | vector {items : List Value} (h : ∀ v ∈ items, Legible v) : Legible (.vector items)
  | map {entries : List (Value × Value)} (keys : ∀ e ∈ entries, Legible e.1)
    (values : ∀ e ∈ entries, Legible e.2)
    (unequal : ∀ cells, entries.Pairwise fun e f => ¬ Equal cells e.1 f.1) : Legible (.map entries)

theorem Literal.legible {v : Value} (h : Literal v) : Legible v := by
  induction h with
  | int n => exact .int n
  | bool b => exact .bool b
  | nil => exact .nil
  | str text => exact .str text
  | symbol h => exact .symbol h
  | keyword h => exact .keyword h
  | list _ ih => exact .list ih
  | vector _ ih => exact .vector ih
  | map hk hv ihk ihv =>
    obtain ⟨entries, hentries, -, hparts⟩ := mapOfLiterals_spec fun p hp => ⟨ihk p hp, ihv p hp⟩
    have hliteral : Literal (.map entries) := hentries ▸ .map hk hv
    rw [hentries]
    exact .map (fun e he => (hparts e he).1) (fun e he => (hparts e he).2) hliteral.sourced.keys_ne

theorem Legible.literal {v : Value} (h : Legible v) : Literal v := by
  induction h with
  | int n => exact .int n
  | bool b => exact .bool b
  | nil => exact .nil
  | str text => exact .str text
  | symbol h => exact .symbol h
  | keyword h => exact .keyword h
  | list _ ih => exact .list ih
  | vector _ ih => exact .vector ih
  | @map entries _ _ unequal ihk ihv =>
    have distinct : Entries.Distinct literalEqual entries := by
      refine (unequal #[]).imp_of_mem fun {e f} he hf hne => Bool.eq_false_iff.mpr fun heq => hne ?_
      have hatoms := (ihk e he).plain.atomFree
      exact (hatoms.literalEqual_iff (ihk f hf).plain.atomFree #[]).mp heq
    rw [← mapOfLiterals_of_distinct distinct]
    exact .map ihk ihv

theorem readForm_legible {source : String} {ts rest : List Token} {v : Value}
    (suffix : ts <:+ tokenize source) (h : readForm ts = (.ok v, rest)) :
    v = .eof ∧ ts = [] ∨ v ≠ .eof ∧ ts ≠ [] ∧ Legible v := by
  obtain rfl | ⟨used, rfl, hform⟩ := derives_of_readForm h
  · exact .inl ⟨(Except.ok.inj (Prod.mk.inj h).1).symm, rfl⟩
  · have hused (t : Token) (ht : t ∈ used) : t.Fits :=
      mem_pattern_of_mem_tokensOf (suffix.subset (List.mem_append_left _ ht))
    have hne : used ++ rest ≠ [] := fun hnil => hform.nonempty (List.append_eq_nil_iff.mp hnil).1
    exact .inr ⟨hform.ne_eof, hne, (hform.literal hused).legible⟩

/-- The text of the end is read as a symbol, which has the same text. -/
theorem read_print_eof (cells : Cells) :
    ∃ w, read (Value.eof.print cells true) = .ok w ∧
      w.print cells true = Value.eof.print cells true := by
  have htokens : tokenize "<EOF>" = [⟨.word, "<EOF>"⟩] := by decide +kernel
  have htext : Value.eof.print cells true = "<EOF>" := by simp [print, write]
  have hsymbol : (Value.symbol "<EOF>").print cells true = "<EOF>" := by simp [print, write]
  refine ⟨.symbol "<EOF>", ?_, hsymbol.trans htext.symm⟩
  rw [htext, read, htokens]
  rfl

/-- What is read from a text, wherever in it the reading begins, is the end, where nothing is left, or a
legible value, and all legible values are read from some text. Printed, such a value is read again as it
was, and what is printed once more is the same text. -/
theorem readForm_print :
    (∀ source ts rest v, ts <:+ tokenize source → readForm ts = (.ok v, rest) →
      (v = .eof ↔ ts = []) ∧ (v ≠ .eof → Legible v ∧ ∀ cells, read (v.print cells true) = .ok v) ∧
        ∀ cells, ∃ w, read (v.print cells true) = .ok w ∧ w.print cells true = v.print cells true) ∧
      ∀ v, Legible v ↔ v ≠ .eof ∧ ∃ source, read source = .ok v := by
  refine ⟨fun source ts rest v suffix h => ?_, fun v => ⟨fun h => ⟨?_, ?_⟩, ?_⟩⟩
  · obtain ⟨rfl, hts⟩ | ⟨hv, hts, hlegible⟩ := readForm_legible suffix h
    · exact ⟨iff_of_true rfl hts, fun hne => absurd rfl hne, read_print_eof⟩
    · have hread (cells : Cells) := read_print cells hlegible.literal
      exact ⟨iff_of_false hv hts, fun _ => ⟨hlegible, hread⟩, fun cells => ⟨v, hread cells, rfl⟩⟩
  · rintro rfl
    nomatch h
  · exact ⟨_, read_print #[] h.literal⟩
  · rintro ⟨hne, source, h⟩
    obtain heof | hliteral := read_literal h
    · exact absurd heof hne
    · exact hliteral.legible

/-- A list and a vector with the same items are one key: it stays the list, with the value of the vector. -/
theorem readForm_print_keys :
    let source := "a \x7b(1 +5) ^ [1 +5] :@k\x7d"
    let ts := (tokenize source).drop 1
    let v : Value := .map [(.list [.int 1, .symbol "+5"], .keyword "@k")]
    ts <:+ tokenize source ∧ readForm ts = (.ok v, []) ∧ v ≠ .eof ∧ Legible v ∧
      ∀ cells, read (v.print cells true) = .ok v := by
  intro source ts v
  have hsource : tokenize source = [⟨.word, "a"⟩, ⟨.opening .curly, "\x7b"⟩, ⟨.opening .round, "("⟩,
      ⟨.word, "1"⟩, ⟨.word, "+5"⟩, ⟨.closing .round, ")"⟩, ⟨.caret, "^"⟩, ⟨.opening .square, "["⟩,
      ⟨.word, "1"⟩, ⟨.word, "+5"⟩, ⟨.closing .square, "]"⟩, ⟨.word, ":@k"⟩,
      ⟨.closing .curly, "\x7d"⟩] := by
    decide +kernel
  have hsuffix : ts <:+ tokenize source := List.drop_suffix 1 _
  have hread : readForm ts = (.ok v, []) := by
    change readForm ((tokenize source).drop 1) = _
    rw [hsource]
    rfl
  have hv : v ≠ .eof := nofun
  obtain ⟨-, hlegible, -⟩ := readForm_print.1 source ts [] v hsuffix hread
  exact ⟨hsuffix, hread, hv, hlegible hv⟩

end Lisp
