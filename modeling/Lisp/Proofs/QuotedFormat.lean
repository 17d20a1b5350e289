import Lisp.Proofs.Offences

/-! The format of quoted strings. Writing a string and reading the written form again gives the string, and
reading a text and writing what it stands for gives the text with its white space escaped. -/

namespace Lisp

namespace Quoted

/-- Writes the white space that is escaped when a string is written, and leaves all else as it is. -/
def spellOut : Char → List Char
  | '\t' => ['\\', 't']
  | '\n' => ['\\', 'n']
  | '\r' => ['\\', 'r']
  | c => [c]

theorem spellOut_plain {c : Char} (hq : c ≠ '"') (hb : c ≠ '\\') : spellOut c = escapeChar c := by
  unfold spellOut escapeChar
  split <;> simp_all

theorem spellOut_escape {c d : Char} (h : unescapeChar c = some d) :
    spellOut '\\' ++ spellOut c = escapeChar d := by
  unfold unescapeChar at h
  split at h
  case h_6 => cases h
  all_goals
    obtain rfl := Option.some.inj h
    rfl

theorem Stands.spellOut {cs ds : List Char} (h : Stands cs ds) :
    cs.flatMap spellOut = ds.flatMap escapeChar := by
  induction h with
  | nil => rfl
  | plain hq hb _ ih => rw [List.flatMap_cons, List.flatMap_cons, ih, spellOut_plain hq hb]
  | escaped escape _ ih =>
    rw [List.flatMap_cons, List.flatMap_cons, List.flatMap_cons, ih, ← spellOut_escape escape,
      List.append_assoc]

theorem Denotes.encode {raw text : String} (h : Denotes raw text) :
    encode text = String.ofList (raw.toList.flatMap Quoted.spellOut) := by
  obtain ⟨body, hraw, hstands⟩ := h
  rw [← String.toList_inj, toList_encode, ← hstands.spellOut, hraw]
  simp [Quoted.spellOut]

/-- Every string is read from its written form. A text is read as the string that stands between its
quotes, and written again it differs in the white space alone. Every other text fails at its leftmost
offence, if it has a quote at both ends, and else for lack of a quote. -/
theorem decode_inverse :
    (∀ text, decode (encode text) = .ok text) ∧
    (∀ raw text, decode raw = .ok text ↔ Denotes raw text) ∧
    (∀ raw text, decode raw = .ok text →
      encode text = String.ofList (raw.toList.flatMap spellOut)) ∧
    ∀ raw e, decode raw = .error e ↔ Malformed raw.toList e := by
  refine ⟨decode_encode, fun raw text => decode_eq_ok, fun raw text h => ?_, fun raw e => decode_eq_error⟩
  exact (decode_eq_ok.mp h).encode

/-- A tab that stands for itself, an escaped quote and an escaped line feed. -/
theorem decode_inverse_tab :
    decode "\"\t\\\"\\n\"" = .ok "\t\"\n" ∧
      encode "\t\"\n" = String.ofList ("\"\t\\\"\\n\"".toList.flatMap spellOut) := by
  have hdecode : decode "\"\t\\\"\\n\"" = .ok "\t\"\n" := by rfl
  exact ⟨hdecode, decode_inverse.2.2.1 _ _ hdecode⟩

end Quoted

end Lisp
