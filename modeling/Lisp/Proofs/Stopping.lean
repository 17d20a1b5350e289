import Lisp.Proofs.PendingStack

/-! Where a reading stops. It takes at least one token, unless there is none or the first one closes
a bracket that is not open. What a reading that fails has taken depends on why it fails. -/

namespace Lisp

/-- The tokens that a reading begins with, its answer, and the tokens that are left. -/
inductive Leaves : List Token → Except ReadError Value → List Token → Prop
  | nothing : Leaves [] (.ok .eof) []
  | form {used rest v} (nonempty : used ≠ []) (noEof : v ≠ .eof) :
    Leaves (used ++ rest) (.ok v) rest
  | unfinished {ts} (nonempty : ts ≠ []) : Leaves ts (.error .unexpectedEof) []
  | closer {used t b rest} (closes : t.sort = .closing b) :
    Leaves (used ++ t :: rest) (.error (.unexpectedDelimiter b.closer)) (t :: rest)
  | fault {used rest e} (nonempty : used ≠ []) (fault : e.IsFault) :
    Leaves (used ++ rest) (.error e) rest

variable {pending next last : List Pending} {t : Token} {ts rest : List Token} {e : ReadError}

theorem Leaves.append (h : Leaves ts (.error e) rest) (before : List Token) :
    Leaves (before ++ ts) (.error e) rest := by
  cases h with
  | unfinished nonempty => exact .unfinished (by simp [nonempty])
  | @closer used t b rest closes =>
    rw [← List.append_assoc]
    exact .closer closes
  | @fault used rest e nonempty fault =>
    rw [← List.append_assoc]
    exact .fault (by simp [nonempty]) fault

theorem Rejects.leaves (h : Rejects ts e rest) : Leaves ts (.error e) rest := by
  induction h with
  | @closer t b ts sort => exact @Leaves.closer [] t b ts sort
  | @scalar t ts e _ misread => exact @Leaves.fault [t] ts e (by simp) misread.isFault
  | @marker t _ _ _ _ _ _ ih => exact ih.append [t]
  | noBody => exact .unfinished (by simp)
  | @element opener _ used ts _ _ _ _ _ _ _ _ ih => exact ih.append (opener :: used)
  | unclosed => exact .unfinished (by simp)
  | @noValue opener closer used ts _ _ _ _ _ =>
    have happ : opener :: (used ++ closer :: ts) = opener :: (used ++ [closer]) ++ ts := by simp
    rw [happ]
    exact .fault (by simp) trivial

theorem readForm_leaves (ts : List Token) : Leaves ts (readForm ts).1 (readForm ts).2 := by
  obtain rfl | ⟨used, rest, v, rfl, hform⟩ | ⟨e, rest, hrejects⟩ := derives_or_rejects ts
  · exact .nothing
  · rw [hform.readForm]
    exact .form hform.nonempty hform.ne_eof
  · rw [hrejects.readForm]
    exact hrejects.leaves

theorem Sticks.ne_unexpectedEof (h : Sticks pending ts e) : e ≠ .unexpectedEof := by
  induction h with
  | @fault pending t _ e step =>
    cases step ▸ t.advances pending with
    | fault fault =>
      rintro rfl
      exact fault
  | @refusal pending t _ e step =>
    cases step ▸ t.advances pending with
    | refusal => simp
  | inside _ _ ih => exact ih

theorem runs_of_unexpectedEof (h : (readInside pending ts).1 = .error .unexpectedEof) :
    ∃ p last, Runs pending ts (p :: last) :=
  (sticks_or_runs h).resolve_left fun hsticks => hsticks.ne_unexpectedEof rfl

/-- A reading that does not come to the end of the tokens is the same whatever follows them. -/
theorem readInside_append (h : (readInside pending ts).1 ≠ .error .unexpectedEof)
    (started : pending ≠ [] ∨ ts ≠ []) (more : List Token) :
    (readInside pending (ts ++ more)).1 = (readInside pending ts).1 := by
  induction ts generalizing pending with
  | nil =>
    obtain ⟨p, outer, rfl⟩ := List.exists_cons_of_ne_nil (started.resolve_right (· rfl))
    exact absurd rfl h
  | cons t ts ih =>
    rw [List.cons_append, readInside, readInside]
    rw [readInside] at h
    cases step : t.advance pending with
    | inside next =>
      rw [step] at h
      exact ih h (.inl (Token.advance_ne_nil step))
    | complete form | fault e | refusal e => rfl

end Lisp
