import Lisp.Proofs.Advancing

/-! Reading goes by the top of what is pending. What happens above a part of it is the same above any
other, as long as something is pending above it, or what comes can stand in it. -/

namespace Lisp

theorem readInside_suffix (pending : List Pending) (ts : List Token) :
    (readInside pending ts).2 <:+ ts := by
  induction ts generalizing pending with
  | nil => exact List.suffix_rfl
  | cons t ts ih =>
    rw [readInside]
    split
    · next next _ => exact (ih next).trans (List.suffix_cons t ts)
    · dsimp only
      split
      · exact (List.dropWhile_suffix _).trans (List.suffix_cons t ts)
      · exact List.suffix_cons t ts
    · exact List.suffix_cons t ts
    · exact List.suffix_rfl

/-- What an advance comes to when more is pending below. -/
def Advance.above (outer : List Pending) : Advance → Advance
  | .inside pending => .inside (pending ++ outer)
  | .complete form => Pending.deliver form outer
  | a => a

theorem Pending.deliver_append (form : Value) (pending outer : List Pending) :
    Pending.deliver form (pending ++ outer) = (Pending.deliver form pending).above outer := by
  induction pending generalizing form with
  | nil => rfl
  | cons p pending ih =>
    cases p with
    | opened b forms => rfl
    | marked m => exact ih (m.wrap form)

theorem Pending.settle_append (r : Except ReadError Value) (pending outer : List Pending) :
    Pending.settle (pending ++ outer) r = (Pending.settle pending r).above outer := by
  cases r with
  | ok form => exact Pending.deliver_append form pending outer
  | error e => rfl

theorem Token.advance_append {t : Token} {pending outer : List Pending}
    (h : pending = [] → Awaits outer [t]) :
    t.advance (pending ++ outer) = (t.advance pending).above outer := by
  cases pending with
  | nil =>
    cases hsort : t.sort with
    | comment =>
      match outer with
      | [] => simp [Token.advance, hsort, Pending.deliver, Advance.above]
      | .opened b forms :: outer =>
        have hcomment := (h rfl b forms outer rfl t (by simp)).1
        exact absurd hcomment (by simp [Token.isComment, hsort])
      | .marked m :: outer => simp [Token.advance, hsort, Pending.deliver, Advance.above]
    | closing b =>
      match outer with
      | [] => simp [Token.advance, hsort, Advance.above]
      | .opened c forms :: outer =>
        have hbc : b ≠ c := fun hbc => (h rfl c forms outer rfl t (by simp)).2 (by rw [hsort, hbc])
        simp [Token.advance, hsort, hbc, Advance.above]
      | .marked m :: outer => simp [Token.advance, hsort, Advance.above]
    | opening b | marker m => simp [Token.advance, hsort, Advance.above]
    | caret | quoted | word =>
      simp only [Token.advance, hsort]
      exact Pending.settle_append _ [] outer
  | cons p pending =>
    cases hsort : t.sort with
    | comment =>
      cases p with
      | opened b forms => simp [Token.advance, hsort, Advance.above]
      | marked m =>
        simp only [Token.advance, hsort]
        exact Pending.deliver_append .nil (.marked m :: pending) outer
    | closing b =>
      cases p with
      | opened c forms =>
        by_cases hbc : b = c
        · simp only [Token.advance, hsort, List.cons_append, if_pos hbc]
          exact Pending.settle_append _ pending outer
        · simp [Token.advance, hsort, hbc, Advance.above]
      | marked m => simp [Token.advance, hsort, Advance.above]
    | opening b | marker m => simp [Token.advance, hsort, Advance.above]
    | caret | quoted | word =>
      simp only [Token.advance, hsort]
      exact Pending.settle_append _ (p :: pending) outer

/-- The reader goes through all of the tokens, from what was pending to what is pending then. -/
inductive Runs : List Pending → List Token → List Pending → Prop
  | nil {pending} : Runs pending [] pending
  | cons {pending next last t ts} (step : t.advance pending = .inside next) (more : Runs next ts last) :
    Runs pending (t :: ts) last

/-- The reader comes to a token that it stops at, for this reason. -/
inductive Sticks : List Pending → List Token → ReadError → Prop
  | fault {pending t ts e} (step : t.advance pending = .fault e) : Sticks pending (t :: ts) e
  | refusal {pending t ts e} (step : t.advance pending = .refusal e) : Sticks pending (t :: ts) e
  | inside {pending next t ts e} (step : t.advance pending = .inside next) (more : Sticks next ts e) :
    Sticks pending (t :: ts) e

variable {pending last : List Pending} {ts : List Token} {e : ReadError}

theorem Runs.readInside (h : Runs pending ts last) (more : List Token) :
    readInside pending (ts ++ more) = readInside last more := by
  induction h with
  | nil => rfl
  | cons step _ ih =>
    rw [List.cons_append, Lisp.readInside, step]
    exact ih

theorem Sticks.readInside (h : Sticks pending ts e) (more : List Token) :
    (readInside pending (ts ++ more)).1 = .error e := by
  induction h with
  | fault step | refusal step => rw [List.cons_append, Lisp.readInside, step]
  | inside step _ ih =>
    rw [List.cons_append, Lisp.readInside, step]
    exact ih

/-- A reading fails at a token, or at the end of the tokens when something is pending there. -/
theorem sticks_or_runs (h : (readInside pending ts).1 = .error e) :
    Sticks pending ts e ∨ ∃ p last, Runs pending ts (p :: last) := by
  induction ts generalizing pending with
  | nil =>
    cases pending with
    | nil => cases h
    | cons p pending => exact .inr ⟨p, pending, .nil⟩
  | cons t ts ih =>
    rw [readInside] at h
    cases step : t.advance pending with
    | inside next =>
      rw [step] at h
      obtain hsticks | ⟨p, last, hruns⟩ := ih h
      · exact .inl (.inside step hsticks)
      · exact .inr ⟨p, last, .cons step hruns⟩
    | complete form => rw [step] at h; cases h
    | fault e' =>
      rw [step] at h
      obtain rfl := Except.error.inj h
      exact .inl (.fault step)
    | refusal e' =>
      rw [step] at h
      obtain rfl := Except.error.inj h
      exact .inl (.refusal step)

/-- A token that the reader goes on from is a mark, or leaves a bracket on top of what is pending. -/
theorem Token.advance_inside {t : Token} {next : List Pending} (h : t.advance pending = .inside next) :
    (∃ m, t.sort = .marker m ∧ next = .marked m :: pending) ∨
      ∃ b forms outer, next = .opened b forms :: outer := by
  cases h ▸ t.advances pending with
  | mark sort => exact .inl ⟨_, sort, rfl⟩
  | bracket b forms outer => exact .inr ⟨b, forms, outer, rfl⟩

variable {outer : List Pending}

theorem Token.advance_ne_nil {t : Token} {next : List Pending} (h : t.advance pending = .inside next) :
    next ≠ [] := by
  obtain ⟨m, -, rfl⟩ | ⟨b, forms, outer, rfl⟩ := advance_inside h <;> exact List.cons_ne_nil _ _

theorem Awaits.first {t : Token} (h : Awaits outer (t :: ts)) : Awaits outer [t] :=
  fun b forms inner heq u hu => h b forms inner heq u (by simpa using hu)

theorem Token.advance_above {t : Token} {a : Advance} (step : t.advance pending = a)
    (hts : pending = [] → Awaits outer (t :: ts)) : t.advance (pending ++ outer) = a.above outer :=
  step ▸ advance_append fun hp => (hts hp).first

theorem Runs.above (h : Runs pending ts last) (hts : pending = [] → Awaits outer ts) :
    Runs (pending ++ outer) ts (last ++ outer) := by
  induction h with
  | nil => exact .nil
  | cons step _ ih =>
    have hmore := ih fun hnext => absurd hnext (Token.advance_ne_nil step)
    exact .cons (Token.advance_above step hts) hmore

theorem Sticks.above (h : Sticks pending ts e) (hts : pending = [] → Awaits outer ts) :
    Sticks (pending ++ outer) ts e := by
  induction h with
  | fault step => exact .fault (Token.advance_above step hts)
  | refusal step => exact .refusal (Token.advance_above step hts)
  | inside step _ ih =>
    have hmore := ih fun hnext => absurd hnext (Token.advance_ne_nil step)
    exact .inside (Token.advance_above step hts) hmore

/-- What is pending after a run are the marks that were read, if nothing else was, and otherwise there
is a bracket below the last marks. -/
theorem Runs.marks (h : Runs pending ts last) :
    (∃ ms : List Marker, ts.map Token.sort = ms.map .marker ∧
        last = (ms.map .marked).reverse ++ pending) ∨
      ∃ (ms : List Marker) (b : Bracket) (forms : List Value) (outer : List Pending),
        last = (ms.map .marked).reverse ++ .opened b forms :: outer := by
  induction h with
  | nil => exact .inl ⟨[], rfl, rfl⟩
  | cons step _ ih =>
    obtain ⟨ms, hts, rfl⟩ | hopened := ih
    · obtain ⟨m, hm, rfl⟩ | ⟨b, forms, outer, rfl⟩ := Token.advance_inside step
      · exact .inl ⟨m :: ms, by simp [hm, hts], by simp⟩
      · exact .inr ⟨ms, b, forms, outer, rfl⟩
    · exact .inr hopened

theorem runs_of_marks {ms : List Marker} (h : ts.map Token.sort = ms.map .marker) :
    Runs pending ts ((ms.map .marked).reverse ++ pending) := by
  induction ts generalizing ms pending with
  | nil =>
    obtain rfl := List.map_eq_nil_iff.mp h.symm
    exact .nil
  | cons t ts ih =>
    obtain ⟨m, ms, rfl, ht, hts⟩ := List.map_eq_cons_iff.mp h.symm
    have hstep : t.advance pending = .inside (.marked m :: pending) := by
      simp [Token.advance, ← ht]
    simpa using Runs.cons hstep (ih hts.symm)

theorem Pending.deliver_marks (form : Value) (ms : List Marker) (pending : List Pending) :
    Pending.deliver form ((ms.map .marked).reverse ++ pending) =
      Pending.deliver (ms.foldr Marker.wrap form) pending := by
  induction ms generalizing pending with
  | nil => rfl
  | cons m ms ih =>
    rw [List.map_cons, List.reverse_cons, List.append_assoc, ih]
    rfl

/-- Nothing is complete above a bracket that is open. -/
theorem Pending.deliver_bottom (form : Value) (pending : List Pending) (b : Bracket)
    (forms : List Value) :
    ∃ p next, Pending.deliver form (pending ++ [.opened b forms]) = .inside (p :: next) := by
  rw [Pending.deliver_append]
  obtain ⟨whole, h⟩ | ⟨c, held, outer, h⟩ := Pending.deliver_cases form pending
  · exact ⟨_, _, by rw [h]; rfl⟩
  · exact ⟨_, _, by rw [h]; rfl⟩

end Lisp
