import Lisp.Proofs.Quoted
import Lisp.Proofs.Numeral
import Lisp.Reader
import Mathlib.Data.List.Forall2

/-! Tokens that stand for a value wherever a form can stand, and readings one after the other. -/

namespace Lisp

/-- The answers of `n` readings, each of which begins where the one before it ended. -/
def readTimes : Nat → List Token → List (Except ReadError Value)
  | 0, _ => []
  | n + 1, ts => (readForm ts).1 :: readTimes n (readForm ts).2

theorem readTimes_nil (n : Nat) : readTimes n [] = List.replicate n (.ok .eof) := by
  induction n with
  | zero => rfl
  | succ n ih => simp [readTimes, readForm, readInside, ih, List.replicate_succ]

def Advance.resume (more : List Token) : Advance → Reading
  | .inside pending => readInside pending more
  | .complete form => (.ok form, more)
  | .fault e | .refusal e => (.error e, more)

theorem Pending.deliver_ne_refusal (form : Value) (pending : List Pending) (e : ReadError) :
    Pending.deliver form pending ≠ .refusal e := by
  induction pending generalizing form with
  | nil => simp [Pending.deliver]
  | cons p pending ih =>
    cases p with
    | opened b forms => simp [Pending.deliver]
    | marked m => exact ih (m.wrap form)

theorem readInside_of_advance {t : Token} {pending : List Pending} {a : Advance}
    (hc : t.isComment = false) (ha : t.advance pending = a) (hr : ∀ e, a ≠ .refusal e)
    (ts : List Token) : readInside pending (t :: ts) = a.resume ts := by
  rw [readInside, ha, hc]
  cases a with
  | inside pending => rfl
  | complete form => rfl
  | fault e => rfl
  | refusal e => exact absurd rfl (hr e)

/-- The tokens are read as the value `v`, whatever is pending and whatever comes after them. -/
def Reads (ts : List Token) (v : Value) : Prop :=
  ∀ pending more, readInside pending (ts ++ more) = (Pending.deliver v pending).resume more

theorem reads_scalar {t : Token} {v : Value}
    (hs : t.sort = .caret ∨ t.sort = .quoted ∨ t.sort = .word)
    (hv : readScalar t.text = .ok v) : Reads [t] v := by
  intro pending more
  have hc : t.isComment = false := by
    rcases hs with hs | hs | hs <;> simp [Token.isComment, hs]
  have ha : t.advance pending = Pending.deliver v pending := by
    rcases hs with hs | hs | hs <;> simp [Token.advance, hs, hv, Pending.settle]
  exact readInside_of_advance hc ha (Pending.deliver_ne_refusal v pending) more

theorem readInside_opened {tss : List (List Token)} {vs : List Value}
    (h : List.Forall₂ Reads tss vs)
    (b : Bracket) (forms : List Value) (outer : List Pending) (more : List Token) :
    readInside (.opened b forms :: outer) (tss.flatten ++ more) =
      readInside (.opened b (vs.reverse ++ forms) :: outer) more := by
  induction h generalizing forms with
  | nil => rfl
  | @cons ts v tss vs hv _ ih =>
    rw [List.flatten_cons, List.append_assoc, hv]
    simp only [Pending.deliver, Advance.resume]
    rw [ih (v :: forms)]
    simp

theorem reads_bracket {tss : List (List Token)} {vs : List Value} (h : List.Forall₂ Reads tss vs)
    {b : Bracket} {v : Value} (hv : b.collect vs = .ok v) (opener closer : String) :
    Reads (⟨.opening b, opener⟩ :: tss.flatten ++ [⟨.closing b, closer⟩]) v := by
  intro pending more
  have hopen : Token.advance ⟨.opening b, opener⟩ pending = .inside (.opened b [] :: pending) := by
    simp [Token.advance]
  have hclose : Token.advance ⟨.closing b, closer⟩ (.opened b vs.reverse :: pending) =
      Pending.deliver v pending := by
    simp [Token.advance, hv, Pending.settle]
  have happ : ⟨.opening b, opener⟩ :: tss.flatten ++ [⟨.closing b, closer⟩] ++ more =
      ⟨.opening b, opener⟩ :: (tss.flatten ++ (⟨.closing b, closer⟩ :: more)) := by simp
  rw [happ, readInside_of_advance rfl hopen (by simp), Advance.resume, readInside_opened h,
    List.append_nil]
  exact readInside_of_advance rfl hclose (Pending.deliver_ne_refusal v pending) more

theorem readForm_of_reads {ts : List Token} {v : Value} (h : Reads ts v) (more : List Token) :
    readForm (ts ++ more) = (.ok v, more) :=
  h [] more

theorem readTimes_of_reads {tss : List (List Token)} {vs : List Value}
    (h : List.Forall₂ Reads tss vs) (k : Nat) :
    readTimes (vs.length + k) tss.flatten = vs.map .ok ++ List.replicate k (.ok .eof) := by
  induction h with
  | nil => simpa using readTimes_nil k
  | @cons ts v tss vs hv _ ih =>
    rw [List.length_cons, Nat.add_right_comm, readTimes, List.flatten_cons,
      readForm_of_reads hv, ih]
    simp

/-! Texts of scalars. -/

theorem readScalar_numeral {text : String} {n : Int} {m : Int64}
    (h : Numeral.value? text.toList = some n) (hm : integer? n = some m) :
    readScalar text = .ok (.int m) := by
  unfold readScalar
  split
  case h_4 => simp [h, hm]
  all_goals cases h.symm.trans (by decide : Numeral.value? _ = none)

theorem readScalar_ofInteger (n : Int64) : readScalar (Numeral.ofInteger n) = .ok (.int n) :=
  readScalar_numeral (Numeral.value?_ofInteger n) (integer?_toInt n)

theorem value?_eq_none_of_head {c : Char} (hd : c.isDigit = false) (hm : c ≠ '-') (cs : List Char) :
    Numeral.value? (c :: cs) = none := by
  apply Numeral.value?_eq_none
  rintro ⟨digits, hne, hds, rfl | he⟩
  · simp [hd] at hds
  · exact hm (List.cons.inj he).1

theorem readScalar_encode (text : String) : readScalar (Quoted.encode text) = .ok (.str text) := by
  have hlist := Quoted.toList_encode text
  generalize hraw : Quoted.encode text = raw at hlist
  unfold readScalar
  split
  case h_4 =>
    rw [hlist, value?_eq_none_of_head (by decide) (by decide)]
    simp [← hraw, Quoted.decode_encode]
  all_goals exact absurd (List.cons.inj hlist).1 (by decide)

theorem readScalar_keyword {name : String} (h : name ≠ "") :
    readScalar (":" ++ name) = .ok (.keyword name) := by
  obtain ⟨c, cs, hcs⟩ : ∃ c cs, name.toList = c :: cs := by
    cases hl : name.toList with
    | nil => exact absurd (String.toList_eq_nil_iff.mp hl) h
    | cons c cs => exact ⟨c, cs, rfl⟩
  have hlist : (":" ++ name).toList = ':' :: c :: cs := by simp [hcs]
  have hname : String.ofList (c :: cs) = name := by rw [← hcs, String.ofList_toList]
  generalize ":" ++ name = text at hlist
  unfold readScalar
  split
  case h_4 =>
    rw [hlist, value?_eq_none_of_head (by decide) (by decide)]
    simp [hname]
  all_goals exact absurd (List.cons.inj hlist).1 (by decide)

theorem readScalar_symbol {name : String} (hn : name ≠ "nil") (ht : name ≠ "true")
    (hf : name ≠ "false") (hv : ¬ Numeral.IsNumeral name.toList) (hq : name.toList.head? ≠ some '"')
    (hk : name = ":" ∨ name.toList.head? ≠ some ':') : readScalar name = .ok (.symbol name) := by
  unfold readScalar
  split
  case h_1 => exact absurd rfl hn
  case h_2 => exact absurd rfl ht
  case h_3 => exact absurd rfl hf
  case h_4 =>
    rw [Numeral.value?_eq_none hv]
    rcases hk with rfl | hk
    · rfl
    · simp only
      split
      · simp_all
      · simp_all
      · rfl

end Lisp
