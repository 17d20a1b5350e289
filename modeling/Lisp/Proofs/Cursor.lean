import Lisp.Proofs.Stopping
import Lisp.Proofs.TokenTexts
import Mathlib.Logic.Function.Iterate

/-! Readings one after the other, as a cursor that goes over the tokens. It never goes back. It
stands still at the end, and at a closer that no bracket waits for, and nowhere else. -/

namespace Lisp

variable {ts rest : List Token} {r : Except ReadError Value} {e : ReadError}

theorem Leaves.eof_iff (h : Leaves ts r rest) : r = .ok .eof ↔ ts = [] := by
  cases h with
  | nothing => simp
  | form nonempty noEof => simp [noEof, nonempty]
  | unfinished nonempty => simp [nonempty]
  | closer => simp
  | fault nonempty => simp [nonempty]

theorem Leaves.advances {v : Value} (h : Leaves ts (.ok v) rest) (noEof : v ≠ .eof) :
    rest.length < ts.length := by
  cases h with
  | nothing => exact absurd rfl noEof
  | form nonempty => simpa [List.length_pos_iff] using nonempty

theorem Leaves.advances_of_fault (h : Leaves ts (.error e) rest) (fault : e.IsFault) :
    rest.length < ts.length := by
  cases h with
  | unfinished | closer => exact fault.elim
  | fault nonempty => simpa [List.length_pos_iff] using nonempty

theorem Leaves.eq_nil (h : Leaves ts (.error .unexpectedEof) rest) : rest = [] := by
  cases h with
  | unfinished => rfl
  | fault _ fault => exact fault.elim

theorem Leaves.exists_closer {c : Char} (h : Leaves ts (.error (.unexpectedDelimiter c)) rest) :
    ∃ t b more, rest = t :: more ∧ t.sort = .closing b ∧ b.closer = c := by
  cases h with
  | closer closes => exact ⟨_, _, _, rfl, closes, rfl⟩
  | fault _ fault => exact fault.elim

namespace Readings

/-- The tokens that are left after `n` readings. -/
def left (ts : List Token) (n : Nat) : List Token :=
  (fun ts => (readForm ts).2)^[n] ts

/-- How many tokens are taken after `n` readings. -/
def cursor (ts : List Token) (n : Nat) : Nat :=
  ts.length - (left ts n).length

/-- The answer of a reading that `n` others have gone before. -/
def answer (ts : List Token) (n : Nat) : Except ReadError Value :=
  (readForm (left ts n)).1

theorem left_succ (ts : List Token) (n : Nat) : left ts (n + 1) = (readForm (left ts n)).2 :=
  Function.iterate_succ_apply' _ n ts

theorem left_add (ts : List Token) (n k : Nat) : left ts (k + n) = left (left ts n) k :=
  Function.iterate_add_apply _ k n ts

theorem readTimes_eq (ts : List Token) (n : Nat) :
    readTimes n ts = (List.range n).map (answer ts) := by
  induction n generalizing ts with
  | zero => rfl
  | succ n ih =>
    rw [readTimes, ih, List.range_succ_eq_map, List.map_cons, List.map_map]
    rfl

theorem leaves (ts : List Token) (n : Nat) : Leaves (left ts n) (answer ts n) (left ts (n + 1)) :=
  left_succ ts n ▸ readForm_leaves (left ts n)

theorem left_succ_suffix (ts : List Token) (n : Nat) : left ts (n + 1) <:+ left ts n :=
  left_succ ts n ▸ readInside_suffix [] (left ts n)

theorem left_suffix (ts : List Token) (n : Nat) : left ts n <:+ ts := by
  induction n with
  | zero => exact List.suffix_rfl
  | succ n ih => exact (left_succ_suffix ts n).trans ih

theorem cursor_add_length (ts : List Token) (n : Nat) :
    cursor ts n + (left ts n).length = ts.length :=
  Nat.sub_add_cancel (left_suffix ts n).length_le

theorem drop_cursor (ts : List Token) (n : Nat) : ts.drop (cursor ts n) = left ts n :=
  (List.suffix_iff_eq_drop.mp (left_suffix ts n)).symm

theorem cursor_eq_length_iff (ts : List Token) (n : Nat) :
    cursor ts n = ts.length ↔ left ts n = [] := by
  have hlength := cursor_add_length ts n
  rw [← List.length_eq_zero_iff]
  omega

/-- Once a reading leaves the tokens as they are, so do all that come after it. -/
theorem left_of_fixed {n k : Nat} (hk : n ≤ k) (fixed : (readForm (left ts n)).2 = left ts n) :
    left ts k = left ts n := by
  obtain ⟨k, rfl⟩ := Nat.exists_eq_add_of_le' hk
  rw [left_add]
  exact Function.iterate_fixed fixed k

theorem answer_of_end {n : Nat} (h : left ts n = []) {k : Nat} (hk : n ≤ k) :
    answer ts k = .ok .eof := by
  rw [answer, left_of_fixed hk (by rw [h]; rfl), h]
  rfl

theorem answer_of_closer {n : Nat} {t : Token} {b : Bracket} {more : List Token}
    (h : left ts n = t :: more) (closes : t.sort = .closing b) {k : Nat} (hk : n ≤ k) :
    answer ts k = .error (.unexpectedDelimiter b.closer) ∧ left ts k = left ts n := by
  have hread : readForm (left ts n) = (.error (.unexpectedDelimiter b.closer), left ts n) :=
    h ▸ (Rejects.closer closes).readForm
  have hleft : left ts k = left ts n := left_of_fixed hk (congrArg Prod.snd hread)
  exact ⟨by rw [answer, hleft, hread], hleft⟩

/-- Each form takes a token, so that the readings come to the end or fail. -/
theorem exists_last (ts : List Token) :
    ∃ n ≤ ts.length, answer ts n = .ok .eof ∨ ∃ e, answer ts n = .error e := by
  induction hn : ts.length using Nat.strong_induction_on generalizing ts with
  | _ length ih =>
    subst hn
    have hleaves := leaves ts 0
    cases hanswer : answer ts 0 with
    | error e => exact ⟨0, Nat.zero_le _, .inr ⟨e, hanswer⟩⟩
    | ok v =>
      by_cases hv : v = .eof
      · exact ⟨0, Nat.zero_le _, .inl (hv ▸ hanswer)⟩
      · rw [hanswer] at hleaves
        have hshorter : (left ts 1).length < ts.length := hleaves.advances hv
        obtain ⟨n, hn, hlast⟩ := ih _ hshorter (left ts 1) rfl
        have hsame : answer (left ts 1) n = answer ts (n + 1) := by rw [answer, answer, left_add]
        exact ⟨n + 1, by omega, hsame ▸ hlast⟩

/-- The cursor goes forward over every form and every fault, to the end where the text breaks off,
and to a closer that can not stand there. It stays at the end and at such a closer. -/
structure CursorLaw (ts : List Token) : Prop where
  forward (n : Nat) : cursor ts n ≤ cursor ts (n + 1)
  within (n : Nat) : cursor ts n ≤ ts.length ∧ ts.drop (cursor ts n) = left ts n
  eof_iff (n : Nat) : answer ts n = .ok .eof ↔ cursor ts n = ts.length
  form (n : Nat) (v : Value) : answer ts n = .ok v → v ≠ .eof → cursor ts n < cursor ts (n + 1)
  unfinished (n : Nat) : answer ts n = .error .unexpectedEof →
    cursor ts (n + 1) = ts.length ∧ ∀ k, n < k → answer ts k = .ok .eof
  closer (n : Nat) (c : Char) : answer ts n = .error (.unexpectedDelimiter c) →
    (∃ t b, ts[cursor ts (n + 1)]? = some t ∧ t.sort = .closing b ∧ b.closer = c) ∧
      ∀ k, n < k → answer ts k = answer ts n ∧ cursor ts k = cursor ts (n + 1)
  fault (n : Nat) (e : ReadError) :
    answer ts n = .error e → e.IsFault → cursor ts n < cursor ts (n + 1)
  last : ∃ n ≤ ts.length, answer ts n = .ok .eof ∨ ∃ e, answer ts n = .error e

theorem cursor_lt_of_shorter {n : Nat} (h : (left ts (n + 1)).length < (left ts n).length) :
    cursor ts n < cursor ts (n + 1) := by
  have hnow := cursor_add_length ts n
  have hthen := cursor_add_length ts (n + 1)
  omega

theorem cursorLaw (ts : List Token) : CursorLaw ts where
  forward n := Nat.sub_le_sub_left (left_succ_suffix ts n).length_le _
  within n := ⟨Nat.sub_le _ _, drop_cursor ts n⟩
  eof_iff n := (leaves ts n).eof_iff.trans (cursor_eq_length_iff ts n).symm
  form n v hv noEof := cursor_lt_of_shorter ((hv ▸ leaves ts n).advances noEof)
  unfinished n heof := by
    have hnil := (heof ▸ leaves ts n).eq_nil
    exact ⟨(cursor_eq_length_iff ts (n + 1)).mpr hnil, fun k hk => answer_of_end hnil hk⟩
  closer n c hc := by
    obtain ⟨t, b, more, hleft, closes, rfl⟩ := (hc ▸ leaves ts n).exists_closer
    refine ⟨⟨t, b, ?_, closes, rfl⟩, fun k hk => ?_⟩
    · rw [← List.head?_drop, drop_cursor, hleft, List.head?_cons]
    · obtain ⟨hanswer, hsame⟩ := answer_of_closer hleft closes hk
      exact ⟨hanswer.trans hc.symm, by rw [cursor, cursor, hsame]⟩
  fault n e he fault := cursor_lt_of_shorter ((he ▸ leaves ts n).advances_of_fault fault)
  last := exists_last ts

end Readings

open Readings

/-- The readings of a text, however many and whatever their answers, take its tokens as a cursor
does. -/
theorem readings_advance (source : String) :
    CursorLaw (tokenize source) ∧
      ∀ n, readTimes n (tokenize source) = (List.range n).map (answer (tokenize source)) :=
  ⟨cursorLaw (tokenize source), fun n => readTimes_eq (tokenize source) n⟩

/-- A form, a map without a value, and a closer after a mark, at which the reader stays. And a text
that breaks off. -/
theorem readings_advance_closer :
    let ts := tokenize "1 \x7b:a\x7d (' ]"
    let broken := tokenize "(1"
    (answer ts 0 = .ok (.int 1) ∧ Value.int 1 ≠ .eof ∧ cursor ts 0 < cursor ts 1) ∧
      (answer ts 1 = .error (.missingMapValue ":a") ∧ (ReadError.missingMapValue ":a").IsFault ∧
        cursor ts 1 < cursor ts 2) ∧
      (answer ts 2 = .error (.unexpectedDelimiter ']') ∧
        (∃ t b, ts[cursor ts 3]? = some t ∧ t.sort = .closing b ∧ b.closer = ']') ∧
        ∀ k, 2 < k → answer ts k = answer ts 2 ∧ cursor ts k = cursor ts 3) ∧
      answer broken 0 = .error .unexpectedEof ∧ cursor broken 1 = broken.length ∧
        ∀ k, 0 < k → answer broken k = .ok .eof := by
  intro ts broken
  have htokens : ts = [⟨.word, "1"⟩, ⟨.opening .curly, "\x7b"⟩, ⟨.word, ":a"⟩,
      ⟨.closing .curly, "\x7d"⟩, ⟨.opening .round, "("⟩, ⟨.marker .quote, "'"⟩,
      ⟨.closing .square, "]"⟩] := by
    decide +kernel
  have hbroken : broken = [⟨.opening .round, "("⟩, ⟨.word, "1"⟩] := by decide +kernel
  have hform : answer ts 0 = .ok (.int 1) := by rw [htokens]; rfl
  have hfault : answer ts 1 = .error (.missingMapValue ":a") := by rw [htokens]; rfl
  have hcloser : answer ts 2 = .error (.unexpectedDelimiter ']') := by rw [htokens]; rfl
  have heof : answer broken 0 = .error .unexpectedEof := by rw [hbroken]; rfl
  obtain ⟨law, -⟩ := readings_advance "1 \x7b:a\x7d (' ]"
  obtain ⟨law', -⟩ := readings_advance "(1"
  exact ⟨⟨hform, nofun, law.form 0 _ hform nofun⟩, ⟨hfault, trivial, law.fault 1 _ hfault trivial⟩,
    ⟨hcloser, law.closer 2 ']' hcloser⟩, heof, law'.unfinished 0 heof⟩

end Lisp
