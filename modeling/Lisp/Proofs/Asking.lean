import Lisp.Proofs.Termination
import Mathlib.Order.Filter.AtTopBot.Basic

/-! The comparisons that a comparison asks for, in the order in which it does: each waits for the
answers of those before it. A comparison comes to an answer when all that it asks for do. -/

namespace Lisp

open Filter

/-- A comparison of two values while the contents of these pairs of atoms are being compared. -/
structure Comparison where
  opened : List (Cell × Cell)
  left : Value
  right : Value

namespace Comparison

open Value

def Answered (cells : Cells) (p : Comparison) : Prop :=
  ∃ r, Answers cells p.opened p.left p.right r

/-- An entry has its counterpart in another map: the first entry there with an equal key, and it has
an equal value. -/
def HasCounterpart (cells : Cells) (opened : List (Cell × Cell)) (fs : List (Value × Value))
    (e : Value × Value) : Prop :=
  ∃ passed f rest, fs = passed ++ f :: rest ∧ (∀ g ∈ passed, Answers cells [] g.1 e.1 false) ∧
    Answers cells [] f.1 e.1 true ∧ Answers cells opened f.2 e.2 true

/-- A comparison asks for another one, when it has the answers of those that come before. Keys are
looked for in the other map with no pair of atoms open. -/
inductive Asks (cells : Cells) : Comparison → Comparison → Prop
  | item {opened a b xs x xs' ys y ys'} (ha : a.items? = some (xs ++ x :: xs'))
    (hb : b.items? = some (ys ++ y :: ys')) (hlen : xs'.length = ys'.length)
    (before : List.Forall₂ (fun x y => Answers cells opened x y true) xs ys) :
    Asks cells ⟨opened, a, b⟩ ⟨opened, x, y⟩
  | key {opened es e es' fs f fs'} (hlen : (es ++ e :: es').length = (fs ++ f :: fs').length)
    (before : ∀ d ∈ es, HasCounterpart cells opened (fs ++ f :: fs') d)
    (passed : ∀ g ∈ fs, Answers cells [] g.1 e.1 false) :
    Asks cells ⟨opened, .map (es ++ e :: es'), .map (fs ++ f :: fs')⟩ ⟨[], f.1, e.1⟩
  | value {opened es e es' fs f fs'} (hlen : (es ++ e :: es').length = (fs ++ f :: fs').length)
    (before : ∀ d ∈ es, HasCounterpart cells opened (fs ++ f :: fs') d)
    (passed : ∀ g ∈ fs, Answers cells [] g.1 e.1 false) (found : Answers cells [] f.1 e.1 true) :
    Asks cells ⟨opened, .map (es ++ e :: es'), .map (fs ++ f :: fs')⟩ ⟨opened, f.2, e.2⟩
  | content {opened c d} (hne : c ≠ d) (hnew : (c, d) ∉ opened) :
    Asks cells ⟨opened, .atom c, .atom d⟩ ⟨(c, d) :: opened, cells.content c, cells.content d⟩

end Comparison

namespace Value

/-! How far the comparison of elements and the look-up of keys get. -/

section

variable {same : Value → Value → Option Bool} {r : Bool}

theorem pairsEqual_reaches {xs xs' ys ys' : List Value} {x y : Value}
    (before : List.Forall₂ (fun x y => same x y ≠ some false) xs ys)
    (h : itemsEqual.pairsEqual same (xs ++ x :: xs') (ys ++ y :: ys') = some r) :
    ∃ answer, same x y = some answer := by
  induction before with
  | nil =>
    rw [List.nil_append, List.nil_append, pairsEqual_cons] at h
    obtain ⟨answer, hxy, -⟩ := Option.bind_eq_some_iff.mp h
    exact ⟨answer, hxy⟩
  | @cons x₁ y₁ xs ys hne _ ih =>
    rw [List.cons_append, List.cons_append, pairsEqual_cons] at h
    obtain ⟨answer, hxy, h⟩ := Option.bind_eq_some_iff.mp h
    cases answer with
    | true => exact ih h
    | false => exact absurd hxy hne

theorem entryValue?_reaches {same : Value → Option Bool} {fs fs' : List (Value × Value)} {f : Value × Value}
    {found : Option Value} (passed : ∀ g ∈ fs, same g.1 ≠ some true)
    (h : entryValue? same (fs ++ f :: fs') = some found) :
    ∃ answer, same f.1 = some answer ∧ (answer = true → found = some f.2) := by
  induction fs with
  | nil =>
    rw [List.nil_append, entryValue?_cons] at h
    obtain ⟨answer, hf, h⟩ := Option.bind_eq_some_iff.mp h
    refine ⟨answer, hf, ?_⟩
    rintro rfl
    exact (Option.some.inj h).symm
  | cons g fs ih =>
    obtain ⟨hg, hfs⟩ := List.forall_mem_cons.mp passed
    rw [List.cons_append, entryValue?_cons] at h
    obtain ⟨answer, hanswer, h⟩ := Option.bind_eq_some_iff.mp h
    cases answer with
    | true => exact absurd hanswer hg
    | false => exact ih hfs h

variable {sameKey sameValue : Value → Value → Option Bool} {es es' fs : List (Value × Value)}
  {e : Value × Value}

theorem found_reaches
    (before : ∀ d ∈ es, ∀ found, entryValue? (sameKey · d.1) fs = some found →
      ∃ w, found = some w ∧ sameValue w d.2 ≠ some false)
    (h : entriesEqual.found sameKey sameValue fs (es ++ e :: es') = some r) :
    ∃ found, entryValue? (sameKey · e.1) fs = some found ∧
      ∀ w, found = some w → ∃ answer, sameValue w e.2 = some answer := by
  induction es with
  | nil =>
    rw [List.nil_append, found_cons] at h
    obtain ⟨found, hfound, h⟩ := Option.bind_eq_some_iff.mp h
    refine ⟨found, hfound, ?_⟩
    rintro w rfl
    obtain ⟨answer, hanswer, -⟩ := Option.bind_eq_some_iff.mp h
    exact ⟨answer, hanswer⟩
  | cons d es ih =>
    obtain ⟨hd, hes⟩ := List.forall_mem_cons.mp before
    rw [List.cons_append, found_cons] at h
    obtain ⟨found, hfound, h⟩ := Option.bind_eq_some_iff.mp h
    obtain ⟨w, rfl, hne⟩ := hd found hfound
    obtain ⟨answer, hanswer, h⟩ := Option.bind_eq_some_iff.mp h
    cases answer with
    | true => exact ih hes h
    | false => exact absurd hanswer hne

end

variable {cells : Cells} {opened : List (Cell × Cell)}

theorem equalWithin_items {a b : Value} {xs ys : List Value} (ha : a.items? = some xs)
    (hb : b.items? = some ys) (steps : Nat) :
    equalWithin cells (steps + 1) opened a b = itemsEqual (equalWithin cells steps opened) xs ys := by
  cases a <;> cases ha <;> cases b <;> cases hb <;> rfl

theorem Answers.ne_not {a b : Value} {r : Bool} (h : Answers cells opened a b r) (steps : Nat) :
    equalWithin cells steps opened a b ≠ some !r := by
  intro h'
  have heq := h.unique ⟨steps, h'⟩
  cases r <;> cases heq

theorem answers_iff_eventually {a b : Value} {r : Bool} :
    Answers cells opened a b r ↔ ∀ᶠ steps in atTop, equalWithin cells steps opened a b = some r := by
  refine ⟨fun ⟨steps, h⟩ => ?_, fun h => h.exists⟩
  exact eventually_atTop.mpr ⟨steps, fun more hle => equalWithin_mono hle opened _ _ _ h⟩

end Value

namespace Comparison

open Value

variable {cells : Cells} {p q : Comparison} {opened : List (Cell × Cell)}

theorem HasCounterpart.found {fs : List (Value × Value)} {d : Value × Value}
    (h : HasCounterpart cells opened fs d) (steps : Nat) {found : Option Value}
    (hfound : entryValue? (equalWithin cells steps [] · d.1) fs = some found) :
    ∃ w, found = some w ∧ equalWithin cells steps opened w d.2 ≠ some false := by
  obtain ⟨passed, f, rest, rfl, hpassed, hkey, hvalue⟩ := h
  have hnot : ∀ g ∈ passed, equalWithin cells steps [] g.1 d.1 ≠ some true :=
    fun g hg => (hpassed g hg).ne_not steps
  obtain ⟨answer, hanswer, hf⟩ := entryValue?_reaches hnot hfound
  obtain rfl := hkey.unique ⟨steps, hanswer⟩
  exact ⟨f.2, hf rfl, hvalue.ne_not steps⟩

/-- What is asked for is answered in fewer steps. -/
theorem Asks.answered_of_succ {steps : Nat} {r : Bool} (h : Asks cells p q)
    (hp : equalWithin cells (steps + 1) p.opened p.left p.right = some r) :
    ∃ answer, equalWithin cells steps q.opened q.left q.right = some answer := by
  cases h with
  | item ha hb hlen before =>
    have hsize := before.length_eq
    rw [equalWithin_items ha hb, itemsEqual, if_pos (by simp [hlen, hsize])] at hp
    exact pairsEqual_reaches (before.imp fun _ _ h => h.ne_not steps) hp
  | @key _ es e es' fs f fs' hlen before passed =>
    rw [equalWithin, entriesEqual, if_pos hlen] at hp
    obtain ⟨found, hfound, -⟩ := found_reaches (fun d hd _ => (before d hd).found steps) hp
    obtain ⟨answer, hanswer, -⟩ :=
      entryValue?_reaches (fun g hg => (passed g hg).ne_not steps) hfound
    exact ⟨answer, hanswer⟩
  | @value _ es e es' fs f fs' hlen before passed hkey =>
    rw [equalWithin, entriesEqual, if_pos hlen] at hp
    obtain ⟨found, hfound, hvalue⟩ := found_reaches (fun d hd _ => (before d hd).found steps) hp
    obtain ⟨answer, hanswer, hf⟩ :=
      entryValue?_reaches (fun g hg => (passed g hg).ne_not steps) hfound
    obtain rfl := hkey.unique ⟨steps, hanswer⟩
    exact hvalue _ (hf rfl)
  | content hne hnew =>
    rw [equalWithin_atoms, if_neg (by simp [hne, hnew])] at hp
    exact ⟨r, hp⟩

/-! With enough steps, each of these has an answer when all that it asks for do. -/

theorem exists_pairsEqual {xs ys : List Value} (hlen : xs.length = ys.length)
    (h : ∀ xs₁ x xs₂ ys₁ y ys₂, xs = xs₁ ++ x :: xs₂ → ys = ys₁ ++ y :: ys₂ →
      xs₂.length = ys₂.length → List.Forall₂ (fun x y => Answers cells opened x y true) xs₁ ys₁ →
      ∃ r, Answers cells opened x y r) :
    ∃ r, ∀ᶠ steps in atTop,
      itemsEqual.pairsEqual (equalWithin cells steps opened) xs ys = some r := by
  induction xs generalizing ys with
  | nil => exact ⟨true, .of_forall fun steps => by simp [itemsEqual.pairsEqual]⟩
  | cons x xs ih =>
    obtain _ | ⟨y, ys⟩ := ys
    · cases hlen
    have hsize := Nat.succ.inj hlen
    obtain ⟨r, hr⟩ := h [] x xs [] y ys rfl rfl hsize .nil
    have heventually := answers_iff_eventually.mp hr
    cases r with
    | false =>
      refine ⟨false, heventually.mono fun steps hxy => ?_⟩
      rw [pairsEqual_cons, hxy]
      rfl
    | true =>
      obtain ⟨r, htail⟩ := ih hsize fun xs₁ x' xs₂ ys₁ y' ys₂ hxs hys hrest before =>
        h (x :: xs₁) x' xs₂ (y :: ys₁) y' ys₂ (by rw [hxs]; rfl) (by rw [hys]; rfl) hrest
          (.cons hr before)
      refine ⟨r, (heventually.and htail).mono ?_⟩
      rintro steps ⟨hxy, hrest⟩
      rw [pairsEqual_cons, hxy, ← hrest]
      rfl

theorem exists_entryValue? {k : Value} {fs : List (Value × Value)}
    (h : ∀ passed f rest, fs = passed ++ f :: rest → (∀ g ∈ passed, Answers cells [] g.1 k false) →
      ∃ r, Answers cells [] f.1 k r) :
    ∃ found, (∀ᶠ steps in atTop, entryValue? (equalWithin cells steps [] · k) fs = some found) ∧
      ∀ w, found = some w → ∃ passed f rest, fs = passed ++ f :: rest ∧
        (∀ g ∈ passed, Answers cells [] g.1 k false) ∧ Answers cells [] f.1 k true ∧ f.2 = w := by
  induction fs with
  | nil => exact ⟨none, .of_forall fun steps => rfl, nofun⟩
  | cons f fs ih =>
    obtain ⟨r, hr⟩ := h [] f fs rfl (List.forall_mem_nil _)
    have heventually := answers_iff_eventually.mp hr
    cases r with
    | true =>
      refine ⟨some f.2, heventually.mono fun steps hf => ?_, ?_⟩
      · rw [entryValue?_cons, hf]
        rfl
      · rintro w ⟨⟩
        exact ⟨[], f, fs, rfl, List.forall_mem_nil _, hr, rfl⟩
    | false =>
      have cons {passed : List (Value × Value)} (hpassed : ∀ g ∈ passed, Answers cells [] g.1 k false) :
          ∀ g ∈ f :: passed, Answers cells [] g.1 k false :=
        List.forall_mem_cons.mpr ⟨hr, hpassed⟩
      obtain ⟨found, hfound, hsome⟩ := ih fun passed g rest hfs hpassed =>
        h (f :: passed) g rest (by rw [hfs]; rfl) (cons hpassed)
      refine ⟨found, (heventually.and hfound).mono ?_, fun w hw => ?_⟩
      · rintro steps ⟨hf, hrest⟩
        rw [entryValue?_cons, hf, ← hrest]
        rfl
      · obtain ⟨passed, g, rest, hfs, hpassed, hkey, hvalue⟩ := hsome w hw
        exact ⟨f :: passed, g, rest, by rw [hfs]; rfl, cons hpassed, hkey, hvalue⟩

theorem exists_found {es fs : List (Value × Value)}
    (hkeys : ∀ es₁ e es₂, es = es₁ ++ e :: es₂ → (∀ d ∈ es₁, HasCounterpart cells opened fs d) →
      ∀ passed f rest, fs = passed ++ f :: rest → (∀ g ∈ passed, Answers cells [] g.1 e.1 false) →
        ∃ r, Answers cells [] f.1 e.1 r)
    (hvalues : ∀ es₁ e es₂, es = es₁ ++ e :: es₂ → (∀ d ∈ es₁, HasCounterpart cells opened fs d) →
      ∀ passed f rest, fs = passed ++ f :: rest → (∀ g ∈ passed, Answers cells [] g.1 e.1 false) →
        Answers cells [] f.1 e.1 true → ∃ r, Answers cells opened f.2 e.2 r) :
    ∃ r, ∀ᶠ steps in atTop,
      entriesEqual.found (equalWithin cells steps []) (equalWithin cells steps opened) fs es =
        some r := by
  induction es with
  | nil => exact ⟨true, .of_forall fun steps => rfl⟩
  | cons e es ih =>
    obtain ⟨found, hfound, hsome⟩ := exists_entryValue? (hkeys [] e es rfl (List.forall_mem_nil _))
    cases found with
    | none =>
      refine ⟨false, hfound.mono fun steps hnone => ?_⟩
      rw [found_cons, hnone]
      rfl
    | some w =>
      obtain ⟨passed, f, rest, hfs, hpassed, hkey, rfl⟩ := hsome w rfl
      obtain ⟨r, hr⟩ := hvalues [] e es rfl (List.forall_mem_nil _) passed f rest hfs hpassed hkey
      have hboth := hfound.and (answers_iff_eventually.mp hr)
      cases r with
      | false =>
        refine ⟨false, hboth.mono fun steps ⟨hf, hv⟩ => ?_⟩
        rw [found_cons, hf, Option.bind_some]
        simp only [hv]
        rfl
      | true =>
        have cons {es₁ : List (Value × Value)} (before : ∀ d ∈ es₁, HasCounterpart cells opened fs d) :
            ∀ d ∈ e :: es₁, HasCounterpart cells opened fs d :=
          List.forall_mem_cons.mpr ⟨⟨passed, f, rest, hfs, hpassed, hkey, hr⟩, before⟩
        obtain ⟨r, htail⟩ := ih
          (fun es₁ e' es₂ hes before => hkeys (e :: es₁) e' es₂ (by rw [hes]; rfl) (cons before))
          (fun es₁ e' es₂ hes before => hvalues (e :: es₁) e' es₂ (by rw [hes]; rfl) (cons before))
        refine ⟨r, (hboth.and htail).mono fun steps ⟨⟨hf, hv⟩, hrest⟩ => ?_⟩
        rw [found_cons, hf, Option.bind_some]
        simp only [hv, ← hrest]
        rfl

/-- A comparison comes to an answer when all that it asks for do. -/
theorem answered_of_asked (h : ∀ q, Asks cells p q → q.Answered cells) : p.Answered cells := by
  obtain ⟨opened, a, b⟩ := p
  cases compared cells a b with
  | atOnce answer hs => exact ⟨answer, 1, hs 0 opened⟩
  | @items _ _ xs ys ha hb hs =>
    by_cases hlen : xs.length = ys.length
    · have hpairs : ∃ r, ∀ᶠ steps in atTop,
          itemsEqual.pairsEqual (equalWithin cells steps opened) xs ys = some r :=
        exists_pairsEqual hlen fun xs₁ x xs₂ ys₁ y ys₂ hxs hys hrest before =>
          h _ (.item (hxs ▸ ha) (hys ▸ hb) hrest before)
      obtain ⟨r, hr⟩ := hpairs
      obtain ⟨steps, hr⟩ := hr.exists
      exact ⟨r, steps + 1, by rw [hs, itemsEqual, if_pos hlen, hr]⟩
    · exact ⟨false, 1, by rw [hs, itemsEqual, if_neg hlen]⟩
  | maps es fs =>
    by_cases hlen : es.length = fs.length
    · have hfound : ∃ r, ∀ᶠ steps in atTop, entriesEqual.found (equalWithin cells steps [])
          (equalWithin cells steps opened) fs es = some r := by
        refine exists_found ?_ ?_
        · rintro es₁ e es₂ rfl before passed f rest rfl hpassed
          exact h _ (.key hlen before hpassed)
        · rintro es₁ e es₂ rfl before passed f rest rfl hpassed hkey
          exact h _ (.value hlen before hpassed hkey)
      obtain ⟨r, hr⟩ := hfound
      obtain ⟨steps, hr⟩ := hr.exists
      exact ⟨r, steps + 1, by rw [equalWithin, entriesEqual, if_pos hlen, hr]⟩
    · exact ⟨false, 1, by rw [equalWithin, entriesEqual, if_neg hlen]⟩
  | atoms c d =>
    by_cases hcd : c = d ∨ (c, d) ∈ opened
    · exact ⟨true, 1, by rw [equalWithin_atoms, if_pos hcd]⟩
    · obtain ⟨hne, hnew⟩ := not_or.mp hcd
      obtain ⟨r, steps, hr⟩ := h _ (.content hne hnew)
      exact ⟨r, steps + 1, by rw [equalWithin_atoms, if_neg hcd, hr]⟩

end Comparison

end Lisp
