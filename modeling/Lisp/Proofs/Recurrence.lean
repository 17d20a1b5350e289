import Lisp.Proofs.Asking
import Mathlib.Data.Finite.Prod
import Mathlib.Data.Prod.Lex
import Mathlib.Data.Set.Finite.Lattice
import Mathlib.Logic.Relation

/-! Which comparisons come to no answer. Keys are compared with no pair of atoms open, so a comparison of
keys can ask for itself again. This is the only way to go on for ever: between two comparisons of keys, a
comparison goes inward or opens a pair of atoms, and there are finitely many keys. -/

namespace Lisp

namespace Value

variable {cells : Cells}

theorem finite_parts (v : Value) : {x | Part x v}.Finite := by
  induction hn : v.height using Nat.strong_induction_on generalizing v with
  | _ n ih =>
    subst hn
    match hv : v.items? with
    | some items =>
      have hitems : (⋃ y ∈ {y | y ∈ items}, {x | Part x y}).Finite :=
        (List.finite_toSet items).biUnion fun y hy => ih _ (height_item_lt hv hy) y rfl
      refine (hitems.insert v).subset fun x hx => ?_
      cases hx with
      | refl => exact .inl rfl
      | item hv' hy h =>
        cases hv.symm.trans hv'
        exact .inr (Set.mem_biUnion hy h)
      | key | value => cases hv
    | none =>
      by_cases hmap : ∃ es, v = .map es
      · obtain ⟨es, rfl⟩ := hmap
        have hentries : (⋃ e ∈ {e | e ∈ es}, ({x | Part x e.1} ∪ {x | Part x e.2})).Finite :=
          (List.finite_toSet es).biUnion fun e he =>
            (ih _ (height_key_lt he) e.1 rfl).union (ih _ (height_value_lt he) e.2 rfl)
        refine (hentries.insert (.map es)).subset fun x hx => ?_
        cases hx with
        | refl => exact .inl rfl
        | item hv' => cases hv'
        | key he h => exact .inr (Set.mem_biUnion he (.inl h))
        | value he h => exact .inr (Set.mem_biUnion he (.inr h))
      · refine (Set.finite_singleton v).subset fun x hx => ?_
        cases hx with
        | refl => rfl
        | item hv' => cases hv.symm.trans hv'
        | key | value => exact absurd ⟨_, rfl⟩ hmap

/-- A value holds its parts, and an atom holds its content. -/
inductive Holds (cells : Cells) : Value → Value → Prop
  | part {v x : Value} (h : Part x v) : Holds cells v x
  | content (c : Cell) : Holds cells (.atom c) (cells.content c)

def Reaches (cells : Cells) : Value → Value → Prop :=
  Relation.ReflTransGen (Holds cells)

theorem Reaches.part_or {v x : Value} (h : Reaches cells v x) :
    Part x v ∨ ∃ c, Part x (cells.content c) := by
  induction h with
  | refl => exact .inl (.refl v)
  | tail _ h ih =>
    cases h with
    | part hx =>
      obtain hy | ⟨c, hy⟩ := ih
      · exact .inl (hx.trans hy)
      · exact .inr ⟨c, hx.trans hy⟩
    | content c => exact .inr ⟨c, .refl _⟩

theorem finite_reaches (cells : Cells) (v : Value) : {x | Reaches cells v x}.Finite := by
  have hcontents : {w | ∃ c, w = cells.content c}.Finite := by
    refine ((List.finite_toSet cells.toList).insert .nil).subset ?_
    rintro _ ⟨c, rfl⟩
    by_cases hc : c.slot < cells.size
    · exact .inr (by simp [Cells.content, hc])
    · exact .inl (content_of_size_le (Nat.le_of_not_lt hc))
  have hparts := hcontents.biUnion fun w _ => finite_parts w
  refine ((finite_parts v).union hparts).subset fun x hx => ?_
  obtain h | ⟨c, h⟩ := hx.part_or
  · exact .inl h
  · exact .inr (Set.mem_biUnion ⟨c, rfl⟩ h)

/-- What holds no atom reaches nothing but its parts. -/
theorem AtomFree.part_of_reaches {v x : Value} (h : AtomFree v) (hx : Reaches cells v x) : Part x v := by
  induction hx with
  | refl => exact .refl v
  | tail _ hstep ih =>
    cases hstep with
    | part hx => exact hx.trans ih
    | content c => exact absurd ih (h c)

/-- Where keys hold no atoms, no key reaches the map that it is in. -/
theorem WellKeyed.not_reaches {v : Value} {es : List (Value × Value)} (h : WellKeyed cells v)
    (hcells : ∀ c, WellKeyed cells (cells.content c)) (hes : Reaches cells v (.map es)) :
    ∀ e ∈ es, ¬ Reaches cells e.1 (.map es) := by
  intro e he hback
  have hkeys : ∀ e ∈ es, AtomFree e.1 := by
    obtain hpart | ⟨c, hpart⟩ := hes.part_or
    · exact (h es hpart).1
    · exact (hcells c es hpart).1
  have hle := ((hkeys e he).part_of_reaches hback).height_le
  exact absurd (height_key_lt he) (Nat.not_lt.mpr hle)

end Value

namespace Comparison

open Value Relation

variable {cells : Cells} {p q : Comparison}

/-! What the two sides of a comparison hold is what the sides of the one before it hold. -/

theorem Asks.reaches (h : Asks cells p q) :
    Reaches cells p.left q.left ∧ Reaches cells p.right q.right ∨
      Reaches cells p.right q.left ∧ Reaches cells p.left q.right := by
  cases h with
  | item ha hb =>
    exact .inl ⟨.single (.part (.item ha (by simp) (.refl _))),
      .single (.part (.item hb (by simp) (.refl _)))⟩
  | key =>
    exact .inr ⟨.single (.part (.key (by simp) (.refl _))), .single (.part (.key (by simp) (.refl _)))⟩
  | value =>
    exact .inr ⟨.single (.part (.value (by simp) (.refl _))),
      .single (.part (.value (by simp) (.refl _)))⟩
  | content => exact .inl ⟨.single (.content _), .single (.content _)⟩

theorem reaches_of_reflTransGen (h : ReflTransGen (Asks cells) p q) :
    Reaches cells p.left q.left ∧ Reaches cells p.right q.right ∨
      Reaches cells p.right q.left ∧ Reaches cells p.left q.right := by
  induction h with
  | refl => exact .inl ⟨.refl, .refl⟩
  | tail _ h ih =>
    obtain ⟨hl, hr⟩ | ⟨hl, hr⟩ := ih <;> obtain ⟨hl', hr'⟩ | ⟨hl', hr'⟩ := h.reaches
    · exact .inl ⟨hl.trans hl', hr.trans hr'⟩
    · exact .inr ⟨hr.trans hl', hl.trans hr'⟩
    · exact .inr ⟨hl.trans hl', hr.trans hr'⟩
    · exact .inl ⟨hr.trans hl', hl.trans hr'⟩

/-- How far a comparison is from its end: first the pairs of atoms that it can still open, then the
heights of the values. -/
def distance (cells : Cells) (p : Comparison) : ℕ ×ₗ ℕ :=
  toLex ((unopened cells p.opened).card, p.left.height + p.right.height)

/-- The second comparison is that of a key in the right one of two maps with a key in the left one. -/
def OfKeys (p q : Comparison) : Prop :=
  ∃ es fs, p.left = .map es ∧ p.right = .map fs ∧ ∃ e ∈ es, ∃ f ∈ fs, q = ⟨[], f.1, e.1⟩

/-- What is asked for is a comparison of keys, is answered at once, or is nearer to the end. -/
theorem Asks.nearer (h : Asks cells p q) :
    p.OfKeys q ∨ q.Answered cells ∨ q.distance cells < p.distance cells := by
  simp only [distance, Prod.Lex.toLex_lt_toLex]
  cases h with
  | item ha hb =>
    have hleft := height_item_lt ha (List.mem_append_right _ List.mem_cons_self)
    have hright := height_item_lt hb (List.mem_append_right _ List.mem_cons_self)
    exact .inr (.inr (.inr ⟨rfl, Nat.add_lt_add hleft hright⟩))
  | key => exact .inl ⟨_, _, rfl, rfl, _, by simp, _, by simp, rfl⟩
  | @value opened es e es' fs f fs' =>
    have hleft : e.2.height < (Value.map (es ++ e :: es')).height := height_value_lt (by simp)
    have hright : f.2.height < (Value.map (fs ++ f :: fs')).height := height_value_lt (by simp)
    exact .inr (.inr (.inr ⟨rfl, by simp only; omega⟩))
  | @content opened c d _ hnew =>
    by_cases hc : c.slot < cells.size
    · by_cases hd : d.slot < cells.size
      · exact .inr (.inr (.inl (card_unopened_cons_lt hc hd hnew)))
      · have hnil := content_of_size_le (Nat.le_of_not_lt hd)
        exact .inr (.inl (by simpa [Answered, hnil] using exists_answer_nil_right _ _))
    · have hnil := content_of_size_le (Nat.le_of_not_lt hc)
      exact .inr (.inl (by simpa [Answered, hnil] using exists_answer_nil_left _ _))

/-- A comparison has an answer when those that it leads to and that begin with no pair open have one. -/
theorem answered_of_restarts (h : ∀ q, q.opened = [] → TransGen (Asks cells) p q → q.Answered cells) :
    p.Answered cells := by
  induction hd : p.distance cells using WellFoundedLT.induction generalizing p with
  | _ d ih =>
    subst hd
    refine answered_of_asked fun q hq => ?_
    obtain ⟨es, fs, -, -, e, -, f, -, rfl⟩ | hanswered | hlt := hq.nearer
    · exact h _ rfl (.single hq)
    · exact hanswered
    · exact ih _ hlt (fun q' hopened hq' => h q' hopened (.head hq hq')) rfl

theorem answered_of_not_recurs {a b : Value}
    (h : ∀ p, ReflTransGen (Asks cells) ⟨[], a, b⟩ p → ¬ TransGen (Asks cells) p p) :
    Answered cells ⟨[], a, b⟩ := by
  let Met (p : Comparison) : Prop := p.opened = [] ∧ ReflTransGen (Asks cells) ⟨[], a, b⟩ p
  have : Finite {p // Met p} := by
    have hreached := (finite_reaches cells a).union (finite_reaches cells b)
    refine ((hreached.prod hreached).image fun x => (⟨[], x.1, x.2⟩ : Comparison)).subset ?_
    rintro ⟨_, x, y⟩ ⟨rfl, hp⟩
    obtain ⟨hx, hy⟩ | ⟨hx, hy⟩ := reaches_of_reflTransGen hp
    · exact ⟨(x, y), ⟨.inl hx, .inr hy⟩, rfl⟩
    · exact ⟨(x, y), ⟨.inr hx, .inl hy⟩, rfl⟩
  let After (p q : {p // Met p}) : Prop := TransGen (Asks cells) q.1 p.1
  have : IsTrans _ After := ⟨fun _ _ _ hpq hqr => hqr.trans hpq⟩
  have : Std.Irrefl After := ⟨fun p hp => h p.1 p.2.2 hp⟩
  have hwf : WellFounded After := Finite.wellFounded_of_trans_of_irrefl After
  have answered (p : {p // Met p}) : p.1.Answered cells := by
    induction p using hwf.induction with
    | _ p ih =>
      refine answered_of_restarts fun q hopened hq => ?_
      exact ih ⟨q, hopened, p.2.2.trans hq.to_reflTransGen⟩ hq
  exact answered ⟨⟨[], a, b⟩, rfl, .refl⟩

/-- Each comparison on the way is answered in fewer steps. -/
theorem answered_of_transGen {steps : Nat} {r : Bool} (h : TransGen (Asks cells) p q)
    (hp : equalWithin cells steps p.opened p.left p.right = some r) :
    ∃ fewer < steps, ∃ answer, equalWithin cells fewer q.opened q.left q.right = some answer := by
  induction h using TransGen.head_induction_on generalizing steps r with
  | single h =>
    obtain _ | steps := steps
    · cases hp
    · exact ⟨steps, Nat.lt_succ_self steps, h.answered_of_succ hp⟩
  | head h _ ih =>
    obtain _ | steps := steps
    · cases hp
    · obtain ⟨answer, hanswer⟩ := h.answered_of_succ hp
      obtain ⟨fewer, hlt, hq⟩ := ih hanswer
      exact ⟨fewer, hlt.trans (Nat.lt_succ_self steps), hq⟩

theorem equalWithin_of_recurs (h : TransGen (Asks cells) p p) (steps : Nat) :
    equalWithin cells steps p.opened p.left p.right = none := by
  induction steps using Nat.strong_induction_on with
  | _ steps ih =>
    refine Option.eq_none_iff_forall_ne_some.mpr fun r hp => ?_
    obtain ⟨fewer, hlt, answer, hanswer⟩ := answered_of_transGen h hp
    exact nomatch (ih fewer hlt).symm.trans hanswer

theorem not_answered_of_recurs (hq : TransGen (Asks cells) q q)
    (hp : ReflTransGen (Asks cells) p q) : ¬ p.Answered cells := by
  rintro ⟨r, steps, hr⟩
  obtain rfl | hp := reflTransGen_iff_eq_or_transGen.mp hp
  · exact nomatch (equalWithin_of_recurs hq steps).symm.trans hr
  · obtain ⟨fewer, -, answer, hanswer⟩ := answered_of_transGen hp hr
    exact nomatch (equalWithin_of_recurs hq fewer).symm.trans hanswer

/-- On the way from a comparison to one that comes back to itself keys are compared, or each comparison is
nearer to the end than the one before. -/
theorem exists_ofKeys (hq : TransGen (Asks cells) q q) (hp : TransGen (Asks cells) p q) :
    (∃ s t, ReflTransGen (Asks cells) p s ∧ s.OfKeys t ∧ ReflTransGen (Asks cells) t q) ∨
      q.distance cells < p.distance cells := by
  induction hp using TransGen.head_induction_on with
  | single h =>
    obtain hkeys | hanswered | hlt := h.nearer
    · exact .inl ⟨_, _, .refl, hkeys, .refl⟩
    · exact absurd hanswered (not_answered_of_recurs hq .refl)
    · exact .inr hlt
  | head h hrest ih =>
    have hrest := hrest.to_reflTransGen
    obtain hkeys | hanswered | hlt := h.nearer
    · exact .inl ⟨_, _, .refl, hkeys, hrest⟩
    · exact absurd hanswered (not_answered_of_recurs hq hrest)
    · obtain ⟨s, t, hs, hkeys, ht⟩ | hlt' := ih
      · exact .inl ⟨s, t, .head h hs, hkeys, ht⟩
      · exact .inr (hlt'.trans hlt)

/-- Where a comparison comes back to itself, a map is held by one of its own keys. -/
theorem exists_selfKeyed (hq : TransGen (Asks cells) q q) (hp : ReflTransGen (Asks cells) p q) :
    ∃ fs, (Reaches cells p.left (.map fs) ∨ Reaches cells p.right (.map fs)) ∧
      ∃ f ∈ fs, Reaches cells f.1 (.map fs) := by
  obtain ⟨s, t, hs, hkeys, ht⟩ | hlt := exists_ofKeys hq hq
  · obtain ⟨es, fs, hes, hfs, e, he, f, hf, rfl⟩ := hkeys
    have hreached := reaches_of_reflTransGen (hp.trans hs)
    have hback := reaches_of_reflTransGen (ht.trans hs)
    rw [hes, hfs] at hreached hback
    refine ⟨fs, hreached.elim (fun h => .inr h.2) (fun h => .inl h.2), f, hf, ?_⟩
    obtain ⟨hf, he'⟩ | ⟨-, hf⟩ := hback
    · exact hf.trans (.head (.part (.key he (.refl _))) he')
    · exact hf
  · exact absurd hlt (lt_irrefl _)

end Comparison

namespace Value

open Comparison Relation

variable {cells : Cells}

/-- A comparison of two values comes to an answer, which more steps do not change, unless a comparison on
its way asks for itself again. That never happens where no map is held by one of its own keys. -/
theorem equal_answers_iff (cells : Cells) (a b : Value) :
    ((∃ steps answer, ∀ more, steps ≤ more → a.equal? cells more b = some answer) ↔
        ∀ p, ReflTransGen (Asks cells) ⟨[], a, b⟩ p → ¬ TransGen (Asks cells) p p) ∧
      ((∀ es, Reaches cells a (.map es) ∨ Reaches cells b (.map es) →
          ∀ e ∈ es, ¬ Reaches cells e.1 (.map es)) →
        ∃ steps answer, ∀ more, steps ≤ more → a.equal? cells more b = some answer) := by
  have answers (h : ∀ p, ReflTransGen (Asks cells) ⟨[], a, b⟩ p → ¬ TransGen (Asks cells) p p) :
      ∃ steps answer, ∀ more, steps ≤ more → a.equal? cells more b = some answer := by
    obtain ⟨answer, steps, hr⟩ := answered_of_not_recurs h
    exact ⟨steps, answer, fun more hle => equalWithin_mono hle [] a b answer hr⟩
  refine ⟨⟨?_, answers⟩, fun h => answers fun p hp hrecurs => ?_⟩
  · rintro ⟨steps, answer, h⟩ p hp hrecurs
    exact not_answered_of_recurs hrecurs hp ⟨answer, steps, h steps le_rfl⟩
  · obtain ⟨es, hreached, e, he, hself⟩ := exists_selfKeyed hrecurs hp
    exact h es hreached e he hself

/-- Two atoms, each of which holds a map with itself as a value: their comparison comes round to the same
pairs of atoms, but to no comparison of keys. -/
theorem equal_answers_iff_value :
    let cells : Cells := #[.map [(.keyword "k", .atom ⟨0⟩)], .map [(.keyword "k", .atom ⟨1⟩)]]
    (∀ es, Reaches cells (.atom ⟨0⟩) (.map es) ∨ Reaches cells (.atom ⟨1⟩) (.map es) →
        ∀ e ∈ es, ¬ Reaches cells e.1 (.map es)) ∧
      ∃ steps answer, ∀ more, steps ≤ more →
        equal? cells more (.atom ⟨0⟩) (.atom ⟨1⟩) = some answer := by
  intro cells
  have hatom (c : Cell) : WellKeyed cells (.atom c) := wellKeyed_scalar rfl nofun
  have hmap (c : Cell) : WellKeyed cells (.map [(.keyword "k", .atom c)]) := by
    have hkey : AtomFree (.keyword "k") := by
      intro c hc
      cases hc with
      | item hv => cases hv
    exact wellKeyed_map (List.forall_mem_singleton.mpr hkey) (List.pairwise_singleton _ _)
      (List.forall_mem_singleton.mpr ⟨wellKeyed_scalar rfl nofun, hatom c⟩)
  have hcells : ∀ c, WellKeyed cells (cells.content c) := by
    rintro ⟨_ | _ | n⟩
    · exact hmap ⟨0⟩
    · exact hmap ⟨1⟩
    · exact wellKeyed_scalar (v := .nil) rfl nofun
  have hkeys : ∀ es, Reaches cells (.atom ⟨0⟩) (.map es) ∨ Reaches cells (.atom ⟨1⟩) (.map es) →
      ∀ e ∈ es, ¬ Reaches cells e.1 (.map es) := by
    rintro es (hes | hes)
    · exact (hatom ⟨0⟩).not_reaches hcells hes
    · exact (hatom ⟨1⟩).not_reaches hcells hes
  exact ⟨hkeys, (equal_answers_iff cells (.atom ⟨0⟩) (.atom ⟨1⟩)).2 hkeys⟩

/-- Atoms that hold a map with themselves as its key: a comparison of the two asks for that of the keys,
the other way round. -/
theorem asks_of_self_keyed {c d : Cell} {v w : Value} (hne : c ≠ d)
    (hc : cells.content c = .map [(.atom c, v)]) (hd : cells.content d = .map [(.atom d, w)]) :
    TransGen (Asks cells) ⟨[], .atom c, .atom d⟩ ⟨[], .atom d, .atom c⟩ := by
  have hcontent : Asks cells ⟨[], .atom c, .atom d⟩ ⟨[(c, d)], cells.content c, cells.content d⟩ :=
    .content hne List.not_mem_nil
  have hkey : Asks cells ⟨[(c, d)], .map ([] ++ (.atom c, v) :: []), .map ([] ++ (.atom d, w) :: [])⟩
      ⟨[], .atom d, .atom c⟩ := .key rfl (List.forall_mem_nil _) (List.forall_mem_nil _)
  rw [hc, hd] at hcontent
  exact .head hcontent (.single hkey)

/-- Two atoms that are not the same, each of which holds a map with itself as its key, are never found to be
equal or to differ. -/
theorem equal_never_answers :
    let cells : Cells := #[.map [(.atom ⟨0⟩, .int 1)], .map [(.atom ⟨1⟩, .int 1)]]
    ∀ steps, equal? cells steps (.atom ⟨0⟩) (.atom ⟨1⟩) = none := by
  intro cells steps
  have hthere : TransGen (Asks cells) ⟨[], .atom ⟨0⟩, .atom ⟨1⟩⟩ ⟨[], .atom ⟨1⟩, .atom ⟨0⟩⟩ :=
    asks_of_self_keyed (by decide) rfl rfl
  have hback : TransGen (Asks cells) ⟨[], .atom ⟨1⟩, .atom ⟨0⟩⟩ ⟨[], .atom ⟨0⟩, .atom ⟨1⟩⟩ :=
    asks_of_self_keyed (by decide) rfl rfl
  exact equalWithin_of_recurs (hthere.trans hback) steps

end Value

end Lisp
