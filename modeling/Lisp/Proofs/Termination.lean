import Lisp.Proofs.Bisimulation
import Mathlib.Data.Finset.Prod
import Mathlib.Data.List.ProdSigma

/-! A comparison of values whose maps have distinct keys without atoms comes to an end, whatever
cycles there are among the atoms. -/

namespace Lisp

namespace Value

variable {cells : Cells}

theorem equalWithin_atoms (cells : Cells) (steps : Nat) (opened : List (Cell × Cell)) (c d : Cell) :
    equalWithin cells (steps + 1) opened (.atom c) (.atom d) =
      if c = d ∨ (c, d) ∈ opened then some true
      else equalWithin cells steps ((c, d) :: opened) (cells.content c) (cells.content d) := by
  simp [equalWithin]

/-! More steps never change an answer. -/

theorem equalWithin_succ (cells : Cells) (steps : Nat) (opened : List (Cell × Cell)) :
    Refines (equalWithin cells steps opened) (equalWithin cells (steps + 1) opened) := by
  induction steps generalizing opened with
  | zero => intro a b r h; simp [equalWithin] at h
  | succ steps ih =>
    intro a b r h
    cases compared cells a b with
    | atOnce answer hs => rwa [hs] at h ⊢
    | items _ _ hs =>
      rw [hs] at h ⊢
      exact itemsEqual_refines (ih opened) h
    | maps es fs => exact entriesEqual_refines (ih []) (ih opened) h
    | atoms c d =>
      rw [equalWithin_atoms] at h ⊢
      split at h
      · next hcd => rwa [if_pos hcd]
      · next hcd =>
        rw [if_neg hcd]
        exact ih _ _ _ _ h

theorem equalWithin_mono {steps more : Nat} (hle : steps ≤ more) (opened : List (Cell × Cell)) :
    Refines (equalWithin cells steps opened) (equalWithin cells more opened) := by
  induction hle with
  | refl => exact fun _ _ _ h => h
  | step _ ih => exact fun a b r h => equalWithin_succ cells _ opened a b r (ih a b r h)

theorem Answers.unique {opened : List (Cell × Cell)} {a b : Value} {r r' : Bool}
    (h : Answers cells opened a b r) (h' : Answers cells opened a b r') : r = r' := by
  obtain ⟨steps, h⟩ := h
  obtain ⟨steps', h'⟩ := h'
  have hl := equalWithin_mono (Nat.le_max_left steps steps') opened _ _ _ h
  have hr := equalWithin_mono (Nat.le_max_right steps steps') opened _ _ _ h'
  exact Option.some.inj (hl.symm.trans hr)

theorem Answers.not_equal {a b : Value} (h : Answers cells [] a b false) : ¬ Equal cells a b :=
  fun hequal => Bool.noConfusion (h.unique hequal)

/-! Comparisons come to an end. -/

theorem exists_steps {opened : List (Cell × Cell)} {l : List (Value × Value)}
    (h : ∀ p ∈ l, ∃ r, Answers cells opened p.1 p.2 r) :
    ∃ steps, ∀ more, steps ≤ more →
      ∀ p ∈ l, ∃ r, equalWithin cells more opened p.1 p.2 = some r := by
  induction l with
  | nil => exact ⟨0, by simp⟩
  | cons p l ih =>
    obtain ⟨r, steps, hp⟩ := h p (by simp)
    obtain ⟨steps', hl⟩ := ih fun q hq => h q (by simp [hq])
    refine ⟨max steps steps', fun more hmore => ?_⟩
    have hp' := equalWithin_mono ((Nat.le_max_left _ _).trans hmore) opened _ _ _ hp
    have hl' := hl more ((Nat.le_max_right _ _).trans hmore)
    exact List.forall_mem_cons.mpr ⟨⟨r, hp'⟩, hl'⟩

theorem exists_steps_product {opened : List (Cell × Cell)} {α β : Type} {l : List α} {m : List β}
    {x : α → Value} {y : β → Value}
    (h : ∀ e ∈ l, ∀ f ∈ m, ∃ r, Answers cells opened (y f) (x e) r) :
    ∃ steps, ∀ more, steps ≤ more →
      ∀ e ∈ l, ∀ f ∈ m, ∃ r, equalWithin cells more opened (y f) (x e) = some r := by
  have hpairs : ∀ p ∈ (l.product m).map fun p => (y p.2, x p.1),
      ∃ r, Answers cells opened p.1 p.2 r := by
    intro p hp
    obtain ⟨⟨e, f⟩, hef, rfl⟩ := List.mem_map.mp hp
    have hmem := List.mem_product.mp hef
    exact h e hmem.1 f hmem.2
  obtain ⟨steps, hs⟩ := exists_steps hpairs
  refine ⟨steps, fun more hmore e he f hf => ?_⟩
  have hmem : (e, f) ∈ l.product m := List.mem_product.mpr ⟨he, hf⟩
  exact hs more hmore (y f, x e) (List.mem_map.mpr ⟨(e, f), hmem, rfl⟩)

theorem exists_answer {opened : List (Cell × Cell)} {a b : Value}
    (hitems : ∀ xs ys, a.items? = some xs → b.items? = some ys →
      ∀ y ∈ ys, ∀ x ∈ xs, ∃ r, Answers cells opened x y r)
    (hkeys : ∀ es fs, a = .map es → b = .map fs →
      ∀ e ∈ es, ∀ f ∈ fs, ∃ r, Answers cells [] f.1 e.1 r)
    (hvalues : ∀ es fs, a = .map es → b = .map fs →
      ∀ e ∈ es, ∀ f ∈ fs, ∃ r, Answers cells opened f.2 e.2 r)
    (hatoms : ∀ c d, a = .atom c → b = .atom d → (c, d) ∉ opened →
      ∃ r, Answers cells ((c, d) :: opened) (cells.content c) (cells.content d) r) :
    ∃ r, Answers cells opened a b r := by
  cases compared cells a b with
  | atOnce answer hs => exact ⟨answer, 1, hs 0 opened⟩
  | items ha hb hs =>
    obtain ⟨steps, h⟩ := exists_steps_product (hitems _ _ ha hb)
    obtain ⟨r, hr⟩ := itemsEqual_total fun x hx y hy => h steps le_rfl y hy x hx
    exact ⟨r, steps + 1, (hs steps opened).trans hr⟩
  | maps es fs =>
    obtain ⟨steps, hk⟩ := exists_steps_product (hkeys es fs rfl rfl)
    obtain ⟨steps', hv⟩ := exists_steps_product (hvalues es fs rfl rfl)
    have hkeys := hk _ (Nat.le_max_left steps steps')
    have hvalues := hv _ (Nat.le_max_right steps steps')
    obtain ⟨r, hr⟩ := entriesEqual_total hkeys hvalues
    exact ⟨r, max steps steps' + 1, hr⟩
  | atoms c d =>
    by_cases hcd : c = d ∨ (c, d) ∈ opened
    · exact ⟨true, 1, by rw [equalWithin_atoms, if_pos hcd]⟩
    · obtain ⟨r, steps, hr⟩ := hatoms c d rfl rfl fun h => hcd (.inr h)
      exact ⟨r, steps + 1, by rw [equalWithin_atoms, if_neg hcd, hr]⟩

theorem AtomFree.exists_answer {a b : Value} (ha : AtomFree a) (hb : AtomFree b)
    (opened : List (Cell × Cell)) : ∃ r, Answers cells opened a b r := by
  induction hn : a.height + b.height using Nat.strong_induction_on generalizing a b opened with
  | _ n ih =>
    subst hn
    refine Value.exists_answer ?_ ?_ ?_ fun c d hc => absurd (hc ▸ Part.refl a) (ha c)
    · intro xs ys hxs hys y hy x hx
      have hlx := height_item_lt hxs hx
      have hly := height_item_lt hys hy
      exact ih _ (by omega) (ha.item hxs hx) (hb.item hys hy) opened rfl
    · rintro es fs rfl rfl e he f hf
      have hle := height_key_lt he
      have hlf := height_key_lt hf
      exact ih _ (by omega) (hb.key hf) (ha.key he) [] rfl
    · rintro es fs rfl rfl e he f hf
      have hle := height_value_lt he
      have hlf := height_value_lt hf
      exact ih _ (by omega) (hb.value hf) (ha.value he) opened rfl

/-- No key of a map in the value holds an atom, and no two keys of one map are equal. -/
def WellKeyed (cells : Cells) (v : Value) : Prop :=
  ∀ es, Part (.map es) v →
    (∀ e ∈ es, AtomFree e.1) ∧ es.Pairwise fun e f => ¬ Equal cells e.1 f.1

theorem WellKeyed.item {v x : Value} {items : List Value} (h : WellKeyed cells v)
    (hv : v.items? = some items) (hx : x ∈ items) : WellKeyed cells x :=
  fun es hes => h es (.item hv hx hes)

theorem WellKeyed.key {es : List (Value × Value)} {e : Value × Value}
    (h : WellKeyed cells (.map es)) (he : e ∈ es) : WellKeyed cells e.1 :=
  fun fs hfs => h fs (.key he hfs)

theorem WellKeyed.value {es : List (Value × Value)} {e : Value × Value}
    (h : WellKeyed cells (.map es)) (he : e ∈ es) : WellKeyed cells e.2 :=
  fun fs hfs => h fs (.value he hfs)

theorem WellKeyed.atomFree {es : List (Value × Value)} {e : Value × Value}
    (h : WellKeyed cells (.map es)) (he : e ∈ es) : AtomFree e.1 :=
  (h es (.refl _)).1 e he

theorem wellKeyed_scalar {v : Value} (hi : v.items? = none) (hm : ∀ es, v ≠ .map es) :
    WellKeyed cells v := by
  intro es hes
  cases hes with
  | refl => exact absurd rfl (hm es)
  | item hv => cases hi.symm.trans hv
  | key => exact absurd rfl (hm _)
  | value => exact absurd rfl (hm _)

theorem wellKeyed_items {v : Value} {items : List Value} (hv : v.items? = some items)
    (h : ∀ x ∈ items, WellKeyed cells x) : WellKeyed cells v := by
  intro es hes
  cases hes with
  | refl => cases hv
  | item hv' hy hes =>
    cases hv.symm.trans hv'
    exact h _ hy es hes
  | key => cases hv
  | value => cases hv

theorem wellKeyed_map {es : List (Value × Value)} (hkeys : ∀ e ∈ es, AtomFree e.1)
    (hdistinct : es.Pairwise fun e f => ¬ Equal cells e.1 f.1)
    (h : ∀ e ∈ es, WellKeyed cells e.1 ∧ WellKeyed cells e.2) : WellKeyed cells (.map es) := by
  intro fs hfs
  cases hfs with
  | refl => exact ⟨hkeys, hdistinct⟩
  | item hv => cases hv
  | key he hfs => exact (h _ he).1 fs hfs
  | value he hfs => exact (h _ he).2 fs hfs

/-- The pairs of cells that exist and are not being compared. -/
def unopened (cells : Cells) (opened : List (Cell × Cell)) : Finset (Nat × Nat) :=
  (Finset.range cells.size ×ˢ Finset.range cells.size) \
    (opened.map fun p => (p.1.slot, p.2.slot)).toFinset

theorem mem_unopened {opened : List (Cell × Cell)} {c d : Cell} :
    (c.slot, d.slot) ∈ unopened cells opened ↔
      (c.slot < cells.size ∧ d.slot < cells.size) ∧ (c, d) ∉ opened := by
  have hmem : (c.slot, d.slot) ∈ opened.map (fun p => (p.1.slot, p.2.slot)) ↔ (c, d) ∈ opened := by
    refine ⟨fun h => ?_, fun h => List.mem_map.mpr ⟨(c, d), h, rfl⟩⟩
    obtain ⟨⟨⟨i⟩, ⟨j⟩⟩, hmem, heq⟩ := List.mem_map.mp h
    obtain ⟨rfl, rfl⟩ := Prod.mk.inj heq
    exact hmem
  simp [unopened, -List.mem_map, hmem]

theorem card_unopened_cons_lt {opened : List (Cell × Cell)} {c d : Cell} (hc : c.slot < cells.size)
    (hd : d.slot < cells.size) (h : (c, d) ∉ opened) :
    (unopened cells ((c, d) :: opened)).card < (unopened cells opened).card := by
  apply Finset.card_lt_card
  refine Finset.ssubset_iff_of_subset ?_ |>.mpr ⟨(c.slot, d.slot), ?_, ?_⟩
  · rintro ⟨i, j⟩ hp
    obtain ⟨hsize, hp⟩ := (mem_unopened (c := ⟨i⟩) (d := ⟨j⟩)).mp hp
    exact mem_unopened.mpr ⟨hsize, fun hmem => hp (List.mem_cons_of_mem _ hmem)⟩
  · exact mem_unopened.mpr ⟨⟨hc, hd⟩, h⟩
  · exact fun hmem => (mem_unopened.mp hmem).2 List.mem_cons_self

theorem content_of_size_le {c : Cell} (h : cells.size ≤ c.slot) : cells.content c = .nil := by
  simp [Cells.content, h]

theorem exists_answer_nil_left (opened : List (Cell × Cell)) (b : Value) :
    ∃ r, Answers cells opened .nil b r :=
  exists_answer nofun nofun nofun nofun

theorem exists_answer_nil_right (opened : List (Cell × Cell)) (a : Value) :
    ∃ r, Answers cells opened a .nil r :=
  exists_answer (fun _ _ _ => nofun) (fun _ _ _ => nofun) (fun _ _ _ => nofun) (fun _ _ _ => nofun)

/-- A comparison either goes inward or opens a pair of atoms that was not open, and there are
finitely many of these. -/
theorem WellKeyed.exists_answer (hcells : ∀ c, WellKeyed cells (cells.content c)) {a b : Value}
    (ha : WellKeyed cells a) (hb : WellKeyed cells b) (opened : List (Cell × Cell)) :
    ∃ r, Answers cells opened a b r := by
  induction hn : (unopened cells opened).card
    using Nat.strong_induction_on generalizing a b opened with
  | _ n ihn =>
    induction hm : a.height + b.height using Nat.strong_induction_on generalizing a b with
    | _ m ihm =>
      subst hm
      refine Value.exists_answer ?_ ?_ ?_ ?_
      · intro xs ys hxs hys y hy x hx
        have hlx := height_item_lt hxs hx
        have hly := height_item_lt hys hy
        exact ihm _ (by omega) (ha.item hxs hx) (hb.item hys hy) rfl
      · rintro es fs rfl rfl e he f hf
        exact (hb.atomFree hf).exists_answer (ha.atomFree he) []
      · rintro es fs rfl rfl e he f hf
        have hle := height_value_lt he
        have hlf := height_value_lt hf
        exact ihm _ (by omega) (hb.value hf) (ha.value he) rfl
      · rintro c d rfl rfl hnew
        by_cases hc : c.slot < cells.size
        · by_cases hd : d.slot < cells.size
          · subst hn
            have hlt := card_unopened_cons_lt hc hd hnew
            exact ihn _ hlt (hcells c) (hcells d) _ rfl
          · have hnil := content_of_size_le (Nat.le_of_not_lt hd)
            rw [hnil]
            exact exists_answer_nil_right _ _
        · have hnil := content_of_size_le (Nat.le_of_not_lt hc)
          rw [hnil]
          exact exists_answer_nil_left _ _

end Value

end Lisp
