import Lisp.Proofs.Termination
import Mathlib.Order.Lattice
import Mathlib.Tactic.Tauto

/-! Equality of values is bisimilarity: a comparison answers whether the values are related by some
bisimulation. So equality is an equivalence, also of values with cycles. -/

namespace Lisp

namespace Value

variable {cells : Cells}

/-! A comparison takes the open pairs of atoms for granted. So what it answers is first read as
a relation that is a bisimulation when these pairs are added to it. -/

def IsBisimulationUpTo (cells : Cells) (A R : Value → Value → Prop) : Prop :=
  ∀ a b, R a b → Matches cells (fun x y => A x y ∨ R x y) a b

def RelatedUpTo (cells : Cells) (A : Value → Value → Prop) (a b : Value) : Prop :=
  A a b ∨ ∃ R, IsBisimulationUpTo cells A R ∧ R a b

/-- A pair that was taken for granted in `A'` need not be any more when its two values match. -/
theorem relatedUpTo_of_matches {A A' Q : Value → Value → Prop} (hA : ∀ x y, A' x y → A x y ∨ Q x y)
    (hQ : ∀ x y, Q x y → Matches cells (RelatedUpTo cells A') x y) {a b : Value} (h : Q a b) :
    RelatedUpTo cells A a b := by
  let R : Value → Value → Prop := fun x y => Q x y ∨ ∃ R', IsBisimulationUpTo cells A' R' ∧ R' x y
  have hsub : ∀ x y, RelatedUpTo cells A' x y → A x y ∨ R x y := by
    rintro x y (hxy | hxy)
    · exact (hA x y hxy).imp_right .inl
    · exact .inr (.inr hxy)
  refine .inr ⟨R, ?_, .inl h⟩
  rintro x y (hxy | ⟨R', hR', hxy⟩)
  · exact (hQ x y hxy).mono hsub
  · refine (hR' x y hxy).mono fun u v huv => hsub u v (huv.imp_right fun h => ⟨R', hR', h⟩)

/-- The pairs of atoms that are open, in either direction. -/
def Assumed (opened : List (Cell × Cell)) (a b : Value) : Prop :=
  ∃ c d, a = .atom c ∧ b = .atom d ∧ ((c, d) ∈ opened ∨ (d, c) ∈ opened)

theorem Assumed.symm {opened : List (Cell × Cell)} {a b : Value} (h : Assumed opened a b) :
    Assumed opened b a := by
  obtain ⟨c, d, ha, hb, hcd⟩ := h
  exact ⟨d, c, hb, ha, hcd.symm⟩

theorem not_assumed_nil (a b : Value) : ¬ Assumed [] a b := by
  rintro ⟨c, d, -, -, h | h⟩ <;> simp at h

theorem RelatedUpTo.bisimilar {a b : Value} (h : RelatedUpTo cells (Assumed []) a b) :
    Bisimilar cells a b := by
  rcases h with h | ⟨R, hR, hab⟩
  · exact absurd h (not_assumed_nil a b)
  · refine ⟨R, fun x y hxy => (hR x y hxy).mono fun u v huv => ?_, hab⟩
    exact huv.resolve_left (not_assumed_nil u v)

/-- A set of values on which comparisons end, and the keys of its maps, on which equality is an
equivalence and which are distinct in each map. -/
structure KeyedDomain (cells : Cells) (K D : Value → Prop) : Prop extends Closed cells D where
  key : ∀ {es : List (Value × Value)} {e : Value × Value}, D (.map es) → e ∈ es → K e.1
  distinct : ∀ {es : List (Value × Value)},
    D (.map es) → es.Pairwise fun e f => ¬ Equal cells e.1 f.1
  total : ∀ {a b : Value}, D a → D b → ∃ r, Answers cells [] a b r
  key_refl : ∀ {k : Value}, K k → Equal cells k k
  key_symm : ∀ {k l : Value}, K k → K l → Equal cells k l → Equal cells l k
  key_trans : ∀ {k l m : Value},
    K k → K l → K m → Equal cells k l → Equal cells l m → Equal cells k m

/-- When all of `es` have counterparts in `fs`, no two of them the same, and `fs` is as long,
then all of `fs` have counterparts in `es`. -/
theorem exists_counterpart {α β : Type} {M : α → β → Prop} {es : List α} {fs : List β}
    (hlen : es.length = fs.length) (hes : es.Pairwise fun e e' => ∀ f ∈ fs, ¬ (M e f ∧ M e' f))
    (h : ∀ e ∈ es, ∃ f ∈ fs, M e f) : ∀ f ∈ fs, ∃ e ∈ es, M e f := by
  induction es generalizing fs with
  | nil =>
    obtain rfl : fs = [] := List.length_eq_zero_iff.mp hlen.symm
    simp
  | cons e es ih =>
    obtain ⟨f, hf, hef⟩ := h e (by simp)
    obtain ⟨l, r, rfl⟩ := List.append_of_mem hf
    have hsub : ∀ g ∈ l ++ r, g ∈ l ++ f :: r := by
      intro g hg
      simp only [List.mem_append, List.mem_cons] at hg ⊢
      tauto
    have hp := List.pairwise_cons.mp hes
    have hrest : ∀ g ∈ l ++ r, ∃ e' ∈ es, M e' g := by
      refine ih (by simp at hlen ⊢; omega) (hp.2.imp fun he g hg => he g (hsub g hg)) ?_
      intro e' he'
      obtain ⟨g, hg, heg⟩ := h e' (by simp [he'])
      have hne : g ≠ f := by
        rintro rfl
        exact hp.1 e' he' g hg ⟨hef, heg⟩
      refine ⟨g, ?_, heg⟩
      simp only [List.mem_append, List.mem_cons] at hg ⊢
      tauto
    intro g hg
    by_cases hgf : g = f
    · exact ⟨e, by simp, hgf ▸ hef⟩
    · have hg' : g ∈ l ++ r := by
        simp only [List.mem_append, List.mem_cons] at hg ⊢
        tauto
      obtain ⟨e', he', heg⟩ := hrest g hg'
      exact ⟨e', by simp [he'], heg⟩

theorem forall₂_trans {R S : Value → Value → Prop} {xs ys zs : List Value}
    (hxy : List.Forall₂ R xs ys)
    (hyz : List.Forall₂ R ys zs) (hS : ∀ x ∈ xs, ∀ y ∈ ys, ∀ z ∈ zs, R x y → R y z → S x z) :
    List.Forall₂ S xs zs := by
  induction hxy generalizing zs with
  | nil =>
    cases hyz
    exact .nil
  | @cons x y xs ys h _ ih =>
    cases hyz with
    | @cons _ z _ zs h' hyz =>
      refine .cons (hS x (by simp) y (by simp) z (by simp) h h')
        (ih hyz fun x' hx y' hy z' hz => ?_)
      exact hS x' (by simp [hx]) y' (by simp [hy]) z' (by simp [hz])

namespace KeyedDomain

variable {K D : Value → Prop} (hD : KeyedDomain cells K D) {a b c : Value}
include hD

theorem key_comm {es fs : List (Value × Value)} (hes : D (.map es)) (hfs : D (.map fs)) :
    ∀ e ∈ es, ∀ f ∈ fs, Equal cells e.1 f.1 ↔ Equal cells f.1 e.1 :=
  fun _ he _ hf => ⟨hD.key_symm (hD.key hes he) (hD.key hfs hf),
    hD.key_symm (hD.key hfs hf) (hD.key hes he)⟩

theorem flip {R : Value → Value → Prop} (ha : D a) (hb : D b) (h : Matches cells R a b) :
    Matches cells (fun x y => R y x) b a := by
  refine h.flip ?_
  rintro es fs rfl rfl
  exact hD.key_comm ha hb

theorem entry_unique {es : List (Value × Value)} (hes : D (.map es)) {e f : Value × Value}
    (he : e ∈ es) (hf : f ∈ es) (h : Equal cells e.1 f.1) : e = f := by
  have hl : es.Pairwise fun e f => Equal cells e.1 f.1 → e = f :=
    (hD.distinct hes).imp fun hne h => absurd h hne
  have hr : es.Pairwise fun e f => Equal cells f.1 e.1 → f = e :=
    (hD.distinct hes).imp_of_mem fun {e f} he hf hne h =>
      absurd ((hD.key_comm hes hes f hf e he).mp h) hne
  exact hl.forall_of_forall_of_flip (fun _ _ _ => rfl) hr he hf h

/-- The entries of two maps match when each of one has a counterpart in the other, which is as
large. -/
theorem matches_map {es fs : List (Value × Value)} (hes : D (.map es)) (hfs : D (.map fs))
    {R : Value → Value → Prop} (hlen : es.length = fs.length)
    (h : ∀ e ∈ es, ∃ f ∈ fs, Equal cells f.1 e.1 ∧ R e.2 f.2) :
    Matches cells R (.map es) (.map fs) := by
  have hcounter : ∀ e ∈ es, ∃ f ∈ fs, Equal cells e.1 f.1 := by
    intro e he
    obtain ⟨f, hf, hk, -⟩ := h e he
    exact ⟨f, hf, (hD.key_comm hfs hes f hf e he).mp hk⟩
  refine .map hlen hcounter (exists_counterpart hlen ?_ hcounter) ?_
  · refine (hD.distinct hes).imp_of_mem fun {e e'} he he' hne f hf hef => hne ?_
    have hfe := (hD.key_comm hes hfs e' he' f hf).mp hef.2
    exact hD.key_trans (hD.key hes he) (hD.key hfs hf) (hD.key hes he') hef.1 hfe
  · intro e he f hf hk
    obtain ⟨f', hf', hk', hv⟩ := h e he
    have hff := hD.key_trans (hD.key hfs hf') (hD.key hes he) (hD.key hfs hf) hk' hk
    rwa [hD.entry_unique hfs hf' hf hff] at hv

/-- Two values that match in a relation up to `A'` are related up to `A`, in both directions,
when `A'` takes no other pair for granted than `A` and these two. -/
theorem related_of_matches {A A' : Value → Value → Prop} (ha : D a) (hb : D b)
    (hA : ∀ x y, A' x y → A x y ∨ (x = a ∧ y = b ∨ x = b ∧ y = a))
    (h : Matches cells (fun x y => RelatedUpTo cells A' x y ∧ RelatedUpTo cells A' y x) a b) :
    RelatedUpTo cells A a b ∧ RelatedUpTo cells A b a := by
  have hQ : ∀ x y, x = a ∧ y = b ∨ x = b ∧ y = a → Matches cells (RelatedUpTo cells A') x y := by
    rintro x y (⟨rfl, rfl⟩ | ⟨rfl, rfl⟩)
    · exact h.mono fun _ _ hxy => hxy.1
    · exact (hD.flip ha hb h).mono fun _ _ hxy => hxy.2
  exact ⟨relatedUpTo_of_matches hA hQ (.inl ⟨rfl, rfl⟩),
    relatedUpTo_of_matches hA hQ (.inr ⟨rfl, rfl⟩)⟩

/-- Values that a comparison calls equal are related when the open pairs are taken for granted.
Maps are compared from the other side than lists, so both directions go together. -/
theorem related_of_equalWithin {steps : Nat} {opened : List (Cell × Cell)} (ha : D a) (hb : D b)
    (h : equalWithin cells steps opened a b = some true) :
    RelatedUpTo cells (Assumed opened) a b ∧ RelatedUpTo cells (Assumed opened) b a := by
  induction steps generalizing opened a b with
  | zero => simp [equalWithin] at h
  | succ steps ih =>
    cases compared cells a b with
    | atOnce answer hs hm =>
      rw [hs] at h
      exact hD.related_of_matches ha hb (fun _ _ => .inl) ((hm _).mpr (Option.some.inj h))
    | items hxs hys hs =>
      rw [hs] at h
      have hitems := forall₂_imp_of_mem (itemsEqual_eq_true h) fun x hx y hy hxy =>
        ih (hD.item ha hxs hx) (hD.item hb hys hy) hxy
      exact hD.related_of_matches ha hb (fun _ _ => .inl) (.items hxs hys hitems)
    | maps es fs =>
      obtain ⟨hlen, hfound⟩ := entriesEqual_eq_true h
      refine hD.related_of_matches ha hb (fun _ _ => .inl)
        (hD.matches_map ha hb hlen fun e he => ?_)
      obtain ⟨f, hf, hk, hv⟩ := hfound e he
      have hrelated := ih (hD.value hb hf) (hD.value ha he) hv
      exact ⟨f, hf, ⟨steps, hk⟩, hrelated.symm⟩
    | atoms c d =>
      rw [equalWithin_atoms] at h
      split at h
      · next hcd =>
        rcases hcd with rfl | hcd
        · exact hD.related_of_matches ha hb (fun _ _ => .inl) (.sameAtom c)
        · have hassumed : Assumed opened (.atom c) (.atom d) := ⟨c, d, rfl, rfl, .inl hcd⟩
          exact ⟨.inl hassumed, .inl hassumed.symm⟩
      · have hcontent := ih (hD.content ha) (hD.content hb) h
        refine hD.related_of_matches ha hb ?_ (.atoms hcontent)
        rintro x y ⟨c', d', rfl, rfl, hcd⟩
        simp only [List.mem_cons, Prod.mk.injEq] at hcd
        rcases hcd with (⟨rfl, rfl⟩ | hcd) | (⟨rfl, rfl⟩ | hcd)
        · exact .inr (.inl ⟨rfl, rfl⟩)
        · exact .inl ⟨c', d', rfl, rfl, .inl hcd⟩
        · exact .inr (.inr ⟨rfl, rfl⟩)
        · exact .inl ⟨c', d', rfl, rfl, .inr hcd⟩

/-- A comparison tells no bisimilar values apart, whatever it takes for granted. -/
theorem equalWithin_ne_false {R : Value → Value → Prop} (hR : IsBisimulation cells R) (steps : Nat)
    (opened : List (Cell × Cell)) (ha : D a) (hb : D b) (h : R a b ∨ R b a) :
    equalWithin cells steps opened a b ≠ some false := by
  induction steps generalizing opened a b with
  | zero => simp [equalWithin]
  | succ steps ih =>
    have hm : Matches cells (fun x y => R x y ∨ R y x) a b := by
      rcases h with h | h
      · exact (hR a b h).mono fun _ _ => .inl
      · exact (hD.flip hb ha (hR b a h)).mono fun _ _ => .inr
    cases compared cells a b with
    | atOnce answer hs hans =>
      rw [hs, (hans _).mp hm]
      simp
    | items hxs hys hs =>
      rw [hs]
      refine itemsEqual_ne_false (forall₂_imp_of_mem (hm.forall₂_items hxs hys) ?_)
      intro x hx y hy hxy
      exact ih opened (hD.item ha hxs hx) (hD.item hb hys hy) hxy
    | maps es fs =>
      cases hm with
      | items hxs => cases hxs
      | map hlen hl hr hv =>
        intro hfalse
        obtain ⟨e, he, hnone | ⟨f, hf, hk, hne⟩⟩ := entriesEqual_eq_false hfalse hlen
        · obtain ⟨f, hf, hk⟩ := hl e he
          have hk' := (hD.key_comm ha hb e he f hf).mp hk
          exact Answers.not_equal ⟨steps, hnone f hf⟩ hk'
        · have hk' : Equal cells e.1 f.1 := (hD.key_comm ha hb e he f hf).mpr ⟨steps, hk⟩
          exact ih opened (hD.value hb hf) (hD.value ha he) (hv e he f hf hk').symm hne
    | atoms c d =>
      rw [equalWithin_atoms]
      split
      · simp
      · next hcd =>
        cases hm with
        | items hxs => cases hxs
        | sameAtom => exact absurd (.inl rfl) hcd
        | atoms hcontent => exact ih _ (hD.content ha) (hD.content hb) hcontent

theorem equal_iff_bisimilar (ha : D a) (hb : D b) : Equal cells a b ↔ Bisimilar cells a b := by
  constructor
  · rintro ⟨steps, h⟩
    exact (hD.related_of_equalWithin ha hb h).1.bisimilar
  · rintro ⟨R, hR, h⟩
    obtain ⟨r, steps, hr⟩ := hD.total ha hb
    cases r with
    | true => exact ⟨steps, hr⟩
    | false => exact absurd hr (hD.equalWithin_ne_false hR steps [] ha hb (.inl h))

theorem equal_symm (ha : D a) (hb : D b) (h : Equal cells a b) : Equal cells b a := by
  obtain ⟨steps, h⟩ := h
  exact (hD.equal_iff_bisimilar hb ha).mpr (hD.related_of_equalWithin ha hb h).2.bisimilar

theorem matches_refl {R : Value → Value → Prop} (hR : ∀ x, D x → R x x) (ha : D a) :
    Matches cells R a a := by
  cases a with
  | int n => exact .int n
  | bool b => exact .bool b
  | nil => exact .nil
  | eof => exact .eof
  | symbol name => exact .symbol name
  | keyword name => exact .keyword name
  | str text => exact .str text
  | error message => exact .error message
  | function b => exact .function rfl
  | closure c => exact .closure rfl
  | atom c => exact .sameAtom c
  | list xs | vector xs =>
    have hitems := List.forall₂_same.mpr fun x hx => hR x (hD.item ha rfl hx)
    exact .items rfl rfl hitems
  | map es =>
    refine hD.matches_map ha ha rfl fun e he => ?_
    have hkey := hD.key_refl (hD.key ha he)
    exact ⟨e, he, hkey, hR e.2 (hD.value ha he)⟩

theorem bisimilar_refl (ha : D a) : Bisimilar cells a a := by
  refine ⟨fun x y => x = y ∧ D x, ?_, rfl, ha⟩
  rintro x y ⟨rfl, hx⟩
  exact hD.matches_refl (fun z hz => ⟨rfl, hz⟩) hx

theorem equal_refl (ha : D a) : Equal cells a a :=
  (hD.equal_iff_bisimilar ha ha).mpr (hD.bisimilar_refl ha)

theorem matches_trans {R S : Value → Value → Prop} (ha : D a) (hb : D b) (hc : D c)
    (hab : Matches cells R a b) (hbc : Matches cells R b c) (hrefl : ∀ x, D x → R x x)
    (hS : ∀ x y z, D x → D y → D z → R x y → R y z → S x z) : Matches cells S a c := by
  have himp : ∀ x z, D x → D z → R x z → S x z :=
    fun x z hx hz hxz => hS x x z hx hx hz (hrefl x hx) hxz
  cases hab with
  | int | bool | nil | eof | symbol | keyword | str | error | sameAtom =>
    exact hbc.imp hD.toClosed hb hc himp
  | function hfg =>
    rw [Builtin.name_injective hfg]
    exact hbc.imp hD.toClosed hb hc himp
  | closure hcd =>
    cases hbc with
    | items hxs => cases hxs
    | closure hde => exact .closure (hcd.trans hde)
  | items hxs hys hxy =>
    cases hbc with
    | items hys' hzs hyz =>
      cases hys.symm.trans hys'
      refine .items hxs hzs (forall₂_trans hxy hyz fun x hx y hy z hz => ?_)
      exact hS x y z (hD.item ha hxs hx) (hD.item hb hys hy) (hD.item hc hzs hz)
    | _ => cases hys
  | map hlen hl hr hv =>
    cases hbc with
    | items hxs => cases hxs
    | map hlen' hl' hr' hv' =>
      refine hD.matches_map ha hc (hlen.trans hlen') fun e he => ?_
      obtain ⟨f, hf, hef⟩ := hl e he
      obtain ⟨g, hg, hfg⟩ := hl' f hf
      have heg := hD.key_trans (hD.key ha he) (hD.key hb hf) (hD.key hc hg) hef hfg
      have hge := (hD.key_comm ha hc e he g hg).mp heg
      have hvalue := hv e he f hf hef
      have hvalue' := hv' f hf g hg hfg
      refine ⟨g, hg, hge, ?_⟩
      exact hS _ _ _ (hD.value ha he) (hD.value hb hf) (hD.value hc hg) hvalue hvalue'
  | atoms h =>
    cases hbc with
    | items hxs => cases hxs
    | sameAtom => exact .atoms (himp _ _ (hD.content ha) (hD.content hc) h)
    | atoms h' => exact .atoms (hS _ _ _ (hD.content ha) (hD.content hb) (hD.content hc) h h')

theorem equal_trans (ha : D a) (hb : D b) (hc : D c) (hab : Equal cells a b)
    (hbc : Equal cells b c) :
    Equal cells a c := by
  rw [hD.equal_iff_bisimilar ha hb] at hab
  rw [hD.equal_iff_bisimilar hb hc] at hbc
  refine (hD.equal_iff_bisimilar ha hc).mpr
    ⟨fun x z => D x ∧ D z ∧ ∃ y, D y ∧ Bisimilar cells x y ∧ Bisimilar cells y z, ?_,
      ha, hc, b, hb, hab, hbc⟩
  rintro x z ⟨hx, hz, y, hy, hxy, hyz⟩
  refine hD.matches_trans hx hy hz hxy.matches hyz.matches (fun _ hu => hD.bisimilar_refl hu) ?_
  exact fun u v w hu hv hw huv hvw => ⟨hu, hw, v, hv, huv, hvw⟩

end KeyedDomain

/-! Keys hold no atoms, so the keys of a key are keys of a lesser height, and equality of keys is an
equivalence by induction on their height. -/

def Key (cells : Cells) (n : Nat) (v : Value) : Prop :=
  AtomFree v ∧ WellKeyed cells v ∧ v.height ≤ n

theorem keyedDomain_of_keys {n : Nat} (hrefl : ∀ k, Key cells n k → Equal cells k k)
    (hsymm : ∀ k l, Key cells n k → Key cells n l → Equal cells k l → Equal cells l k)
    (htrans : ∀ k l m, Key cells n k → Key cells n l → Key cells n m → Equal cells k l →
      Equal cells l m →
      Equal cells k m) : KeyedDomain cells (Key cells n) (Key cells (n + 1)) where
  item hv hitems hx :=
    ⟨hv.1.item hitems hx, hv.2.1.item hitems hx, (height_item_lt hitems hx).le.trans hv.2.2⟩
  value hes he := ⟨hes.1.value he, hes.2.1.value he, (height_value_lt he).le.trans hes.2.2⟩
  content hc := absurd (.refl _) (hc.1 _)
  key hes he := ⟨hes.1.key he, hes.2.1.key he,
    Nat.le_of_lt_succ ((height_key_lt he).trans_le hes.2.2)⟩
  distinct hes := (hes.2.1 _ (.refl _)).2
  total ha hb := ha.1.exists_answer hb.1 []
  key_refl := hrefl _
  key_symm := hsymm _ _
  key_trans := htrans _ _ _

theorem keyedDomain_key (n : Nat) : KeyedDomain cells (Key cells n) (Key cells (n + 1)) := by
  induction n with
  | zero =>
    have hnone : ∀ k, ¬ Key cells 0 k := fun k hk => (height_pos k).not_ge hk.2.2
    exact keyedDomain_of_keys (fun k hk => absurd hk (hnone k)) (fun k _ hk => absurd hk (hnone k))
      (fun k _ _ hk => absurd hk (hnone k))
  | succ n ih =>
    exact keyedDomain_of_keys (fun _ => ih.equal_refl) (fun _ _ => ih.equal_symm)
      (fun _ _ _ => ih.equal_trans)

theorem keyedDomain_atomFree (cells : Cells) :
    KeyedDomain cells (fun k => AtomFree k ∧ WellKeyed cells k)
      (fun v => AtomFree v ∧ WellKeyed cells v) where
  item hv hitems hx := ⟨hv.1.item hitems hx, hv.2.item hitems hx⟩
  value hes he := ⟨hes.1.value he, hes.2.value he⟩
  content hc := absurd (.refl _) (hc.1 _)
  key hes he := ⟨hes.1.key he, hes.2.key he⟩
  distinct hes := (hes.2 _ (.refl _)).2
  total ha hb := ha.1.exists_answer hb.1 []
  key_refl {k} hk := (keyedDomain_key k.height).equal_refl ⟨hk.1, hk.2, Nat.le_succ _⟩
  key_symm {k l} hk hl :=
    (keyedDomain_key (max k.height l.height)).equal_symm ⟨hk.1, hk.2, by omega⟩
      ⟨hl.1, hl.2, by omega⟩
  key_trans {k l m} hk hl hm :=
    (keyedDomain_key (max k.height (max l.height m.height))).equal_trans ⟨hk.1, hk.2, by omega⟩
      ⟨hl.1, hl.2, by omega⟩ ⟨hm.1, hm.2, by omega⟩

theorem keyedDomain_wellKeyed (hcells : ∀ c, WellKeyed cells (cells.content c)) :
    KeyedDomain cells (fun k => AtomFree k ∧ WellKeyed cells k) (WellKeyed cells) where
  item := WellKeyed.item
  value := WellKeyed.value
  content _ := hcells _
  key hes he := ⟨hes.atomFree he, hes.key he⟩
  distinct hes := (hes _ (.refl _)).2
  total ha hb := WellKeyed.exists_answer hcells ha hb []
  key_refl := (keyedDomain_atomFree cells).key_refl
  key_symm := (keyedDomain_atomFree cells).key_symm
  key_trans := (keyedDomain_atomFree cells).key_trans

/-- Comparisons of well-keyed values end, with an answer that more steps do not change, and
equality is bisimilarity. So it is an equivalence of such values. -/
theorem equal_equivalence (hcells : ∀ c, WellKeyed cells (cells.content c)) :
    (∀ a b, WellKeyed cells a → WellKeyed cells b →
      ∃ steps answer, ∀ more, steps ≤ more → a.equal? cells more b = some answer) ∧
    (∀ a b, WellKeyed cells a → WellKeyed cells b → (Equal cells a b ↔ Bisimilar cells a b)) ∧
    Equivalence fun a b : { v // WellKeyed cells v } => Equal cells a.1 b.1 := by
  have hD := keyedDomain_wellKeyed hcells
  refine ⟨?_, fun a b => hD.equal_iff_bisimilar, ?_, ?_, ?_⟩
  · intro a b ha hb
    obtain ⟨r, steps, hr⟩ := WellKeyed.exists_answer hcells ha hb []
    exact ⟨steps, r, fun more hmore => equalWithin_mono hmore [] a b r hr⟩
  · exact fun a => hD.equal_refl a.2
  · exact fun {a b} => hD.equal_symm a.2 b.2
  · exact fun {a b c} => hD.equal_trans a.2 b.2 c.2

/-- Two atoms that hold one another, one in a list and the other in a map. -/
theorem equal_equivalence_cycle :
    let cells : Cells := #[.list [.int 1, .atom ⟨1⟩], .map [(.keyword "k", .atom ⟨0⟩)]]
    (∀ c, WellKeyed cells (cells.content c)) ∧
    (∀ a b, WellKeyed cells a → WellKeyed cells b →
      ∃ steps answer, ∀ more, steps ≤ more → a.equal? cells more b = some answer) ∧
    (∀ a b, WellKeyed cells a → WellKeyed cells b → (Equal cells a b ↔ Bisimilar cells a b)) ∧
    Equivalence fun a b : { v // WellKeyed cells v } => Equal cells a.1 b.1 := by
  intro cells
  have hcells : ∀ c, WellKeyed cells (cells.content c) := by
    rintro ⟨_ | _ | n⟩
    · exact wellKeyed_items rfl <| List.forall_mem_cons.mpr ⟨wellKeyed_scalar rfl (by simp),
        List.forall_mem_singleton.mpr (wellKeyed_scalar rfl (by simp))⟩
    · have hkey : AtomFree (.keyword "k") := by
        intro c hc
        cases hc with
        | item hv => cases hv
      exact wellKeyed_map (List.forall_mem_singleton.mpr hkey) (List.pairwise_singleton _ _)
        (List.forall_mem_singleton.mpr
          ⟨wellKeyed_scalar rfl (by simp), wellKeyed_scalar rfl (by simp)⟩)
    · exact wellKeyed_scalar (v := .nil) rfl (by simp)
  exact ⟨hcells, equal_equivalence hcells⟩

end Value

end Lisp
