import Lisp.Proofs.Entries
import Lisp.Proofs.Equality
import Lisp.Proofs.LiteralEquality

/-! Making a map of pairs whose keys hold no atom. The map has one entry for each class of equal keys, with
the first of these keys in its place and the last of their values. -/

namespace Lisp

variable {cells : Cells}

/-- No key before this place is equal to the key there. -/
def FirstAt (cells : Cells) (keys : List Value) (i : Nat) : Prop :=
  ∃ k, keys[i]? = some k ∧ ∀ l ∈ keys.take i, ¬ Value.Equal cells l k

/-- The last pair whose key is equal to `k` has the value `v`. -/
def LastValue (cells : Cells) (pairs : List (Value × Value)) (k v : Value) : Prop :=
  ∃ before l after, pairs = before ++ (l, v) :: after ∧ Value.Equal cells l k ∧
    ∀ p ∈ after, ¬ Value.Equal cells p.1 k

/-- The entries have the keys that are equal to none before them, in their order and as they are spelled,
each with the last value of the keys that are equal to it. -/
structure Collects (cells : Cells) (pairs : List (Value × Value)) (es : Entries) : Prop where
  distinct : (es.map Prod.fst).Pairwise fun k l => ¬ Value.Equal cells k l
  first : ∃ places : List Nat, places.Pairwise (· < ·) ∧
    (∀ i, i ∈ places ↔ FirstAt cells (pairs.map Prod.fst) i) ∧
    places.map ((pairs.map Prod.fst)[·]?) = es.map fun e => some e.1
  last : ∀ e ∈ es, LastValue cells pairs e.1 e.2

theorem FirstAt.lt_length {keys : List Value} {i : Nat} (h : FirstAt cells keys i) : i < keys.length := by
  obtain ⟨k, hk, -⟩ := h
  exact (List.getElem?_eq_some_iff.mp hk).1

theorem firstAt_concat {keys : List Value} {k : Value} {i : Nat} :
    FirstAt cells (keys ++ [k]) i ↔
      FirstAt cells keys i ∨ i = keys.length ∧ ∀ l ∈ keys, ¬ Value.Equal cells l k := by
  rcases Nat.lt_trichotomy i keys.length with hi | rfl | hi
  · have htake : (keys ++ [k]).take i = keys.take i := List.take_append_of_le_length hi.le
    simp only [FirstAt, List.getElem?_append_left hi, htake]
    simp [hi.ne]
  · simp [FirstAt]
  · have hnot : ¬ FirstAt cells keys i := fun h => Nat.lt_asymm hi h.lt_length
    have hnot' : ¬ FirstAt cells (keys ++ [k]) i := by
      intro h
      have hlt := h.lt_length
      simp at hlt
      omega
    simp [hnot, hnot', hi.ne']

theorem LastValue.concat {pairs : List (Value × Value)} {p : Value × Value} {k v : Value}
    (h : LastValue cells pairs k v) (hp : ¬ Value.Equal cells p.1 k) :
    LastValue cells (pairs ++ [p]) k v := by
  obtain ⟨before, l, after, rfl, hl, hafter⟩ := h
  refine ⟨before, l, after ++ [p], by simp, hl, fun q hq => ?_⟩
  rcases List.mem_append.mp hq with hq | hq
  · exact hafter q hq
  · rwa [List.mem_singleton.mp hq]

namespace Collects

variable {pairs : List (Value × Value)} {es : Entries}

theorem nil : Collects cells [] [] :=
  ⟨List.Pairwise.nil, ⟨[], List.Pairwise.nil, by simp [FirstAt], rfl⟩, by simp⟩

theorem mem_keys (h : Collects cells pairs es) {e : Value × Value} (he : e ∈ es) :
    e.1 ∈ pairs.map Prod.fst := by
  obtain ⟨places, -, -, hkeys⟩ := h.first
  have hmem : some e.1 ∈ places.map ((pairs.map Prod.fst)[·]?) := by
    rw [hkeys]
    exact List.mem_map.mpr ⟨e, he, rfl⟩
  obtain ⟨i, -, hi⟩ := List.mem_map.mp hmem
  exact List.mem_of_getElem? hi

theorem exists_entry (h : Collects cells pairs es) {i : Nat} {k : Value}
    (hi : FirstAt cells (pairs.map Prod.fst) i) (hk : (pairs.map Prod.fst)[i]? = some k) :
    ∃ e ∈ es, e.1 = k := by
  obtain ⟨places, -, hplaces, hkeys⟩ := h.first
  have hmem : some k ∈ es.map fun e => some e.1 := by
    rw [← hkeys]
    exact List.mem_map.mpr ⟨i, (hplaces i).mpr hi, hk⟩
  obtain ⟨e, he, hek⟩ := List.mem_map.mp hmem
  exact ⟨e, he, Option.some.inj hek⟩

theorem places_concat (h : Collects cells pairs es) (p : Value × Value) :
    ∃ places : List Nat, places.Pairwise (· < ·) ∧
      (∀ i, i ∈ places ↔ FirstAt cells (pairs.map Prod.fst) i) ∧
      places.map (((pairs ++ [p]).map Prod.fst)[·]?) = es.map fun e => some e.1 := by
  obtain ⟨places, hsorted, hplaces, hkeys⟩ := h.first
  refine ⟨places, hsorted, hplaces, ?_⟩
  rw [← hkeys]
  refine List.map_congr_left fun i hi => ?_
  have hlt := ((hplaces i).mp hi).lt_length
  rw [List.map_append, List.getElem?_append_left hlt]

variable {K D : Value → Prop} (hD : Value.KeyedDomain cells K D) (hK : ∀ p ∈ pairs, K p.1)

include hK in
theorem key (h : Collects cells pairs es) {e : Value × Value} (he : e ∈ es) : K e.1 := by
  obtain ⟨p, hp, hpe⟩ := List.mem_map.mp (h.mem_keys he)
  exact hpe ▸ hK p hp

include hD hK

/-- The first key that is equal to a key is equal to none before it. -/
theorem covers (h : Collects cells pairs es) {k : Value} (hk : k ∈ pairs.map Prod.fst) :
    ∃ e ∈ es, Value.Equal cells e.1 k := by
  have hkeys : ∀ l ∈ pairs.map Prod.fst, K l := List.forall_mem_map.mpr hK
  obtain ⟨i, hi, hik⟩ := List.mem_iff_getElem.mp hk
  induction i using Nat.strong_induction_on generalizing k with
  | _ i ih =>
    have hget : (pairs.map Prod.fst)[i]? = some k := List.getElem?_eq_some_iff.mpr ⟨hi, hik⟩
    by_cases hfirst : FirstAt cells (pairs.map Prod.fst) i
    · obtain ⟨e, he, rfl⟩ := h.exists_entry hfirst hget
      exact ⟨e, he, hD.key_refl (hkeys _ hk)⟩
    · have hbefore : ∃ l ∈ (pairs.map Prod.fst).take i, Value.Equal cells l k := by
        by_contra hnone
        exact hfirst ⟨k, hget, fun l hl hlk => hnone ⟨l, hl, hlk⟩⟩
      obtain ⟨l, hl, hlk⟩ := hbefore
      obtain ⟨j, hj, hjl⟩ := List.mem_take_iff_getElem.mp hl
      have hlmem : l ∈ pairs.map Prod.fst := List.mem_of_mem_take hl
      obtain ⟨e, he, hel⟩ := ih j (by omega) hlmem (by omega) hjl
      exact ⟨e, he, hD.key_trans (h.key hK he) (hkeys l hlmem) (hkeys k hk) hel hlk⟩

theorem replace {before after : Entries} {k v l w : Value}
    (h : Collects cells pairs (before ++ (l, w) :: after)) (hk : K k) (hlk : Value.Equal cells l k) :
    Collects cells (pairs ++ [(k, v)]) (before ++ (l, v) :: after) := by
  have hlmem : l ∈ pairs.map Prod.fst := h.mem_keys (e := (l, w)) (by simp)
  have hl : K l := h.key hK (e := (l, w)) (by simp)
  have hdistinct : (before.map Prod.fst ++ l :: after.map Prod.fst).Pairwise
      fun k l => ¬ Value.Equal cells k l := by simpa using h.distinct
  obtain ⟨-, hafter, hbefore⟩ := List.pairwise_append.mp hdistinct
  refine ⟨?_, ?_, ?_⟩
  · simpa using hdistinct
  · obtain ⟨places, hsorted, hplaces, hkeys⟩ := h.places_concat (k, v)
    refine ⟨places, hsorted, fun i => ?_, by simpa using hkeys⟩
    have hseen : ¬ ∀ m ∈ pairs.map Prod.fst, ¬ Value.Equal cells m k := fun hnew => hnew l hlmem hlk
    rw [hplaces, List.map_append, List.map_singleton, firstAt_concat]
    simp only [hseen, and_false, or_false]
  · -- What `k` is equal to is equal to `l`, so it is the key of no other entry.
    have hother {e : Value × Value} (he : e ∈ before ++ (l, w) :: after)
        (hne : ¬ Value.Equal cells l e.1) : LastValue cells (pairs ++ [(k, v)]) e.1 e.2 := by
      have hke : ¬ Value.Equal cells k e.1 := fun hke => hne (hD.key_trans hl hk (h.key hK he) hlk hke)
      exact (h.last e he).concat hke
    intro e he
    rcases List.mem_append.mp he with he | he
    · have hmem : e ∈ before ++ (l, w) :: after := List.mem_append_left _ he
      refine hother hmem fun hle => ?_
      have hel := hD.key_symm hl (h.key hK hmem) hle
      exact hbefore e.1 (List.mem_map_of_mem he) l List.mem_cons_self hel
    · rcases List.mem_cons.mp he with rfl | he
      · exact ⟨pairs, k, [], rfl, hD.key_symm hl hk hlk, by simp⟩
      · have hmem : e ∈ before ++ (l, w) :: after := List.mem_append_right _ (List.mem_cons_of_mem _ he)
        exact hother hmem (List.rel_of_pairwise_cons hafter (List.mem_map_of_mem he))

theorem append {k v : Value} (h : Collects cells pairs es) (hk : K k)
    (hnew : ∀ e ∈ es, ¬ Value.Equal cells e.1 k) :
    Collects cells (pairs ++ [(k, v)]) (es ++ [(k, v)]) := by
  refine ⟨?_, ?_, ?_⟩
  · rw [List.map_append, List.pairwise_append]
    refine ⟨h.distinct, List.pairwise_singleton _ _, fun l hl m hm => ?_⟩
    obtain ⟨e, he, rfl⟩ := List.mem_map.mp hl
    rw [List.mem_singleton.mp hm]
    exact hnew e he
  · obtain ⟨places, hsorted, hplaces, hkeys⟩ := h.places_concat (k, v)
    have hunseen : ∀ m ∈ pairs.map Prod.fst, ¬ Value.Equal cells m k := by
      intro m hm hmk
      obtain ⟨e, he, hem⟩ := h.covers hD hK hm
      have hmK : K m := List.forall_mem_map.mpr hK m hm
      exact hnew e he (hD.key_trans (h.key hK he) hmK hk hem hmk)
    refine ⟨places ++ [pairs.length], ?_, fun i => ?_, ?_⟩
    · refine List.pairwise_append.mpr ⟨hsorted, List.pairwise_singleton _ _, fun i hi j hj => ?_⟩
      have hlt := ((hplaces i).mp hi).lt_length
      rw [List.length_map] at hlt
      rwa [List.mem_singleton.mp hj]
    · rw [List.map_append, List.map_singleton, firstAt_concat, List.mem_append, hplaces,
        List.mem_singleton, List.length_map, and_iff_left hunseen]
    · rw [List.map_append, hkeys]
      simp
  · intro e he
    rcases List.mem_append.mp he with he | he
    · have hke : ¬ Value.Equal cells k e.1 := fun hke => hnew e he (hD.key_symm hk (h.key hK he) hke)
      exact (h.last e he).concat hke
    · rw [List.mem_singleton.mp he]
      exact ⟨pairs, k, [], rfl, hD.key_refl hk, by simp⟩

end Collects

theorem collects_of_ofList {K D : Value → Prop} (hD : Value.KeyedDomain cells K D) {patience : Nat}
    {pairs : List (Value × Value)} {es : Entries} (hK : ∀ p ∈ pairs, K p.1)
    (h : Entries.ofList (fun k l => k.equal? cells patience l) pairs = some es) :
    Collects cells pairs es := by
  refine Entries.ofList_induction
    (motive := fun pairs es => (∀ p ∈ pairs, K p.1) → Collects cells pairs es) (fun _ => .nil) ?_ h hK
  intro pairs es fs p ih hinsert hK
  obtain ⟨hpairs, hp⟩ := List.forall_mem_append.mp hK
  have hpK : K p.1 := hp p List.mem_cons_self
  have hes := ih hpairs
  rcases Entries.insert_cases hinsert with ⟨before, l, w, after, rfl, hsame, rfl⟩ | ⟨hnew, rfl⟩
  · exact hes.replace hD hpairs hpK ⟨patience, hsame⟩
  · exact hes.append hD hpairs hpK fun e he => Value.Answers.not_equal ⟨patience, hnew e he⟩

namespace Value

/-- The values that can be built. A map can be built of pairs alone, whatever the atoms held at that time. -/
inductive Built : Value → Prop
  | scalar {v : Value} (noItems : v.items? = none) (noMap : ∀ es, v ≠ .map es) : Built v
  | items {v : Value} {items : List Value} (isItems : v.items? = some items) (h : ∀ x ∈ items, Built x) :
    Built v
  | map {cells : Cells} {pairs : List (Value × Value)} {es : Entries} (made : EntriesOf cells pairs es)
    (hk : ∀ p ∈ pairs, Built p.1) (hv : ∀ p ∈ pairs, Built p.2) : Built (.map es)

theorem Built.wellKeyed {v : Value} (h : Built v) (ha : AtomFree v) (cells : Cells) : WellKeyed cells v := by
  induction h with
  | scalar noItems noMap => exact wellKeyed_scalar noItems noMap
  | items isItems _ ih => exact wellKeyed_items isItems fun x hx => ih x hx (ha.item isItems hx)
  | @map made pairs es hmade _ _ ihk ihv =>
    obtain ⟨patience, hes⟩ := hmade
    have hkeys : ∀ e ∈ es, AtomFree e.1 := fun e he => ha.key he
    refine wellKeyed_map hkeys ?_ fun e he => ?_
    · have hdistinct := List.pairwise_map.mp (Entries.ofList_distinct hes)
      refine hdistinct.imp_of_mem fun {e f} he hf hne => ?_
      have hdiffer : ¬ Equal made e.1 f.1 := Answers.not_equal ⟨patience, hne⟩
      exact (hkeys e he).not_equal (hkeys f hf) hdiffer
    · obtain ⟨⟨p, hp, hkey⟩, q, hq, hvalue⟩ := Entries.ofList_parts hes e he
      exact ⟨hkey ▸ ihk p hp (hkey ▸ ha.key he), hvalue ▸ ihv q hq (hvalue ▸ ha.value he)⟩

theorem map_of_built {es : List (Value × Value)} (hkeys : ∀ e ∈ es, e.1.Built ∧ e.1.AtomFree)
    (hvalues : ∀ e ∈ es, e.2.Built ∧ e.2.AtomFree)
    (hdistinct : (es.map Prod.fst).Pairwise fun k l => ¬ Equal cells k l) :
    AtomFree (.map es) ∧ WellKeyed cells (.map es) := by
  have hfree : ∀ e ∈ es, e.1.AtomFree ∧ e.2.AtomFree := fun e he => ⟨(hkeys e he).2, (hvalues e he).2⟩
  refine ⟨atomFree_map hfree, ?_⟩
  refine wellKeyed_map (fun e he => (hfree e he).1) (List.pairwise_map.mp hdistinct) fun e he => ?_
  have hkey := (hkeys e he).1.wellKeyed (hfree e he).1 cells
  have hvalue := (hvalues e he).1.wellKeyed (hfree e he).2 cells
  exact ⟨hkey, hvalue⟩

theorem equal_map_of_perm {es fs : List (Value × Value)} (h : es.Perm fs)
    (hes : AtomFree (.map es) ∧ WellKeyed cells (.map es))
    (hfs : AtomFree (.map fs) ∧ WellKeyed cells (.map fs)) : Equal cells (.map es) (.map fs) := by
  have hD := keyedDomain_atomFree cells
  refine (hD.equal_iff_bisimilar hes hfs).mpr (hD.matches_map hes hfs h.length_eq fun e he => ?_).bisimilar
  have hkey := hD.key_refl (hD.key hes he)
  have hvalue := hD.bisimilar_refl (hD.value hes he)
  exact ⟨e, h.mem_iff.mp he, hkey, hvalue⟩

theorem distinct_of_perm {es fs : List (Value × Value)} (h : es.Perm fs)
    (hkeys : ∀ e ∈ es, AtomFree e.1 ∧ WellKeyed cells e.1)
    (hdistinct : (es.map Prod.fst).Pairwise fun k l => ¬ Equal cells k l) :
    (fs.map Prod.fst).Pairwise fun k l => ¬ Equal cells k l := by
  have hD := keyedDomain_atomFree cells
  have hK : ∀ k ∈ es.map Prod.fst, AtomFree k ∧ WellKeyed cells k := List.forall_mem_map.mpr hkeys
  have hboth : (es.map Prod.fst).Pairwise fun k l => ¬ Equal cells k l ∧ ¬ Equal cells l k := by
    refine hdistinct.imp_of_mem fun {k l} hk hl hne => ⟨hne, fun h => hne ?_⟩
    exact hD.key_symm (hK l hl) (hK k hk) h
  have hperm := (h.map Prod.fst).pairwise_iff fun {k l} (h : ¬ Equal cells k l ∧ ¬ Equal cells l k) => h.symm
  exact (hperm.mp hboth).imp And.left

end Value

/-- The pairs are made into a map with these entries, both as literals and in a store, where comparisons
have as many steps as the keys are high. -/
def MakesMap (σ : Store) (pairs : List (Value × Value)) (es : Entries) : Prop :=
  Value.mapOfLiterals pairs = .map es ∧
    ∀ ev : Evaluator, (∀ p ∈ pairs, p.1.height ≤ ev.patience) → ev.mapOf pairs σ = .value (.map es) σ

section

variable {σ : Store} {pairs : List (Value × Value)}

theorem exists_makesMap (σ : Store) (hkeys : ∀ p ∈ pairs, Value.AtomFree p.1) :
    ∃ es, EntriesOf σ.cells pairs es ∧ MakesMap σ pairs es := by
  have hmade {patience : Nat} (h : ∀ p ∈ pairs, p.1.height ≤ patience) :
      Entries.ofList (fun k l => k.equal? σ.cells patience l) pairs =
        some (pairs.foldl (fun es p => Entries.put Value.literalEqual p.1 p.2 es) []) := by
    have hsame (p) (hp : p ∈ pairs) (q) (hq : q ∈ pairs) :
        p.1.equal? σ.cells patience q.1 = some (p.1.literalEqual q.1) :=
      (hkeys p hp).equal?_eq (hkeys q hq) σ.cells (h p hp)
    have hliteral := Entries.ofList_pure (m := Option) Value.literalEqual pairs
    exact (Entries.ofList_congr hsame).trans hliteral
  have hheights : ∀ p ∈ pairs, p.1.height ≤ Value.entriesHeight pairs :=
    fun p hp => (le_max_left _ _).trans (Value.entriesHeight_le hp)
  refine ⟨_, ⟨_, hmade hheights⟩, Value.mapOfLiterals_eq pairs, fun ev h => ?_⟩
  exact Evaluator.mapOf_eq_of.mpr ⟨_, hmade h, rfl, rfl⟩

/-- Pairs whose keys are not equal stay as they are. -/
theorem EntriesOf.eq_of_distinct {cells : Cells} {es : Entries} (h : EntriesOf cells pairs es)
    (hdistinct : (pairs.map Prod.fst).Pairwise fun k l => ¬ Value.Equal cells k l) : es = pairs := by
  obtain ⟨patience, h⟩ := h
  refine Entries.ofList_of_distinct ?_ h
  exact (List.pairwise_map.mp hdistinct).imp fun hne hequal => hne ⟨patience, hequal⟩

end

/-- Pairs whose keys hold no atom make a map: one entry for each class of equal keys, with the first of these
keys and the last of their values. The entries of the map make the same map again, and the order of pairs with
unequal keys makes no difference to what the map is equal to. -/
theorem map_construction (σ : Store) (pairs : List (Value × Value))
    (hkeys : ∀ p ∈ pairs, p.1.Built ∧ p.1.AtomFree) :
    ∃ es, MakesMap σ pairs es ∧ Collects σ.cells pairs es ∧ MakesMap σ es es ∧
      ∀ others, pairs.Perm others → (∀ p ∈ pairs, p.2.Built ∧ p.2.AtomFree) →
        (pairs.map Prod.fst).Pairwise (fun k l => ¬ Value.Equal σ.cells k l) →
        ∃ fs, MakesMap σ others fs ∧ Value.Equal σ.cells (.map es) (.map fs) := by
  have hfree : ∀ p ∈ pairs, p.1.AtomFree := fun p hp => (hkeys p hp).2
  have hK : ∀ p ∈ pairs, p.1.AtomFree ∧ Value.WellKeyed σ.cells p.1 :=
    fun p hp => ⟨hfree p hp, (hkeys p hp).1.wellKeyed (hfree p hp) σ.cells⟩
  obtain ⟨es, hentries, hmakes⟩ := exists_makesMap σ hfree
  have hcollects : Collects σ.cells pairs es := by
    obtain ⟨patience, h⟩ := hentries
    exact collects_of_ofList (Value.keyedDomain_atomFree σ.cells) hK h
  refine ⟨es, hmakes, hcollects, ?_, fun others hperm hvalues hdistinct => ?_⟩
  · have hesFree : ∀ e ∈ es, e.1.AtomFree := fun e he => hcollects.key hfree he
    obtain ⟨again, hagain, hmakes'⟩ := exists_makesMap σ hesFree
    obtain rfl := hagain.eq_of_distinct hcollects.distinct
    exact hmakes'
  · have hback {p : Value × Value} (hp : p ∈ others) : p ∈ pairs := hperm.mem_iff.mpr hp
    have hothersFree : ∀ p ∈ others, p.1.AtomFree := fun p hp => hfree p (hback hp)
    have hdistinct' := Value.distinct_of_perm hperm hK hdistinct
    obtain ⟨fs, hothers, hmakes'⟩ := exists_makesMap σ hothersFree
    obtain rfl := hentries.eq_of_distinct hdistinct
    obtain rfl := hothers.eq_of_distinct hdistinct'
    have hes := Value.map_of_built hkeys hvalues hdistinct
    have hfs := Value.map_of_built (fun p hp => hkeys p (hback hp)) (fun p hp => hvalues p (hback hp))
      hdistinct'
    exact ⟨fs, hmakes', Value.equal_map_of_perm hperm hes hfs⟩

/-- A list as a key, and later an equal vector. -/
theorem map_construction_list_key :
    let σ := Store.empty .silent
    let pairs : Entries :=
      [(.list [.nil], .keyword "a"), (.keyword "k", .nil), (.vector [.nil], .keyword "b")]
    let es : Entries := [(.list [.nil], .keyword "b"), (.keyword "k", .nil)]
    (∀ p ∈ pairs, p.1.Built ∧ p.1.AtomFree) ∧ MakesMap σ pairs es ∧ Collects σ.cells pairs es ∧
      (∀ p ∈ es, p.1.Built ∧ p.1.AtomFree) ∧ MakesMap σ es es ∧
      ∃ fs, MakesMap σ es.reverse fs ∧ Value.Equal σ.cells (.map es) (.map fs) := by
  intro σ pairs es
  have hscalar {v : Value} (noItems : v.items? = none) (noMap : ∀ es, v ≠ .map es)
      (noAtom : ∀ c, v ≠ .atom c) : v.Built ∧ v.AtomFree :=
    ⟨.scalar noItems noMap, Value.atomFree_scalar noItems noMap noAtom⟩
  have hnil := hscalar (v := .nil) rfl (by simp) (by simp)
  have hkeyword (name : String) := hscalar (v := .keyword name) rfl (by simp) (by simp)
  have hitems {v : Value} (isItems : v.items? = some [.nil]) : v.Built ∧ v.AtomFree :=
    ⟨.items isItems (List.forall_mem_singleton.mpr hnil.1),
      Value.atomFree_items isItems (List.forall_mem_singleton.mpr hnil.2)⟩
  have hpairs : ∀ p ∈ pairs, p.1.Built ∧ p.1.AtomFree := by
    simpa [pairs] using ⟨hitems rfl, hkeyword "k", hitems rfl⟩
  have hes : ∀ p ∈ es, p.1.Built ∧ p.1.AtomFree := by
    simpa [es] using ⟨hitems rfl, hkeyword "k"⟩
  have hvalues : ∀ p ∈ es, p.2.Built ∧ p.2.AtomFree := by
    simpa [es] using ⟨hkeyword "b", hnil⟩
  have hne : ¬ Value.Equal σ.cells (.list [.nil]) (.keyword "k") := Value.Answers.not_equal ⟨1, rfl⟩
  have hdistinct : (es.map Prod.fst).Pairwise fun k l => ¬ Value.Equal σ.cells k l := by
    simpa [es] using hne
  obtain ⟨made, hmakes, hcollects, hagain, -⟩ := map_construction σ pairs hpairs
  obtain rfl : made = es := Value.map.inj (hmakes.1.symm.trans rfl)
  obtain ⟨same, hsame, -, -, hperm⟩ := map_construction σ es hes
  obtain rfl : same = es := Value.map.inj (hsame.1.symm.trans hagain.1)
  exact ⟨hpairs, hmakes, hcollects, hes, hagain, hperm _ (List.reverse_perm _).symm hvalues hdistinct⟩

end Lisp
