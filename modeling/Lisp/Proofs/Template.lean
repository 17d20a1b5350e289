import Lisp.Proofs.Rules
import Mathlib.Algebra.Ring.Nat

/-! Templates, without regard to how they are filled in: which forms in a template have to be evaluated, what
it means to evaluate them in turn, and what the template then comes to. -/

namespace Lisp

/-- A place in a template for the value of a form, or for the elements of this value. -/
inductive Slot
  | unquote (form : Value)
  | splice (form : Value)

namespace Slot

def form : Slot → Value
  | .unquote form | .splice form => form

/-- What stands in the place of the slot when its form has this value. -/
def filler? : Slot → Value → Option (List Value)
  | .unquote _, v => some [v]
  | .splice _, v => v.items?

end Slot

def Value.isSplice (item : Value) : Bool :=
  (Marker.spliceUnquote.body? item).isSome

mutual

/-- The slots of a template, in the order in which they stand in it. A form in a slot has none. -/
def Value.slots (template : Value) : List Slot :=
  match Marker.unquote.body? template with
  | some form => [.unquote form]
  | none =>
    match template with
    | .list items | .vector items => itemsSlots items
    | _ => []

def itemsSlots : List Value → List Slot
  | [] => []
  | item :: items =>
    match Marker.spliceUnquote.body? item with
    | some form => .splice form :: itemsSlots items
    | none => item.slots ++ itemsSlots items

end

mutual

/-- A template becomes a value when its slots, from the first to the last, are filled with these lists. -/
inductive Filling : Value → List (List Value) → Value → Prop
  | unquote {form v} : Filling (Marker.unquote.wrap form) [[v]] v
  | list {items fillers parts} (plain : ∀ form, .list items ≠ Marker.unquote.wrap form)
    (all : FillingAll items fillers parts) : Filling (.list items) fillers (.list parts.flatten)
  | vector {items fillers parts} (all : FillingAll items fillers parts) :
    Filling (.vector items) fillers (.vector parts.flatten)
  | quoted {v} (noItems : v.items? = none) : Filling v [] v

/-- Each of the items becomes a part of the new items: what it is spliced with, or its value alone. -/
inductive FillingAll : List Value → List (List Value) → List (List Value) → Prop
  | nil : FillingAll [] [] []
  | splice {form filler items fillers parts} (rest : FillingAll items fillers parts) :
    FillingAll (Marker.spliceUnquote.wrap form :: items) (filler :: fillers) (filler :: parts)
  | item {item used v items fillers parts} (plain : ∀ form, item ≠ Marker.spliceUnquote.wrap form)
    (head : Filling item used v) (rest : FillingAll items fillers parts) :
    FillingAll (item :: items) (used ++ fillers) ([v] :: parts)

end

/-! The slots of a template, by its form. -/

section

variable {items : List Value}

theorem slots_unquote (form : Value) : (Marker.unquote.wrap form).slots = [.unquote form] := by
  unfold Value.slots
  rw [Marker.body?_wrap]

theorem slots_list (plain : ∀ form, .list items ≠ Marker.unquote.wrap form) :
    (Value.list items).slots = itemsSlots items := by
  unfold Value.slots
  rw [Marker.body?_eq_none.mpr plain]

theorem slots_vector (items : List Value) : (Value.vector items).slots = itemsSlots items := by
  unfold Value.slots
  rfl

theorem slots_of_noItems {v : Value} (noItems : v.items? = none) : v.slots = [] := by
  cases v <;> first | rfl | cases noItems

theorem itemsSlots_splice (form : Value) (items : List Value) :
    itemsSlots (Marker.spliceUnquote.wrap form :: items) = .splice form :: itemsSlots items := by
  rw [itemsSlots, Marker.body?_wrap]

theorem itemsSlots_cons {item : Value} (plain : ∀ form, item ≠ Marker.spliceUnquote.wrap form)
    (items : List Value) : itemsSlots (item :: items) = item.slots ++ itemsSlots items := by
  rw [itemsSlots, Marker.body?_eq_none.mpr plain]

end

/-! There is one filler to each slot. -/

mutual

theorem Filling.length_fillers {template v : Value} {fillers : List (List Value)}
    (h : Filling template fillers v) : fillers.length = template.slots.length := by
  match h with
  | .unquote => rw [slots_unquote]; rfl
  | .list plain all => rw [slots_list plain, all.length_fillers]
  | .vector all => rw [slots_vector, all.length_fillers]
  | .quoted noItems => rw [slots_of_noItems noItems]; rfl
termination_by structural h

theorem FillingAll.length_fillers {items : List Value} {fillers parts : List (List Value)}
    (h : FillingAll items fillers parts) : fillers.length = (itemsSlots items).length := by
  match h with
  | .nil => rfl
  | .splice rest => rw [itemsSlots_splice, List.length_cons, List.length_cons, rest.length_fillers]
  | .item plain head rest =>
    rw [itemsSlots_cons plain, List.length_append, List.length_append, head.length_fillers,
      rest.length_fillers]
termination_by structural h

end

/-- Items that are not spliced count once, and a spliced one counts as often as its filler has elements. -/
theorem FillingAll.length_flatten {items : List Value} {fillers parts : List (List Value)}
    (h : FillingAll items fillers parts) :
    parts.flatten.length = items.countP (! ·.isSplice) +
      (((items.zip parts).filter (·.1.isSplice)).map (·.2.length)).sum := by
  match h with
  | .nil => rfl
  | @FillingAll.splice form filler items fillers parts rest =>
    have hsplice : (Marker.spliceUnquote.wrap form).isSplice = true := by
      rw [Value.isSplice, Marker.body?_wrap]
      rfl
    simp only [List.flatten_cons, List.length_append, rest.length_flatten, List.zip_cons_cons,
      List.countP_cons, List.filter_cons, hsplice, if_true, List.map_cons, List.sum_cons]
    simp only [Bool.not_true, Bool.false_eq_true, if_false]
    omega
  | @FillingAll.item x _ _ items fillers parts plain _ rest =>
    have hitem : x.isSplice = false := by
      rw [Value.isSplice, Marker.body?_eq_none.mpr plain]
      rfl
    simp only [List.flatten_cons, List.length_append, rest.length_flatten, List.zip_cons_cons,
      List.countP_cons, List.filter_cons, hitem, List.length_singleton]
    simp only [Bool.not_false, if_true, Bool.false_eq_true, if_false]
    omega
termination_by structural h

/-- A template is a slot, a sequence of items or something without items, and each item is spliced or is a
template. -/
theorem template_induction {P : Value → Prop} {Q : List Value → Prop}
    (unquote : ∀ form, P (Marker.unquote.wrap form))
    (list : ∀ items, (∀ form, .list items ≠ Marker.unquote.wrap form) → Q items → P (.list items))
    (vector : ∀ items, Q items → P (.vector items)) (quoted : ∀ v, v.items? = none → P v) (nil : Q [])
    (splice : ∀ form items, Q items → Q (Marker.spliceUnquote.wrap form :: items))
    (item : ∀ item items, (∀ form, item ≠ Marker.spliceUnquote.wrap form) → P item → Q items →
      Q (item :: items)) : (∀ template, P template) ∧ ∀ items, Q items := by
  have itemsOf (items : List Value) (ih : ∀ item ∈ items, P item) : Q items := by
    induction items with
    | nil => exact nil
    | cons v items hitems =>
      obtain ⟨hv, ih⟩ := List.forall_mem_cons.mp ih
      by_cases plain : ∀ form, v ≠ Marker.spliceUnquote.wrap form
      · exact item v items plain hv (hitems ih)
      · obtain ⟨form, hform⟩ := not_forall.mp plain
        rw [not_not.mp hform]
        exact splice form items (hitems ih)
  have all (template : Value) : P template := by
    induction hn : template.height using Nat.strong_induction_on generalizing template with
    | _ n ih =>
      subst hn
      have within (items : List Value) (hitems : template.items? = some items) : Q items :=
        itemsOf items fun v hv => ih _ (Value.height_item_lt hitems hv) v rfl
      by_cases plain : ∀ form, template ≠ Marker.unquote.wrap form
      · cases hitems : template.items? with
        | none => exact quoted template hitems
        | some items =>
          have hall := within items hitems
          cases template with
          | list items =>
            cases hitems
            exact list items plain hall
          | vector items =>
            cases hitems
            exact vector items hall
          | _ => cases hitems
      · obtain ⟨form, hform⟩ := not_forall.mp plain
        rw [not_not.mp hform]
        exact unquote form
  exact ⟨all, fun items => itemsOf items fun v _ => all v⟩

/-- What has no slots stays as it is. -/
theorem filling_of_noSlots {template : Value} (noSlots : template.slots = []) :
    Filling template [] template := by
  have stays : (∀ template : Value, template.slots = [] → Filling template [] template) ∧
      ∀ items, itemsSlots items = [] → FillingAll items [] (items.map ([·])) := by
    refine template_induction ?unquote ?list ?vector ?quoted ?nil ?splice ?item
    case unquote =>
      intro form noSlots
      rw [slots_unquote] at noSlots
      cases noSlots
    case list =>
      intro items plain ih noSlots
      rw [slots_list plain] at noSlots
      have hfilling := Filling.list plain (ih noSlots)
      rwa [← List.flatMap_def, List.flatMap_singleton'] at hfilling
    case vector =>
      intro items ih noSlots
      rw [slots_vector] at noSlots
      have hfilling := Filling.vector (ih noSlots)
      rwa [← List.flatMap_def, List.flatMap_singleton'] at hfilling
    case quoted => exact fun v noItems _ => .quoted noItems
    case nil => exact fun _ => .nil
    case splice =>
      intro form items _ noSlots
      rw [itemsSlots_splice] at noSlots
      cases noSlots
    case item =>
      intro item items plain hitem hitems noSlots
      rw [itemsSlots_cons plain, List.append_eq_nil_iff] at noSlots
      exact .item plain (hitem noSlots.1) (hitems noSlots.2)
  exact stays.1 template noSlots

/-- What forms come to in a store, and what store they leave. -/
abbrev Evaluation :=
  Value → Store → Except EvalError Value → Store → Prop

section

variable (E : Evaluation)

/-- The form of a slot comes to something that fills the slot, or fails, or can not be spliced. -/
inductive Slot.Comes (slot : Slot) (σ : Store) : Except EvalError (List Value) → Store → Prop
  | filler {v filler τ} (evaluated : E slot.form σ (.ok v) τ) (isFiller : slot.filler? v = some filler) :
    Comes slot σ (.ok filler) τ
  | fails {e τ} (fails : E slot.form σ (.error e) τ) : Comes slot σ (.error e) τ
  | noFiller {v τ} (evaluated : E slot.form σ (.ok v) τ) (noFiller : slot.filler? v = none) :
    Comes slot σ
      (.error (.invalidForm "splice-unquote" s!"expected a list or vector, got {v.kind.name}")) τ

/-- Slots come to their fillers one after the other, up to the first one that fails. -/
inductive InTurn : List Slot → Store → Except EvalError (List (List Value)) → Store → Prop
  | nil {σ} : InTurn [] σ (.ok []) σ
  | next {slot slots σ filler ρ fillers τ} (head : slot.Comes E σ (.ok filler) ρ)
    (rest : InTurn slots ρ (.ok fillers) τ) : InTurn (slot :: slots) σ (.ok (filler :: fillers)) τ
  | fails {slot slots σ e τ} (head : slot.Comes E σ (.error e) τ) :
    InTurn (slot :: slots) σ (.error e) τ
  | later {slot slots σ filler ρ e τ} (head : slot.Comes E σ (.ok filler) ρ)
    (rest : InTurn slots ρ (.error e) τ) : InTurn (slot :: slots) σ (.error e) τ

end

section

variable {E E' : Evaluation} {slots slots' : List Slot} {σ ρ τ : Store} {fillers : List (List Value)}
  {s : Except EvalError (List (List Value))}

theorem Slot.Comes.imp {slot : Slot} {s : Except EvalError (List Value)}
    (hE : ∀ form σ r τ, E form σ r τ → E' form σ r τ) (h : slot.Comes E σ s τ) : slot.Comes E' σ s τ := by
  cases h with
  | filler evaluated isFiller => exact .filler (hE _ _ _ _ evaluated) isFiller
  | fails fails => exact .fails (hE _ _ _ _ fails)
  | noFiller evaluated noFiller => exact .noFiller (hE _ _ _ _ evaluated) noFiller

namespace InTurn

theorem imp (hE : ∀ form σ r τ, E form σ r τ → E' form σ r τ) (h : InTurn E slots σ s τ) :
    InTurn E' slots σ s τ := by
  induction h with
  | nil => exact .nil
  | next head _ ih => exact .next (head.imp hE) ih
  | fails head => exact .fails (head.imp hE)
  | later head _ ih => exact .later (head.imp hE) ih

theorem length_fillers (h : InTurn E slots σ (.ok fillers) τ) : fillers.length = slots.length := by
  induction slots generalizing σ fillers with
  | nil =>
    cases h
    rfl
  | cons slot slots ih =>
    cases h with
    | next head rest => rw [List.length_cons, List.length_cons, ih rest]

theorem cons {slot : Slot} {filler : List Value} (head : slot.Comes E σ (.ok filler) ρ)
    (rest : InTurn E slots ρ s τ) : InTurn E (slot :: slots) σ (s.map (filler :: ·)) τ := by
  cases s with
  | ok _ => exact .next head rest
  | error _ => exact .later head rest

theorem of_cons {slot : Slot} (h : InTurn E (slot :: slots) σ s τ) :
    (∃ e, s = .error e ∧ slot.Comes E σ (.error e) τ) ∨
      ∃ filler ρ s', slot.Comes E σ (.ok filler) ρ ∧ InTurn E slots ρ s' τ ∧ s = s'.map (filler :: ·) := by
  cases h with
  | next head rest | later head rest => exact .inr ⟨_, _, _, head, rest, rfl⟩
  | fails head => exact .inl ⟨_, rfl, head⟩

theorem append_error {e : EvalError} (h : InTurn E slots σ (.error e) τ) (slots' : List Slot) :
    InTurn E (slots ++ slots') σ (.error e) τ := by
  induction slots generalizing σ with
  | nil => cases h
  | cons slot slots ih =>
    cases h with
    | fails head => exact .fails head
    | later head rest => exact .later head (ih rest)

theorem append (h : InTurn E slots σ (.ok fillers) ρ) (h' : InTurn E slots' ρ s τ) :
    InTurn E (slots ++ slots') σ (s.map (fillers ++ ·)) τ := by
  induction slots generalizing σ fillers with
  | nil =>
    cases h
    cases s <;> exact h'
  | cons slot slots ih =>
    cases h with
    | next head rest =>
      have hrest := cons head (ih rest)
      cases s <;> exact hrest

theorem of_append (h : InTurn E (slots ++ slots') σ s τ) :
    (∃ e, s = .error e ∧ InTurn E slots σ (.error e) τ) ∨
      ∃ fillers ρ s', InTurn E slots σ (.ok fillers) ρ ∧ InTurn E slots' ρ s' τ ∧
        s = s'.map (fillers ++ ·) := by
  induction slots generalizing σ s with
  | nil =>
    refine .inr ⟨[], σ, s, .nil, h, ?_⟩
    cases s <;> rfl
  | cons slot slots ih =>
    obtain ⟨e, rfl, head⟩ | ⟨filler, ρ, s, head, rest, rfl⟩ := h.of_cons
    · exact .inl ⟨e, rfl, .fails head⟩
    · obtain ⟨e, rfl, hfails⟩ | ⟨fillers, ρ', s, hslots, hrest, rfl⟩ := ih rest
      · exact .inl ⟨e, rfl, .later head hfails⟩
      · refine .inr ⟨filler :: fillers, ρ', s, .next head hslots, hrest, ?_⟩
        cases s <;> rfl

end InTurn

end

end Lisp
