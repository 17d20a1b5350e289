import Lisp.Proofs.RoundTrip
import Lisp.Proofs.Termination

/-! Printing comes to an end, whatever cycles there are among the atoms. A printer keeps the atoms whose
contents it is writing, and a value leaves it with the same ones. Therefore the text of a value is made of
the texts that its parts have inside the same atoms. -/

namespace Lisp

open Value (writeAtom)

/-- A printer has written the text `out`, and is writing the contents of the atoms in `opened`. -/
structure Printer where
  out : String
  opened : List Cell

/-- Values with neither parts nor contents. -/
def Value.IsLeaf : Value → Prop
  | .list _ | .vector _ | .map _ | .atom _ => False
  | _ => True

namespace Printer

def add (p : Printer) (text : String) : Printer :=
  { p with out := p.out ++ text }

def push (p : Printer) (c : Cell) : Printer :=
  { p with opened := c :: p.opened }

def pop (p : Printer) : Printer :=
  { p with opened := p.opened.tail }

theorem add_add (p : Printer) (text more : String) : (p.add text).add more = p.add (text ++ more) := by
  simp [add, String.append_assoc]

theorem add_opened (p : Printer) (text : String) : (p.add text).opened = p.opened :=
  rfl

theorem pop_push_add (p : Printer) (c : Cell) (text : String) : ((p.push c).add text).pop = p.add text :=
  rfl

mutual

/-- The printer `p` writes a value, after which it is `q`. There is no bound on the atoms that it follows. -/
inductive Writes (cells : Cells) (readable : Bool) : Printer → Value → Printer → Prop
  | leaf {p v} (isLeaf : v.IsLeaf) : Writes cells readable p v (p.add (v.print #[] readable))
  | list {p items q} (all : WritesAll cells readable "" (p.add "(") items q) :
    Writes cells readable p (.list items) (q.add ")")
  | vector {p items q} (all : WritesAll cells readable "" (p.add "[") items q) :
    Writes cells readable p (.vector items) (q.add "]")
  | map {p es q} (all : WritesAll cells readable "" (p.add "\x7b") (Value.forms es) q) :
    Writes cells readable p (.map es) (q.add "\x7d")
  | met {p c} (isOpen : c ∈ p.opened) : Writes cells readable p (.atom c) (p.add "...")
  | atom {p c q} (notOpen : c ∉ p.opened)
    (content : Writes cells readable ((p.push c).add "(atom ") (cells.content c) q) :
    Writes cells readable p (.atom c) (q.add ")").pop

/-- The printer writes values one by one, the first after `gap` and the others after a space. -/
inductive WritesAll (cells : Cells) (readable : Bool) : String → Printer → List Value → Printer → Prop
  | nil {gap p} : WritesAll cells readable gap p [] p
  | cons {gap p v q vs q'} (head : Writes cells readable (p.add gap) v q)
    (tail : WritesAll cells readable " " q vs q') : WritesAll cells readable gap p (v :: vs) q'

end

end Printer

namespace Value

variable {cells : Cells} {readable : Bool}

/-- The cells that exist and are not open. -/
def unmet (cells : Cells) (opened : List Cell) : Finset Nat :=
  (Finset.range cells.size).filter fun slot => ⟨slot⟩ ∉ opened

theorem card_unmet_le (cells : Cells) (opened : List Cell) : (unmet cells opened).card ≤ cells.size := by
  have hle := Finset.card_filter_le (Finset.range cells.size) fun slot => ⟨slot⟩ ∉ opened
  rwa [Finset.card_range] at hle

theorem card_unmet_cons_lt {opened : List Cell} {c : Cell} (hc : c.slot < cells.size) (h : c ∉ opened) :
    (unmet cells (c :: opened)).card < (unmet cells opened).card := by
  apply Finset.card_lt_card
  refine Finset.ssubset_iff_of_subset ?_ |>.mpr ⟨c.slot, ?_, ?_⟩
  · exact Finset.monotone_filter_right _ fun _ _ hslot hmem => hslot (List.mem_cons_of_mem _ hmem)
  · exact Finset.mem_filter.mpr ⟨Finset.mem_range.mpr hc, h⟩
  · exact fun hmem => (Finset.mem_filter.mp hmem).2 List.mem_cons_self

/-- More hops than there are atoms to meet are enough, and how many more makes no difference. -/
theorem writeAtom_eq {opened : List Cell} {hops more : Nat} (h : (unmet cells opened).card < hops)
    (h' : (unmet cells opened).card < more) :
    writeAtom cells readable hops opened = writeAtom cells readable more opened := by
  induction hops generalizing opened more with
  | zero => exact absurd h (Nat.not_lt_zero _)
  | succ hops ih =>
    obtain ⟨more, rfl⟩ := Nat.exists_eq_succ_of_ne_zero (Nat.ne_zero_of_lt h')
    funext c out
    simp only [writeAtom]
    by_cases hopen : c ∈ opened
    · rw [if_pos hopen, if_pos hopen]
    · rw [if_neg hopen, if_neg hopen]
      by_cases hc : c.slot < cells.size
      · have hlt := card_unmet_cons_lt hc hopen
        have hinside : writeAtom cells readable hops (c :: opened) =
            writeAtom cells readable more (c :: opened) := ih (by omega) (by omega)
        rw [hinside]
      · rw [content_of_size_le (Nat.le_of_not_lt hc)]
        rfl

/-- The text of a value inside the contents of the atoms in `opened`. -/
def textIn (cells : Cells) (readable : Bool) (opened : List Cell) (v : Value) : String :=
  v.write (writeAtom cells readable (cells.size + 1) opened) readable ""

theorem print_eq_textIn (v : Value) : v.print cells readable = textIn cells readable [] v :=
  rfl

theorem write_eq_textIn (opened : List Cell) (v : Value) (out : String) :
    v.write (writeAtom cells readable (cells.size + 1) opened) readable out =
      out ++ textIn cells readable opened v :=
  write_appends (writeAtom_appends cells readable _ opened) readable v out

theorem writeItems_eq_textIn (opened : List Cell) (items : List Value) (out : String) :
    writeItems (writeAtom cells readable (cells.size + 1) opened) readable "" items out =
      out ++ " ".intercalate (items.map (textIn cells readable opened)) := by
  have hatom := writeAtom_appends cells readable (cells.size + 1) opened
  rw [writeItems_appends hatom, writeItems_eq_intercalate hatom]
  rfl

theorem writeItems_cons_eq_textIn (opened : List Cell) (gap : String) (v : Value) (vs : List Value) :
    writeItems (writeAtom cells readable (cells.size + 1) opened) readable gap (v :: vs) "" =
      gap ++ textIn cells readable opened v ++
        writeItems (writeAtom cells readable (cells.size + 1) opened) readable " " vs "" := by
  have hatom := writeAtom_appends cells readable (cells.size + 1) opened
  rw [writeItems, write_eq_textIn, writeItems_appends hatom, String.empty_append]

theorem textIn_list (opened : List Cell) (items : List Value) :
    textIn cells readable opened (.list items) =
      "(" ++ " ".intercalate (items.map (textIn cells readable opened)) ++ ")" := by
  rw [textIn, write, writeItems_eq_textIn, String.empty_append]

theorem textIn_vector (opened : List Cell) (items : List Value) :
    textIn cells readable opened (.vector items) =
      "[" ++ " ".intercalate (items.map (textIn cells readable opened)) ++ "]" := by
  rw [textIn, write, writeItems_eq_textIn, String.empty_append]

theorem textIn_map (opened : List Cell) (es : List (Value × Value)) :
    textIn cells readable opened (.map es) =
      "\x7b" ++ " ".intercalate ((forms es).map (textIn cells readable opened)) ++ "\x7d" := by
  rw [textIn, write, writeEntries_eq_writeItems, writeItems_eq_textIn, String.empty_append]

theorem textIn_met {opened : List Cell} {c : Cell} (h : c ∈ opened) :
    textIn cells readable opened (.atom c) = "..." := by
  rw [textIn, write, writeAtom, if_pos h, String.empty_append]

theorem textIn_atom {opened : List Cell} {c : Cell} (h : c ∉ opened) :
    textIn cells readable opened (.atom c) =
      "(atom " ++ textIn cells readable (c :: opened) (cells.content c) ++ ")" := by
  rw [textIn, write, writeAtom, if_neg h, String.empty_append]
  by_cases hc : c.slot < cells.size
  · have hlt := card_unmet_cons_lt hc h
    have hle := card_unmet_le cells opened
    have hinside : writeAtom cells readable cells.size (c :: opened) =
        writeAtom cells readable (cells.size + 1) (c :: opened) := writeAtom_eq (by omega) (by omega)
    rw [hinside, write_eq_textIn]
  · rw [content_of_size_le (Nat.le_of_not_lt hc)]
    rfl

theorem textIn_leaf {v : Value} (h : v.IsLeaf) (opened : List Cell) :
    textIn cells readable opened v = v.print #[] readable := by
  cases v with
  | list | vector | map | atom => exact h.elim
  | bool b => cases b <;> rfl
  | _ => rfl

end Value

namespace Printer

open Value

variable {cells : Cells} {readable : Bool}

theorem add_items (p : Printer) (opener closer : String) (items : List Value) :
    ((p.add opener).add (writeItems (writeAtom cells readable (cells.size + 1) (p.add opener).opened)
      readable "" items "")).add closer =
      p.add (opener ++ " ".intercalate (items.map (textIn cells readable p.opened)) ++ closer) := by
  rw [add_opened, writeItems_eq_textIn, String.empty_append, add_add, add_add, String.append_assoc]

mutual

/-- A value adds its text, and leaves open what was open. -/
theorem Writes.eq_add {p q : Printer} {v : Value} (h : Writes cells readable p v q) :
    q = p.add (textIn cells readable p.opened v) := by
  match h with
  | .leaf isLeaf => rw [textIn_leaf isLeaf]
  | .list all => rw [all.eq_add, add_items, textIn_list]
  | .vector all => rw [all.eq_add, add_items, textIn_vector]
  | .map all => rw [all.eq_add, add_items, textIn_map]
  | .met isOpen => rw [textIn_met isOpen]
  | .atom notOpen content =>
    rw [content.eq_add, textIn_atom notOpen, add_add, add_add, pop_push_add, String.append_assoc]
    rfl
termination_by structural h

theorem WritesAll.eq_add {p q : Printer} {gap : String} {vs : List Value}
    (h : WritesAll cells readable gap p vs q) :
    q = p.add (writeItems (writeAtom cells readable (cells.size + 1) p.opened) readable gap vs "") := by
  match h with
  | .nil => simp [add, writeItems]
  | .cons head tail =>
    rw [tail.eq_add, head.eq_add, add_add, add_add, writeItems_cons_eq_textIn, String.append_assoc]
    rfl
termination_by structural h

end

theorem Writes.opened_eq {p q : Printer} {v : Value} (h : Writes cells readable p v q) :
    q.opened = p.opened := by
  rw [h.eq_add, add_opened]

theorem exists_writesAll {p : Printer} {vs : List Value}
    (h : ∀ v ∈ vs, ∀ q : Printer, q.opened = p.opened → ∃ q', Writes cells readable q v q')
    (gap : String) : ∃ q, WritesAll cells readable gap p vs q := by
  induction vs generalizing p gap with
  | nil => exact ⟨p, .nil⟩
  | cons v vs ih =>
    obtain ⟨q, head⟩ := h v List.mem_cons_self (p.add gap) rfl
    have hopened : q.opened = p.opened := head.opened_eq
    obtain ⟨q', tail⟩ := ih (fun w hw r hr => h w (List.mem_cons_of_mem _ hw) r (hr.trans hopened)) " "
    exact ⟨q', .cons head tail⟩

/-- A printer goes inward or opens an atom that was not open, and there are finitely many of these. -/
theorem exists_writes (cells : Cells) (readable : Bool) (p : Printer) (v : Value) :
    ∃ q, Writes cells readable p v q := by
  induction hn : (unmet cells p.opened).card using Nat.strong_induction_on generalizing p v with
  | _ n ihn =>
    induction hm : v.height using Nat.strong_induction_on generalizing p v with
    | _ m ihm =>
      subst hm
      have parts {vs : List Value} (hvs : ∀ w ∈ vs, w.height < v.height) (opener : String) :
          ∃ q, WritesAll cells readable "" (p.add opener) vs q := by
        refine exists_writesAll (fun w hw q hq => ?_) ""
        have hcard : (unmet cells q.opened).card = n := by rw [hq, add_opened, hn]
        exact ihm _ (hvs w hw) q w hcard rfl
      cases v with
      | list items =>
        obtain ⟨q, all⟩ := parts (fun w hw => height_item_lt rfl hw) "("
        exact ⟨_, .list all⟩
      | vector items =>
        obtain ⟨q, all⟩ := parts (fun w hw => height_item_lt rfl hw) "["
        exact ⟨_, .vector all⟩
      | map es =>
        have hforms := forall_mem_forms (P := fun w => w.height < (Value.map es).height) fun e he =>
          ⟨height_key_lt he, height_value_lt he⟩
        obtain ⟨q, all⟩ := parts hforms "\x7b"
        exact ⟨_, .map all⟩
      | atom c =>
        by_cases hopen : c ∈ p.opened
        · exact ⟨_, .met hopen⟩
        · by_cases hc : c.slot < cells.size
          · subst hn
            have hlt := card_unmet_cons_lt hc hopen
            obtain ⟨q, content⟩ := ihn _ hlt ((p.push c).add "(atom ") (cells.content c) rfl
            exact ⟨_, .atom hopen content⟩
          · have hnil := content_of_size_le (Nat.le_of_not_lt hc)
            have hleaf : (cells.content c).IsLeaf := by
              rw [hnil]
              trivial
            exact ⟨_, .atom hopen (.leaf hleaf)⟩
      | _ => exact ⟨_, .leaf trivial⟩

end Printer

open Printer

/-- How the texts of values, inside the contents of the atoms that are open, are made of one another. -/
structure Composes (cells : Cells) (text : List Cell → Value → String) : Prop where
  list : ∀ opened items, text opened (.list items) = "(" ++ " ".intercalate (items.map (text opened)) ++ ")"
  vector : ∀ opened items,
    text opened (.vector items) = "[" ++ " ".intercalate (items.map (text opened)) ++ "]"
  map : ∀ opened es, text opened (.map es) =
    "\x7b" ++ " ".intercalate ((Value.forms es).map (text opened)) ++ "\x7d"
  met : ∀ opened c, text opened (.atom c) = "..." ↔ c ∈ opened
  atom : ∀ opened c, c ∉ opened →
    text opened (.atom c) = "(atom " ++ text (c :: opened) (cells.content c) ++ ")"

/-- In the value `v`, another value stands inside the contents of these atoms, the innermost first. The content
of an atom is not looked at again inside itself. -/
inductive Inside (cells : Cells) (v : Value) : List Cell → Value → Prop
  | whole : Inside cells v [] v
  | item {around w items x} (h : Inside cells v around w) (isItems : w.items? = some items) (hx : x ∈ items) :
    Inside cells v around x
  | entry {around es x} (h : Inside cells v around (.map es)) (hx : x ∈ Value.forms es) :
    Inside cells v around x
  | content {around c} (h : Inside cells v around (.atom c)) (notAround : c ∉ around) :
    Inside cells v (c :: around) (cells.content c)

theorem infix_intercalate {f : Value → String} {vs : List Value} {x : Value} (hx : x ∈ vs) :
    (f x).toList <:+: (" ".intercalate (vs.map f)).toList := by
  induction vs with
  | nil => cases hx
  | cons v vs ih =>
    cases vs with
    | nil =>
      rw [List.mem_singleton.mp hx, List.map_singleton, String.intercalate_singleton]
    | cons w ws =>
      rw [List.map_cons, List.map_cons, String.intercalate_cons_cons, String.toList_append,
        ← List.map_cons]
      rcases List.mem_cons.mp hx with rfl | hx
      · rw [String.toList_append, List.append_assoc]
        exact (List.prefix_append _ _).isInfix
      · exact (ih hx).trans (List.suffix_append _ _).isInfix

theorem infix_bracketed (opener text closer : String) :
    text.toList <:+: (opener ++ text ++ closer).toList := by
  rw [String.toList_append, String.toList_append]
  exact List.infix_append _ _ _

/-- A value that stands in another one has in its text the text that it has inside the atoms around it. -/
theorem Inside.text {cells : Cells} {readable : Bool} {v w : Value} {around : List Cell}
    (h : Inside cells v around w) :
    (Value.textIn cells readable around w).toList <:+: (v.print cells readable).toList := by
  induction h with
  | whole => exact List.infix_rfl
  | @item around w items x _ isItems hx ih =>
    refine .trans ?_ ih
    have hitems := infix_intercalate (f := Value.textIn cells readable around) hx
    cases w with
    | list =>
      cases isItems
      rw [Value.textIn_list]
      exact hitems.trans (infix_bracketed _ _ _)
    | vector =>
      cases isItems
      rw [Value.textIn_vector]
      exact hitems.trans (infix_bracketed _ _ _)
    | _ => cases isItems
  | @entry around es x _ hx ih =>
    refine .trans ?_ ih
    rw [Value.textIn_map]
    exact (infix_intercalate hx).trans (infix_bracketed _ _ _)
  | content _ notAround ih =>
    rw [Value.textIn_atom notAround] at ih
    exact (infix_bracketed _ _ _).trans ih

/-- A printer comes to an end with every value, in one way, and then has the same atoms open as before.
Texts are made of the texts of parts inside the same atoms, and three dots stand for the atoms that are open
and for no other. These are the atoms around a value, wherever it stands in the value that is printed. -/
theorem printing_composes (cells : Cells) (readable : Bool) :
    (∀ p v, ∃! q, Writes cells readable p v q) ∧
      (∀ p v q, Writes cells readable p v q →
        q.opened = p.opened ∧ q.out = p.out ++ Value.textIn cells readable p.opened v) ∧
      (∀ v, Writes cells readable ⟨"", []⟩ v ⟨v.print cells readable, []⟩) ∧
      Composes cells (Value.textIn cells readable) ∧
      ∀ v around w, Inside cells v around w →
        (Value.textIn cells readable around w).toList <:+: (v.print cells readable).toList := by
  refine ⟨fun p v => ?_, fun p v q h => ?_, fun v => ?_, ?_, fun v around w h => h.text⟩
  · obtain ⟨q, h⟩ := exists_writes cells readable p v
    exact ⟨q, h, fun q' h' => h'.eq_add.trans h.eq_add.symm⟩
  · exact ⟨h.opened_eq, congrArg Printer.out h.eq_add⟩
  · obtain ⟨q, h⟩ := exists_writes cells readable ⟨"", []⟩ v
    have hq : q = ⟨v.print cells readable, []⟩ := by
      rw [h.eq_add, Value.print_eq_textIn, add, String.empty_append]
    rwa [hq] at h
  · refine ⟨Value.textIn_list, Value.textIn_vector, Value.textIn_map, fun opened c => ?_,
      fun opened c => Value.textIn_atom⟩
    refine ⟨fun h => ?_, Value.textIn_met⟩
    by_contra hopen
    rw [Value.textIn_atom hopen] at h
    have hchars := congrArg String.toList h
    simp at hchars

/-- An atom that holds itself is printed whole each time it is met beside itself. -/
example :
    let cells : Cells := #[.vector [.nil, .atom ⟨0⟩]]
    Value.print cells false (.list [.atom ⟨0⟩, .atom ⟨0⟩]) = "((atom [nil ...]) (atom [nil ...]))" := by
  decide

end Lisp
