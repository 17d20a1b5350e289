import Lisp.Builtin.Call
import Lisp.Proofs.Entries
import Lisp.Proofs.Lexing
import Lisp.Proofs.Reading

/-! Literals: the values that can be written down. The readable texts of literals, with a space
between two of them, are read back as these literals. -/

namespace Lisp

/-- A text that is cut out as one token and that stands for nothing but the symbol of this name. -/
def ReadableSymbol (name : String) : Prop :=
  name = "^" ∨ name = ":" ∨
    (name ≠ "nil" ∧ name ≠ "true" ∧ name ≠ "false" ∧ ¬ Numeral.IsNumeral name.toList ∧
      ∃ c cs, name.toList = c :: cs ∧ c ≠ ':' ∧ c ∉ ['~', '^', '@'] ∧ ¬ EndsWord c ∧
        ∀ d ∈ cs, ¬ EndsWord d)

def ReadableKeyword (name : String) : Prop :=
  name ≠ "" ∧ ∀ c ∈ name.toList, ¬ EndsWord c

inductive Literal : Value → Prop
  | int (n : Int64) : Literal (.int n)
  | bool (b : Bool) : Literal (.bool b)
  | nil : Literal .nil
  | str (text : String) : Literal (.str text)
  | symbol {name : String} (h : ReadableSymbol name) : Literal (.symbol name)
  | keyword {name : String} (h : ReadableKeyword name) : Literal (.keyword name)
  | list {items : List Value} (h : ∀ v ∈ items, Literal v) : Literal (.list items)
  | vector {items : List Value} (h : ∀ v ∈ items, Literal v) : Literal (.vector items)
  | map {pairs : List (Value × Value)} (hk : ∀ p ∈ pairs, Literal p.1)
      (hv : ∀ p ∈ pairs, Literal p.2) :
    Literal (.mapOfLiterals pairs)

/-- In front of what ends a word, the characters are cut into tokens of their own, which are
read as the value `v`. -/
def Spells (cs : List Char) (v : Value) : Prop :=
  ∀ rest, Stops rest → ∃ ts, tokensOf (cs ++ rest) = ts ++ tokensOf rest ∧ Reads ts v

def SpellsAll (cs : List Char) (vs : List Value) : Prop :=
  ∀ rest, Stops rest →
    ∃ tss, tokensOf (cs ++ rest) = tss.flatten ++ tokensOf rest ∧ List.Forall₂ Reads tss vs

theorem spells_word {text : String} {c : Char} {cs : List Char} {v : Value}
    (hl : text.toList = c :: cs) (hc : isWordStart c = true) (hcs : ∀ d ∈ cs, isWordChar d = true)
    (hv : readScalar text = .ok v) :
    Spells text.toList v := by
  intro rest hr
  have htoken := tokensOf_word hc hcs hr
  have hread : readScalar (String.ofList (c :: cs)) = .ok v := by
    rw [← hl, String.ofList_toList]
    exact hv
  rw [hl]
  exact ⟨_, htoken, reads_scalar (.inr (.inr rfl)) hread⟩

theorem spells_nil : Spells "nil".toList .nil :=
  spells_word (show "nil".toList = ['n', 'i', 'l'] by decide) (by decide)
    (List.all_eq_true.mp (by decide)) rfl

theorem spells_true : Spells "true".toList (.bool true) :=
  spells_word (show "true".toList = ['t', 'r', 'u', 'e'] by decide) (by decide)
    (List.all_eq_true.mp (by decide)) rfl

theorem spells_false : Spells "false".toList (.bool false) :=
  spells_word (show "false".toList = ['f', 'a', 'l', 's', 'e'] by decide) (by decide)
    (List.all_eq_true.mp (by decide)) rfl

theorem spells_int (n : Int64) : Spells (Numeral.ofInteger n).toList (.int n) := by
  obtain ⟨digits, hne, hds, he⟩ := Numeral.isNumeral_ofInteger n
  have hword : ∀ c ∈ digits, isWordStart c = true := fun c hc => isWordStart_of_isDigit (hds c hc)
  have hchar : ∀ c ∈ digits, isWordChar c = true :=
    fun c hc => isWordChar_of_isWordStart (hword c hc)
  rcases he with he | he
  · obtain ⟨d, ds, rfl⟩ := List.exists_cons_of_ne_nil hne
    have hd := hword d (by simp)
    have hds' : ∀ c ∈ ds, isWordChar c = true := fun c hc => hchar c (by simp [hc])
    exact spells_word he hd hds' (readScalar_ofInteger n)
  · exact spells_word he (by decide) hchar (readScalar_ofInteger n)

theorem spells_symbol {name : String} (h : ReadableSymbol name) :
    Spells name.toList (.symbol name) := by
  rcases h with rfl | rfl | ⟨hn, ht, hf, hnum, c, cs, hl, hcolon, hmark, hc, hcs⟩
  · intro rest _
    refine ⟨[⟨.caret, "^"⟩], ?_, reads_scalar (.inl rfl) (by rfl)⟩
    simpa using tokensOf_caret rest
  · exact spells_word (show ":".toList = [':'] by decide) (by decide) (by simp) (by rfl)
  · have hquote : c ≠ '"' := by
      rintro rfl
      exact hc (.inr (by decide))
    have hread : readScalar name = .ok (.symbol name) :=
      readScalar_symbol hn ht hf hnum (by simp [hl, hquote]) (.inr (by simp [hl, hcolon]))
    have hstart := isWordStart_iff.mpr ⟨hc, hmark⟩
    exact spells_word hl hstart (fun d hd => isWordChar_iff.mpr (hcs d hd)) hread

theorem spells_keyword {name : String} (h : ReadableKeyword name) :
    Spells (":" ++ name).toList (.keyword name) := by
  have hl : (":" ++ name).toList = ':' :: name.toList := by simp
  have hread := readScalar_keyword h.1
  exact spells_word hl (by decide) (fun c hc => isWordChar_iff.mpr (h.2 c hc)) hread

theorem spells_str (text : String) : Spells (Quoted.encode text).toList (.str text) :=
  fun rest _ => ⟨_, tokensOf_encode text rest,
    reads_scalar (.inr (.inl rfl)) (readScalar_encode text)⟩

theorem spells_bracket {b : Bracket} {cs : List Char} {vs : List Value} {v : Value}
    (h : SpellsAll cs vs)
    (hv : b.collect vs = .ok v) : Spells (b.opener :: (cs ++ [b.closer])) v := by
  intro rest _
  obtain ⟨tss, htokens, hreads⟩ := h (b.closer :: rest) (stops_cons (endsWord_closer b) rest)
  refine ⟨_, ?_, reads_bracket hreads hv (.singleton b.opener) (.singleton b.closer)⟩
  rw [List.cons_append, List.append_assoc, List.singleton_append, tokensOf_opener, htokens,
    tokensOf_closer]
  simp

namespace Value

variable (atom : Cell → String → String)

def chars (v : Value) : List Char :=
  (write atom true v "").toList

def itemsChars (gap : String) (vs : List Value) : List Char :=
  (writeItems atom true gap vs "").toList

def forms (es : List (Value × Value)) : List Value :=
  es.flatMap fun e => [e.1, e.2]

theorem writeEntries_eq_writeItems (readable : Bool) (gap : String) (es : List (Value × Value))
    (out : String) :
    writeEntries atom readable gap es out = writeItems atom readable gap (forms es) out := by
  induction es generalizing gap out with
  | nil => rfl
  | cons e es ih => exact ih " " _

variable {atom} (h : ∀ c, Appends (atom c))
include h

theorem itemsChars_cons (gap : String) (v : Value) (vs : List Value) :
    itemsChars atom gap (v :: vs) = gap.toList ++ (v.chars atom ++ itemsChars atom " " vs) := by
  rw [itemsChars, writeItems, writeItems_appends h, write_appends h]
  simp [chars, itemsChars, List.append_assoc]

theorem chars_list (items : List Value) :
    (list items).chars atom = '(' :: (itemsChars atom "" items ++ [')']) := by
  rw [chars, write, writeItems_appends h]
  simp [itemsChars]

theorem chars_vector (items : List Value) :
    (vector items).chars atom = '[' :: (itemsChars atom "" items ++ [']']) := by
  rw [chars, write, writeItems_appends h]
  simp [itemsChars]

theorem chars_map (es : List (Value × Value)) :
    (map es).chars atom = '\x7b' :: (itemsChars atom "" (forms es) ++ ['\x7d']) := by
  rw [chars, write, writeEntries_eq_writeItems, writeItems_appends h]
  simp [itemsChars]

end Value

theorem readEntries_forms (es : List (Value × Value)) : readEntries (Value.forms es) = .ok es := by
  induction es with
  | nil => rfl
  | cons e es ih =>
    rw [Value.forms, List.flatMap_cons, List.cons_append, List.cons_append, List.nil_append,
      ← Value.forms, readEntries, ih]
    rfl

theorem forall_mem_forms {P : Value → Prop} {es : List (Value × Value)}
    (h : ∀ e ∈ es, P e.1 ∧ P e.2) :
    ∀ v ∈ Value.forms es, P v := by
  intro v hv
  obtain ⟨e, he, hve⟩ := List.mem_flatMap.mp hv
  simp only [List.mem_cons, List.not_mem_nil, or_false] at hve
  rcases hve with rfl | rfl
  · exact (h e he).1
  · exact (h e he).2

section

variable {atom : Cell → String → String} (h : ∀ c, Value.Appends (atom c))
include h

theorem spellsAll_items {vs : List Value} (hvs : ∀ v ∈ vs, Spells (v.chars atom) v) {gap : String}
    (hgap : gap = "" ∨ gap = " ") : SpellsAll (Value.itemsChars atom gap vs) vs := by
  induction vs generalizing gap with
  | nil => exact fun rest _ => ⟨[], by simp [Value.itemsChars, Value.writeItems], .nil⟩
  | cons v vs ih =>
    intro rest hr
    have hgapped (cs : List Char) : tokensOf (gap.toList ++ cs) = tokensOf cs := by
      rcases hgap with rfl | rfl
      · rfl
      · exact tokensOf_space cs
    have hstops : Stops (Value.itemsChars atom " " vs ++ rest) := by
      cases vs with
      | nil => simpa [Value.itemsChars, Value.writeItems] using hr
      | cons w ws =>
        rw [Value.itemsChars_cons h]
        exact stops_cons endsWord_space _
    obtain ⟨ts, hts, hv⟩ := hvs v (by simp) _ hstops
    obtain ⟨tss, htss, hread⟩ := ih (fun w hw => hvs w (by simp [hw])) (.inr rfl) rest hr
    refine ⟨ts :: tss, ?_, .cons hv hread⟩
    rw [Value.itemsChars_cons h, List.append_assoc, hgapped, List.append_assoc, hts, htss,
      List.flatten_cons, List.append_assoc]

theorem spells_literal {v : Value} (hv : Literal v) : Spells (v.chars atom) v := by
  induction hv with
  | int n => simpa [Value.chars, Value.write] using spells_int n
  | bool b =>
    cases b
    · simpa [Value.chars, Value.write] using spells_false
    · simpa [Value.chars, Value.write] using spells_true
  | nil => simpa [Value.chars, Value.write] using spells_nil
  | str text => simpa [Value.chars, Value.write] using spells_str text
  | symbol hn => simpa [Value.chars, Value.write] using spells_symbol hn
  | keyword hn => simpa [Value.chars, Value.write] using spells_keyword hn
  | list _ ih =>
    rw [Value.chars_list h]
    have hitems := spellsAll_items h ih (.inl rfl)
    exact spells_bracket (b := .round) hitems rfl
  | vector _ ih =>
    rw [Value.chars_vector h]
    have hitems := spellsAll_items h ih (.inl rfl)
    exact spells_bracket (b := .square) hitems rfl
  | map _ _ ihk ihv =>
    have hspells := fun p hp => And.intro (ihk p hp) (ihv p hp)
    obtain ⟨es, he, hdistinct, hparts⟩ := Value.mapOfLiterals_spec
      (P := fun k => Spells (k.chars atom) k) (Q := fun v => Spells (v.chars atom) v) hspells
    have hforms := spellsAll_items h (forall_mem_forms hparts) (.inl rfl)
    rw [he, Value.chars_map h]
    refine spells_bracket (b := .curly) hforms ?_
    rw [Bracket.collect, readEntries_forms, Except.map, Value.mapOfLiterals_of_distinct hdistinct]

end

def prText (cells : Cells) (vs : List Value) : String :=
  " ".intercalate (vs.map (Value.print cells true))

theorem spellsAll_prText (cells : Cells) {vs : List Value} (h : ∀ v ∈ vs, Literal v) :
    SpellsAll (prText cells vs).toList vs := by
  have hatom := Value.writeAtom_appends cells true (cells.size + 1) []
  have htext : (prText cells vs).toList =
      Value.itemsChars (Value.writeAtom cells true (cells.size + 1) []) "" vs :=
    congrArg String.toList (Value.writeItems_eq_intercalate hatom true vs).symm
  rw [htext]
  exact spellsAll_items hatom (fun v hv => spells_literal hatom (h v hv)) (.inl rfl)

theorem readTimes_prText (cells : Cells) {vs : List Value} (h : ∀ v ∈ vs, Literal v) (k : Nat) :
    readTimes (vs.length + k) (tokenize (prText cells vs)) =
      vs.map .ok ++ List.replicate k (.ok .eof) := by
  obtain ⟨tss, htokens, hreads⟩ := spellsAll_prText cells h [] stops_nil
  rw [List.append_nil, tokensOf_nil, List.append_nil] at htokens
  rw [tokenize_eq, htokens, readTimes_of_reads hreads]

theorem read_print (cells : Cells) {v : Value} (h : Literal v) :
    read (v.print cells true) = .ok v := by
  have htimes := readTimes_prText cells (List.forall_mem_singleton.mpr h) 0
  have htext : prText cells [v] = v.print cells true := by simp [prText]
  rw [htext] at htimes
  simpa [readTimes, read] using htimes

theorem call_prStr (ev : Evaluator) (vs : List Value) (σ : Store) :
    ev.call .prStr vs σ = .value (.str (prText σ.cells vs)) σ := by
  rw [Evaluator.call, Evaluator.callWithin.eq_def]
  rfl

/-- What `pr-str` makes of literals is read back as these literals, one by one, and then there
is nothing left to read. -/
theorem readTimes_prStr {vs : List Value} (h : ∀ v ∈ vs, Literal v) (ev : Evaluator) (σ : Store) :
    ev.call .prStr vs σ = .value (.str (prText σ.cells vs)) σ ∧
      (∀ k, readTimes (vs.length + k) (tokenize (prText σ.cells vs)) =
        vs.map .ok ++ List.replicate k (.ok .eof)) ∧
      ∀ v, vs = [v] → read (v.print σ.cells true) = .ok v := by
  refine ⟨call_prStr ev vs σ, readTimes_prText σ.cells h, ?_⟩
  rintro v rfl
  exact read_print σ.cells (h v (by simp))

theorem readTimes_prStr_nested :
    let key := Value.str "a\"b"
    let v := Value.vector [.int (-7), .mapOfLiterals [(key, .keyword "k"), (key, .symbol "^")]]
    let ev : Evaluator := ⟨fun _ _ => .halt .tooDeep, .empty, 0⟩
    let σ := Store.empty .silent
    (∀ w ∈ [v], Literal w) ∧ ev.call .prStr [v] σ = .value (.str (prText σ.cells [v])) σ ∧
      (∀ k, readTimes ([v].length + k) (tokenize (prText σ.cells [v])) =
        [v].map .ok ++ List.replicate k (.ok .eof)) ∧
      ∀ w, [v] = [w] → read (w.print σ.cells true) = .ok w := by
  intro key v ev σ
  have hkey : Literal key := .str _
  have hchars : ∀ c ∈ ['k'], ¬ EndsWord c := by
    intro c hc
    rw [List.mem_singleton.mp hc]
    decide
  have hk : Literal (.keyword "k") := .keyword ⟨by decide, hchars⟩
  have hcaret : Literal (.symbol "^") := .symbol (.inl rfl)
  have hmap : Literal (.mapOfLiterals [(key, .keyword "k"), (key, .symbol "^")]) :=
    .map (by simpa using hkey) (by simpa using ⟨hk, hcaret⟩)
  have hv : ∀ w ∈ [v], Literal w := by
    simpa [v] using Literal.vector (by simpa using ⟨Literal.int (-7), hmap⟩)
  exact ⟨hv, readTimes_prStr hv ev σ⟩

end Lisp
