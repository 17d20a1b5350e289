import Lisp.Proofs.Comparison

/-! Bisimulations of values: relations whose pairs agree in all that can be seen of them at
once, and whose parts and contents are related again. This module says what they are and how a
comparison treats a pair of values in one step. -/

namespace Lisp

namespace Value

/-- The comparison of two values with these pairs of atoms open comes to an answer. -/
def Answers (cells : Cells) (opened : List (Cell × Cell)) (a b : Value) (r : Bool) : Prop :=
  ∃ steps, equalWithin cells steps opened a b = some r

def Equal (cells : Cells) (a b : Value) : Prop :=
  ∃ steps, a.equal? cells steps b = some true

/-- What two values have in common when their parts and contents are related by `R`. Lists and
vectors are not told apart. Each entry of one map has its counterpart, with an equal key, in the
other. -/
inductive Matches (cells : Cells) (R : Value → Value → Prop) : Value → Value → Prop
  | int (n : Int64) : Matches cells R (.int n) (.int n)
  | bool (b : Bool) : Matches cells R (.bool b) (.bool b)
  | nil : Matches cells R .nil .nil
  | eof : Matches cells R .eof .eof
  | symbol (name : String) : Matches cells R (.symbol name) (.symbol name)
  | keyword (name : String) : Matches cells R (.keyword name) (.keyword name)
  | str (text : String) : Matches cells R (.str text) (.str text)
  | error (message : String) : Matches cells R (.error message) (.error message)
  | function {f g : Builtin} (h : f.name = g.name) : Matches cells R (.function f) (.function g)
  | closure {c d : Closure Value} (h : c.id = d.id) : Matches cells R (.closure c) (.closure d)
  | items {a b : Value} {xs ys : List Value} (ha : a.items? = some xs) (hb : b.items? = some ys)
    (h : List.Forall₂ R xs ys) : Matches cells R a b
  | map {es fs : List (Value × Value)} (hlen : es.length = fs.length)
    (hl : ∀ e ∈ es, ∃ f ∈ fs, Equal cells e.1 f.1) (hr : ∀ f ∈ fs, ∃ e ∈ es, Equal cells e.1 f.1)
    (hv : ∀ e ∈ es, ∀ f ∈ fs, Equal cells e.1 f.1 → R e.2 f.2) : Matches cells R (.map es) (.map fs)
  | sameAtom (c : Cell) : Matches cells R (.atom c) (.atom c)
  | atoms {c d : Cell} (h : R (cells.content c) (cells.content d)) :
    Matches cells R (.atom c) (.atom d)

def IsBisimulation (cells : Cells) (R : Value → Value → Prop) : Prop :=
  ∀ a b, R a b → Matches cells R a b

def Bisimilar (cells : Cells) (a b : Value) : Prop :=
  ∃ R, IsBisimulation cells R ∧ R a b

section

variable {cells : Cells} {R S : Value → Value → Prop} {a b : Value}

/-- A set of values that holds with a value its elements, with a map its values and with an atom its
content. -/
structure Closed (cells : Cells) (D : Value → Prop) : Prop where
  item : ∀ {v x : Value} {items : List Value}, D v → v.items? = some items → x ∈ items → D x
  value : ∀ {es : List (Value × Value)} {e : Value × Value}, D (.map es) → e ∈ es → D e.2
  content : ∀ {c : Cell}, D (.atom c) → D (cells.content c)

theorem forall₂_imp_of_mem {P Q : Value → Value → Prop} {xs ys : List Value}
    (h : List.Forall₂ P xs ys) (hPQ : ∀ x ∈ xs, ∀ y ∈ ys, P x y → Q x y) :
    List.Forall₂ Q xs ys := by
  induction h with
  | nil => exact .nil
  | @cons x y xs ys hxy _ ih =>
    refine .cons (hPQ x (by simp) y (by simp) hxy) (ih fun x' hx y' hy => ?_)
    exact hPQ x' (by simp [hx]) y' (by simp [hy])

theorem Matches.imp {D : Value → Prop} (hD : Closed cells D) (ha : D a) (hb : D b)
    (h : Matches cells R a b) (hRS : ∀ x y, D x → D y → R x y → S x y) : Matches cells S a b := by
  cases h with
  | int n => exact .int n
  | bool b => exact .bool b
  | nil => exact .nil
  | eof => exact .eof
  | symbol name => exact .symbol name
  | keyword name => exact .keyword name
  | str text => exact .str text
  | error message => exact .error message
  | function h => exact .function h
  | closure h => exact .closure h
  | items hxs hys h =>
    have hitems := forall₂_imp_of_mem h fun x hx y hy =>
      hRS x y (hD.item ha hxs hx) (hD.item hb hys hy)
    exact .items hxs hys hitems
  | map hlen hl hr hv =>
    refine .map hlen hl hr fun e he f hf hk => ?_
    have hvalue := hv e he f hf hk
    exact hRS _ _ (hD.value ha he) (hD.value hb hf) hvalue
  | sameAtom c => exact .sameAtom c
  | atoms h => exact .atoms (hRS _ _ (hD.content ha) (hD.content hb) h)

theorem closed_univ (cells : Cells) : Closed cells fun _ => True where
  item _ _ _ := trivial
  value _ _ := trivial
  content _ := trivial

theorem Matches.mono (h : Matches cells R a b) (hRS : ∀ x y, R x y → S x y) : Matches cells S a b :=
  h.imp (closed_univ cells) trivial trivial fun x y _ _ => hRS x y

theorem Matches.flip (h : Matches cells R a b)
    (hk : ∀ es fs, a = .map es → b = .map fs →
      ∀ e ∈ es, ∀ f ∈ fs, Equal cells e.1 f.1 ↔ Equal cells f.1 e.1) :
    Matches cells (fun x y => R y x) b a := by
  cases h with
  | int n => exact .int n
  | bool b => exact .bool b
  | nil => exact .nil
  | eof => exact .eof
  | symbol name => exact .symbol name
  | keyword name => exact .keyword name
  | str text => exact .str text
  | error message => exact .error message
  | function h => exact .function h.symm
  | closure h => exact .closure h.symm
  | items hxs hys h => exact .items hys hxs h.flip
  | map hlen hl hr hv =>
    have hkey := hk _ _ rfl rfl
    refine .map hlen.symm ?_ ?_ fun f hf e he h => hv e he f hf ((hkey e he f hf).mpr h)
    · intro f hf
      obtain ⟨e, he, h⟩ := hr f hf
      exact ⟨e, he, (hkey e he f hf).mp h⟩
    · intro e he
      obtain ⟨f, hf, h⟩ := hl e he
      exact ⟨f, hf, (hkey e he f hf).mp h⟩
  | sameAtom c => exact .sameAtom c
  | atoms h => exact .atoms h

theorem Matches.forall₂_items (h : Matches cells R a b) {xs ys : List Value}
    (ha : a.items? = some xs) (hb : b.items? = some ys) : List.Forall₂ R xs ys := by
  cases h with
  | items ha' hb' h =>
    cases ha.symm.trans ha'
    cases hb.symm.trans hb'
    exact h
  | _ => cases ha

theorem Bisimilar.matches (h : Bisimilar cells a b) : Matches cells (Bisimilar cells) a b := by
  obtain ⟨R, hR, hab⟩ := h
  have hm := hR a b hab
  exact hm.mono fun x y hxy => ⟨R, hR, hxy⟩

theorem Matches.bisimilar (h : Matches cells (Bisimilar cells) a b) : Bisimilar cells a b := by
  refine ⟨fun x y => Bisimilar cells x y ∨ x = a ∧ y = b, ?_, .inr ⟨rfl, rfl⟩⟩
  rintro x y (hxy | ⟨rfl, rfl⟩)
  · exact hxy.matches.mono fun _ _ => .inl
  · exact h.mono fun _ _ => .inl

/-- Values with neither parts nor contents nor a name of their own. -/
def IsScalar : Value → Prop
  | .int _ | .bool _ | .nil | .eof | .symbol _ | .keyword _ | .str _ | .error _ => True
  | .list _ | .vector _ | .map _ | .function _ | .closure _ | .atom _ => False

theorem matches_scalar (ha : a.IsScalar) : Matches cells R a b ↔ a = b := by
  constructor
  · intro h
    cases h with
    | int | bool | nil | eof | symbol | keyword | str | error => rfl
    | items hxs => cases a <;> first | exact False.elim ha | cases hxs
    | function | closure | map | sameAtom | atoms => cases ha
  · rintro rfl
    cases a with
    | int n => exact .int n
    | bool b => exact .bool b
    | nil => exact .nil
    | eof => exact .eof
    | symbol name => exact .symbol name
    | keyword name => exact .keyword name
    | str text => exact .str text
    | error message => exact .error message
    | list | vector | map | function | closure | atom => cases ha

/-- What a comparison does with a pair of values when it may take at least one step. -/
inductive Compared (cells : Cells) : Value → Value → Prop
  | atOnce {a b : Value} (answer : Bool)
    (h : ∀ steps opened, equalWithin cells (steps + 1) opened a b = some answer)
    (hm : ∀ R, Matches cells R a b ↔ answer = true) : Compared cells a b
  | items {a b : Value} {xs ys : List Value} (ha : a.items? = some xs) (hb : b.items? = some ys)
    (h : ∀ steps opened, equalWithin cells (steps + 1) opened a b =
      itemsEqual (equalWithin cells steps opened) xs ys) : Compared cells a b
  | maps (es fs : List (Value × Value)) : Compared cells (.map es) (.map fs)
  | atoms (c d : Cell) : Compared cells (.atom c) (.atom d)

theorem Compared.scalar (ha : a.IsScalar) (answer : Bool)
    (h : ∀ steps opened, equalWithin cells (steps + 1) opened a b = some answer)
    (heq : answer = true ↔ a = b) : Compared cells a b :=
  .atOnce answer h fun _ => (matches_scalar ha).trans heq.symm

theorem compared (cells : Cells) (a b : Value) : Compared cells a b := by
  cases a <;> cases b
  case list.list xs ys | list.vector xs ys | vector.list xs ys | vector.vector xs ys =>
    exact .items rfl rfl fun _ _ => rfl
  case map.map es fs => exact .maps es fs
  case atom.atom c d => exact .atoms c d
  case nil.nil | eof.eof => exact .scalar trivial true (fun _ _ => rfl) (by simp)
  case int.int m n => exact .scalar trivial (m == n) (fun _ _ => rfl) (by simp)
  case bool.bool p q => exact .scalar trivial (p == q) (fun _ _ => rfl) (by simp)
  case symbol.symbol s t | keyword.keyword s t | str.str s t | error.error s t =>
    exact .scalar trivial (s == t) (fun _ _ => rfl) (by simp)
  case function.function f g =>
    refine .atOnce (f == g) (fun _ _ => rfl) fun R => ⟨fun h => ?_, fun h => ?_⟩
    · cases h with
      | items ha => cases ha
      | function h => exact beq_iff_eq.mpr (Builtin.name_injective h)
    · exact .function (congrArg Builtin.name (beq_iff_eq.mp h))
  case closure.closure c d =>
    refine .atOnce (c.id == d.id) (fun _ _ => rfl) fun R => ⟨fun h => ?_, fun h => ?_⟩
    · cases h with
      | items ha => cases ha
      | closure h => exact beq_iff_eq.mpr h
    · exact .closure (beq_iff_eq.mp h)
  -- What is left are values of two kinds, which differ at once.
  all_goals
    refine .atOnce false (fun _ _ => rfl) fun R => ⟨fun h => ?_, nofun⟩
    cases h with
    | items ha hb => simp [items?] at ha hb

end

end Value

end Lisp
